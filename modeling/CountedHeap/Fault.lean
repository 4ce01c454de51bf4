import CountedHeap.Handle
import CountedHeap.Value

/-! Why an operation fails, and the one place where each cause is put into words. -/
namespace CountedHeap

/-- Why reading or writing outside the heap fails. -/
inductive TransferFault where
  | brokenPipe
  | connectionReset
  | endOfFile
  | permissionDenied
  | timedOut
  | wouldBlock
  | invalidData
  | nothingWritten
  | notUtf8
  | noSuchFile
  | isDirectory
  | notDirectory
  | noSpace
  | nameTooLong
  | nulInName
  | other (text : String)
deriving DecidableEq, Repr

def TransferFault.message : TransferFault → String
  | brokenPipe => "broken pipe"
  | connectionReset => "connection reset"
  | endOfFile => "unexpected end of file"
  | permissionDenied => "permission denied"
  | timedOut => "timed out"
  | wouldBlock => "operation would block"
  | invalidData => "invalid data"
  | nothingWritten => "failed to write whole buffer"
  | notUtf8 => "stream did not contain valid UTF-8"
  | noSuchFile => "No such file or directory (os error 2)"
  | isDirectory => "Is a directory (os error 21)"
  | notDirectory => "Not a directory (os error 20)"
  | noSpace => "No space left on device (os error 28)"
  | nameTooLong => "File name too long (os error 36)"
  | nulInName => "file name contained an unexpected NUL byte"
  | other text => text

/-- What could not be had when memory was asked for. -/
inductive Shortage where
  | liveLimit
  | slotNumbers
  | newBuffer
  | slotTable
  | moreText
deriving DecidableEq, Repr

namespace Shortage

/-- What was being done. -/
def context : Shortage → String
  | liveLimit => "creating a value beyond the configured live value limit"
  | slotNumbers => "creating a value beyond the addressable slot count"
  | newBuffer => "creating a text buffer"
  | slotTable => "growing the value heap"
  | moreText => "appending to a text buffer"

/-- Whether memory was asked for and refused, and not just a limit reached. -/
def refused : Shortage → Bool
  | liveLimit | slotNumbers => false
  | newBuffer | slotTable | moreText => true

end Shortage

inductive Fault where
  | transfer (cause : TransferFault)
  | configuration (file : String)
  | allocation (shortage : Shortage)
  | staleHandle (h : Handle)
  | refcountOverflow (h : Handle)
  | kindMismatch (h : Handle) (expected found : Kind)
  | invalidInput (offset : Nat)
deriving DecidableEq, Repr

/-- What is said of a failure. That a file cannot be parsed is said without what stands behind it in
full, a colon and the parser's own account. -/
def Fault.message : Fault → String
  | transfer cause => "I/O error: " ++ cause.message
  | configuration file => s!"Failed to parse configuration '{file}'"
  | allocation shortage => "Allocation failed while " ++ shortage.context
  | staleHandle h =>
    "Handle " ++ h.render ++ " refers to a destroyed value. Retaining, releasing or reading " ++
      "a value after its last release is a contract violation."
  | refcountOverflow h => "Refcount of " ++ h.render ++ " would overflow"
  | kindMismatch h expected found =>
    "Value " ++ h.render ++ " is of kind `" ++ found.name ++ "`, expected `" ++ expected.name ++ "`"
  | invalidInput offset => s!"Input is not valid UTF-8 at byte offset {offset}"

end CountedHeap
