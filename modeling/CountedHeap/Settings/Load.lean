import CountedHeap.Event
import CountedHeap.Fault
import CountedHeap.Settings.Document
import CountedHeap.Text.Decoder

/-! Loading settings from a document in memory or in a file; a success is logged. -/
namespace CountedHeap.Settings

/-- The settings, or why there are none, and the log. -/
structure Loading where
  result : Except Fault Settings
  log : List Event
deriving Repr

/-- Loads a document that goes by a name. -/
def load (file : String) (document : List Char) : Loading :=
  match ofDocument? document with
  | some settings => ⟨.ok settings, [.loaded file settings]⟩
  | none => ⟨.error (.configuration file), []⟩

/-- The name of a document that is in no file. -/
def inlineName : String := "<inline>"

/-- Loads a file, given what reading it came to. -/
def loadFile (file : String) (octets : Except TransferFault (List UInt8)) : Loading :=
  match octets with
  | .error cause => ⟨.error (.transfer cause), []⟩
  | .ok octets =>
    match Text.Decoder.decode? octets with
    | some document => load file document
    | none => ⟨.error (.transfer .notUtf8), []⟩

end CountedHeap.Settings
