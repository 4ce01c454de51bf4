import CountedHeap.Command.Program

/-! The program at the command line: it reads arguments, environment, file and input, and prints
what the run leaves behind. -/
namespace CountedHeap.Main
open CountedHeap.Command

/-- The system's number of a failure, which is sometimes given negated. -/
def codeNumber (code : UInt32) : Nat := (if code < 0x80000000 then code else 0 - code).toNat

/-- A failure of the system. -/
def cause : IO.Error → TransferFault
  | .noFileOrDirectory .. => .noSuchFile
  | .resourceExhausted _ code text | .inappropriateType _ code text | .invalidArgument _ code text
  | .permissionDenied _ code text | .otherError code text =>
    match codeNumber code with
    | 28 => .noSpace
    | 21 => .isDirectory
    | 20 => .notDirectory
    | 36 => .nameTooLong
    | n => .other s!"{text} (os error {n})"
  | e => .other (toString e)

/-- Reads the file that the options name. -/
def readFile (options : Options) : IO (Except TransferFault (List UInt8)) :=
  match options.settingsFile with
  | none => return .error .noSuchFile
  | some file =>
    try return .ok (← IO.FS.readBinFile file).toList
    catch e => return .error (cause e)

/-- Reads input until there is a newline in it, or no more of it. -/
partial def readThroughLine (input : IO.FS.Stream) (sofar : List Arrival) : IO (List Arrival) := do
  let chunk := (← input.read 8192).toList
  let arrivals := sofar ++ chunk.map Arrival.octet
  if chunk.isEmpty || chunk.contains newline then return arrivals
  readThroughLine input arrivals

/-- Reads the line that the options ask for; a failure takes its place. -/
def readInput (options : Options) : IO (List Arrival) := do
  if options.integer.isSome then return []
  try readThroughLine (← IO.getStdin) []
  catch e => return [.failure (cause e)]

/-- Writes octets to standard output. -/
def printOctets (octets : List UInt8) : IO (Except Fault Unit) := do
  try
    let output ← IO.getStdout
    output.write (ByteArray.mk octets.toArray)
    output.flush
    return .ok ()
  catch e => return .error (.transfer (cause e))

/-- Shows a value on standard output. Octets behind the last newline are still buffered when the
program goes on, unless they fill the buffer, so their failure counts only then. -/
def showValue (s : Heap) (h : Handle) (template : List Char) : IO (Except Fault Unit) := do
  match s.display h template with
  | .error fault => return .error fault
  | .ok text =>
    let octets := Text.octets text
    match ← printOctets (Output.lines octets) with
    | .error fault => return .error fault
    | .ok () =>
      let last ← printOctets (Output.tail octets)
      return if Output.bufferSize ≤ (Output.tail octets).length then last else .ok ()

/-- Writes text to standard error. -/
def printErrors (text : List Char) : IO Unit := do (← IO.getStderr).putStr (String.ofList text)

/-- Prints what a run leaves behind. -/
def finish (execution : Execution) : IO UInt32 := do
  let _ ← printOctets execution.output
  printErrors execution.errors
  return execution.exit.toUInt32

/-- Runs the program under its options. -/
def runOptions (options : Options) (filter : Filter) : IO UInt32 := do
  let file ← readFile options
  let input ← match file with
    | .error _ => if options.settingsFile.isSome then pure [] else readInput options
    | .ok _ => readInput options
  let begun := Program.begin .ample options (fun _ => file) input
  let stage ← match begun.result with
    | .error fault => pure ⟨.error fault, begun.heap, begun.log⟩
    | .ok h => do
      let shown ← showValue begun.heap h options.template
      pure (begun.andThen fun h s => Program.complete (Program.conclude s h shown))
  finish (.ofStage filter stage [])

end CountedHeap.Main

def main (arguments : List String) : IO UInt32 := do
  let specification := (← IO.getEnv "RUST_LOG").getD ""
  CountedHeap.Main.printErrors (CountedHeap.Command.Filter.warnings specification)
  let filter := CountedHeap.Command.Filter.ofSpecification specification
  let invocation := CountedHeap.Command.Invocation.ofArguments (arguments.map String.toList)
  match invocation with
  | .run options => CountedHeap.Main.runOptions options filter
  | _ =>
    CountedHeap.Main.finish
      (.ofInvocation invocation filter .ample (fun _ => .error .noSuchFile) [] .accepting)
