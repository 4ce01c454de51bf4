import CountedHeap.Command.Filter
import CountedHeap.Command.Options
import CountedHeap.Command.Output
import CountedHeap.Heap.Lemmas
import CountedHeap.Heap.Line
import CountedHeap.Settings.Load

/-!
The program. It makes one value, from the command line or from a line of input, attaches further
owners to it, shows it through a template, and takes all owners away again; it does so also when
showing fails, and reports that failure afterwards. -/
namespace CountedHeap.Command

/-- What the program itself logs. -/
inductive Notice where
  | retained (h : Handle) (refcount : Nat)
  | released (h : Handle) (refcount : Nat)
  | destroyed (kind : Kind) (h : Handle)
  | summary (counters : Counters)
deriving DecidableEq, Repr

namespace Notice

def text : Notice → String
  | retained h refcount => "Retained " ++ h.render ++ s!" (refcount {refcount})"
  | released h refcount => "Released " ++ h.render ++ s!" (refcount {refcount})"
  | destroyed kind h => "Destroyed " ++ kind.name ++ " value " ++ h.render
  | summary c => s!"{c.created} values created, {c.destroyed} destroyed, {c.live} live"

def record (n : Notice) : Log.Record := ⟨.info, "rcvalue_cli", n.text⟩

end Notice

/-- A part of the run: its result, the heap it leaves, and what was logged. -/
structure Stage (α : Type) where
  result : Except Fault α
  heap : Heap
  log : List Log.Record

namespace Stage

def ofOutcome {α : Type} (o : Outcome α) : Stage α := ⟨o.result, o.heap, o.log.map Event.record⟩

/-- Goes on with a result, unless there is none. -/
def andThen {α β : Type} (stage : Stage α) (next : α → Heap → Stage β) : Stage β :=
  match stage.result with
  | .ok a =>
    let later := next a stage.heap
    { later with log := stage.log ++ later.log }
  | .error fault => ⟨.error fault, stage.heap, stage.log⟩

end Stage

/-- What the memory grants in the course of a run, operation by operation: while the line is read,
when the value is made, and when the line is appended to it. -/
structure Allowances where
  line : Allowance
  creation : Allowance
  append : Allowance

namespace Allowances

/-- The same for every operation. -/
def steady (allowance : Allowance) : Allowances := ⟨allowance, allowance, allowance⟩

/-- Everything below the ceiling is granted. -/
def ample : Allowances := steady .ample

end Allowances

namespace Program

/-- The settings of the run: those of the file, if one is named, with the growth policy of the
command line above it. -/
def settings (options : Options) (read : String → Except TransferFault (List UInt8)) :
    Settings.Loading :=
  let loaded : Settings.Loading :=
    match options.settingsFile with
    | some file => Settings.loadFile file (read file)
    | none => ⟨.ok Settings.standard, []⟩
  let adapt (s : Settings) : Settings :=
    if options.amortized then { s with growth := .amortized } else s
  ⟨loaded.result.map adapt, loaded.log⟩

/-- A text that holds the next line of the input. -/
def lineValue (s : Heap) (allowances : Allowances) (input : List Arrival) : Stage Handle :=
  let line := s.readLine allowances.line input
  let reading : Stage (List Char) := ⟨line.result, line.heap, line.log.map Event.record⟩
  reading.andThen fun text s =>
    (Stage.ofOutcome (s.createText allowances.creation)).andThen fun h s =>
      (Stage.ofOutcome (s.append allowances.append h text)).andThen fun _ s => ⟨.ok h, s, []⟩

/-- The value to show. -/
def value (s : Heap) (allowances : Allowances) (options : Options) (input : List Arrival) :
    Stage Handle :=
  match options.integer with
  | some n => Stage.ofOutcome (s.createInteger allowances.creation n)
  | none => lineValue s allowances input

/-- Attaches further owners. -/
def share (s : Heap) (h : Handle) : Nat → Stage Unit
  | 0 => ⟨.ok (), s, []⟩
  | more + 1 =>
    (Stage.ofOutcome (s.retain h)).andThen fun refcount s =>
      let later := share s h more
      { later with log := (Notice.retained h refcount).record :: later.log }

/-- Takes owners away until the value is destroyed. -/
def releaseAll (s : Heap) (h : Handle) : Stage Unit :=
  let released := s.release h
  let log := released.log.map Event.record
  match _hr : released.result with
  | .error fault => ⟨.error fault, released.heap, log⟩
  | .ok (.destroyed kind) => ⟨.ok (), released.heap, log ++ [(Notice.destroyed kind h).record]⟩
  | .ok (.retained refcount) =>
    let later := releaseAll released.heap h
    { later with log := log ++ (Notice.released h refcount).record :: later.log }
termination_by s.owners h
decreasing_by exact Heap.owners_release_lt _hr

/-- Takes all owners away and then reports what showing the value came to. -/
def conclude (s : Heap) (h : Handle) (shown : Except Fault Unit) : Stage Unit :=
  (releaseAll s h).andThen fun _ s => ⟨shown, s, []⟩

/-- Shows a value and takes all its owners away. -/
def showAndRelease (s : Heap) (h : Handle) (template : List Char)
    (write : List UInt8 → Delivery) : Stage Unit × List UInt8 :=
  let showing := s.showBy h template write
  (conclude s h showing.result, showing.written)

/-- Counts up what happened. -/
def summary (s : Heap) : Stage Unit := ⟨.ok (), s, [(Notice.summary s.counters).record]⟩

/-- Ends the run, with a summary unless showing the value failed. -/
def complete (shown : Stage Unit) : Stage Unit := shown.andThen fun _ s => summary s

/-- Makes the value and shares it. -/
def begin (allowances : Allowances) (options : Options)
    (read : String → Except TransferFault (List UInt8)) (input : List Arrival) : Stage Handle :=
  let loading := settings options read
  let loaded : Stage Settings :=
    ⟨loading.result, .ofSettings .standard, loading.log.map Event.record⟩
  loaded.andThen fun settings _ =>
    (value (.ofSettings settings) allowances options input).andThen fun h s =>
      (share s h options.share).andThen fun _ s => ⟨.ok h, s, []⟩

/-- The whole run, and the octets that reached the device. -/
def execute (allowances : Allowances) (options : Options)
    (read : String → Except TransferFault (List UInt8)) (input : List Arrival) (device : Sink) :
    Stage Unit × List UInt8 :=
  let begun := begin allowances options read input
  match begun.result with
  | .error fault => (⟨.error fault, begun.heap, begun.log⟩, [])
  | .ok h =>
    let (shown, written) := showAndRelease begun.heap h options.template (Output.print device)
    (begun.andThen fun _ _ => complete shown, written)

end Program

/-- What a run of the program leaves behind: its exit code, the octets on standard output, and the
text on standard error. -/
structure Execution where
  exit : Nat
  output : List UInt8
  errors : List Char
deriving DecidableEq, Repr

namespace Execution

def versionText : String := "rcvalue-cli 0.1.0\n"

def helpText : String :=
  "Read a line into a reference-counted text value and display it\n\n" ++
  "Usage: rcvalue-cli [OPTIONS]\n\n" ++
  "Options:\n" ++
  "  -t, --template <TEMPLATE>  Template used to display the value, \x7b\x7d is replaced by its content\n" ++
  "  -i, --integer <INTEGER>    Display this integer instead of reading a line from stdin\n" ++
  "  -c, --config <CONFIG>      Path to a TOML heap configuration\n" ++
  "      --amortized            Grow text buffers geometrically instead of exactly\n" ++
  "      --share <SHARE>        Number of extra owners to attach to the value before releasing it [default: 0]\n" ++
  "  -h, --help                 Print help\n" ++
  "  -V, --version              Print version\n"

def misuseText : String := "error: invalid arguments\n\nUsage: rcvalue-cli [OPTIONS]\n"

/-- Prints a text and ends well, whatever becomes of it. -/
def ofText (text : String) (device : Sink) : Execution :=
  ⟨0, (Output.print device (Text.octets text.toList)).written, []⟩

/-- How a failure is put. -/
def complaint (fault : Fault) : String := "error: " ++ fault.message ++ "\n"

/-- What a finished run leaves: the shown part of its log, and behind it the failure. -/
def ofStage (filter : Filter) (stage : Stage Unit) (written : List UInt8) : Execution :=
  match stage.result with
  | .ok () => ⟨0, written, filter.shown stage.log⟩
  | .error fault => ⟨1, written, filter.shown stage.log ++ (complaint fault).toList⟩

/-- What was said before the run started stands before all else on standard error. -/
def after (execution : Execution) (said : List Char) : Execution :=
  { execution with errors := said ++ execution.errors }

/-- What an invocation comes to. -/
def ofInvocation (invocation : Invocation) (filter : Filter) (allowances : Allowances)
    (read : String → Except TransferFault (List UInt8)) (input : List Arrival) (device : Sink) :
    Execution :=
  match invocation with
  | .misuse => ⟨2, [], misuseText.toList⟩
  | .version => ofText versionText device
  | .help => ofText helpText device
  | .run options =>
    let (stage, written) := Program.execute allowances options read input device
    ofStage filter stage written

/-- The program from its command line, and the specification of what it logs, to its exit. -/
def ofArguments (arguments : List String) (specification : String) (allowances : Allowances)
    (read : String → Except TransferFault (List UInt8)) (input : List Arrival) (device : Sink) :
    Execution :=
  (ofInvocation (.ofArguments (arguments.map String.toList)) (.ofSpecification specification)
    allowances read input device).after (Filter.warnings specification)

end Execution

end CountedHeap.Command
