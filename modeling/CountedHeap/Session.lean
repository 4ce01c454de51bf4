import CountedHeap.Heap.Line

/-!
Runs of heap operations. A session is a heap and the input that lines are read from; each step
performs one operation under its own allowance and reports what it answered, logged and wrote. -/
namespace CountedHeap

inductive Operation where
  | createInteger (n : Int)
  | createText
  | retain (h : Handle)
  | release (h : Handle)
  | refcount (h : Handle)
  | kind (h : Handle)
  | isLive (h : Handle)
  | read (h : Handle)
  | buffer (h : Handle)
  | append (h : Handle) (text : List Char)
  | appendFrom (h source : Handle)
  | replaceBuffer (h : Handle) (growth : Text.Growth) (capacity : Nat)
  | overwrite (h : Handle) (buffer : Text.Buffer)
  | display (h : Handle) (template : List Char)
  | showTo (h : Handle) (template : List Char) (sink : Sink)
  | supply (input : List Arrival)
  | readLine
  | settings
  | counters
  | compare (a b : Handle)
  | compareViews (a b : Handle)
deriving DecidableEq, Repr

inductive Answer where
  | handle (h : Handle)
  | count (n : Nat)
  | released (r : Released)
  | kind (k : Kind)
  | flag (b : Bool)
  | view (v : View)
  | buffer (b : Text.Buffer)
  | done
  | replaced (old new : Text.Buffer)
  | notReplaced
  | text (content : List Char)
  | settings (s : Settings)
  | counters (c : Counters)
  | order (o : Ordering)
deriving DecidableEq, Repr

structure Session where
  heap : Heap
  input : List Arrival
deriving DecidableEq, Repr

/-- What one step answers, logs and writes, and the session it leaves. -/
structure Report where
  result : Except Fault Answer
  log : List Event
  written : List UInt8
  session : Session

namespace Session

def ofSettings (settings : Settings) : Session := ⟨Heap.ofSettings settings, []⟩

/-- The step reads the heap only. -/
def observe (s : Session) (result : Except Fault Answer) : Report := ⟨result, [], [], s⟩

/-- The step changes the heap only. -/
def change {α : Type} (s : Session) (outcome : Outcome α) (answer : α → Answer) : Report :=
  ⟨outcome.result.map answer, outcome.log, [], { s with heap := outcome.heap }⟩

/-- Gives a live text a new buffer, unless the storage for it cannot be had. -/
def replace (s : Session) (allowance : Allowance) (h : Handle) (growth : Text.Growth)
    (capacity : Nat) : Report :=
  match s.heap.buffer h with
  | .error fault => s.observe (.error fault)
  | .ok _ =>
    match Text.Buffer.ofCapacity? allowance.storage growth capacity with
    | some new => s.change (s.heap.replaceBuffer h new) fun old => .replaced old new
    | none => s.observe (.ok .notReplaced)

/-- Performs one operation. -/
def step (s : Session) (allowance : Allowance) : Operation → Report
  | .createInteger n => s.change (s.heap.createInteger allowance n) .handle
  | .createText => s.change (s.heap.createText allowance) .handle
  | .retain h => s.change (s.heap.retain h) .count
  | .release h => s.change (s.heap.release h) .released
  | .refcount h => s.observe ((s.heap.refcount h).map .count)
  | .kind h => s.observe ((s.heap.kind h).map .kind)
  | .isLive h => s.observe (.ok (.flag (s.heap.isLive h)))
  | .read h => s.observe ((s.heap.read h).map .view)
  | .buffer h => s.observe ((s.heap.buffer h).map .buffer)
  | .append h text => s.change (s.heap.append allowance h text) fun _ => .done
  | .appendFrom h source => s.change (s.heap.appendFrom allowance h source) fun _ => .done
  | .replaceBuffer h growth capacity => s.replace allowance h growth capacity
  | .overwrite h buffer => s.change (s.heap.replaceBuffer h buffer) .buffer
  | .display h template => s.observe ((s.heap.display h template).map .text)
  | .showTo h template sink =>
    let showing := s.heap.showTo h template sink
    ⟨showing.result.map fun _ => .done, [], showing.written, s⟩
  | .supply input => ⟨.ok .done, [], [], { s with input := input }⟩
  | .readLine =>
    let line := s.heap.readLine allowance s.input
    ⟨line.result.map .text, line.log, [], ⟨line.heap, line.rest⟩⟩
  | .settings => s.observe (.ok (.settings s.heap.settings))
  | .counters => s.observe (.ok (.counters s.heap.counters))
  | .compare a b => s.observe (.ok (.order (a.order b)))
  | .compareViews a b =>
    s.observe ((s.heap.read a).bind fun left => (s.heap.read b).map fun right =>
      .flag (left == right))

/-- Performs operations in turn; the reports stand in the same order. -/
def run (s : Session) : List (Allowance × Operation) → List Report
  | [] => []
  | (allowance, operation) :: rest =>
    let report := s.step allowance operation
    report :: run report.session rest

end Session

end CountedHeap
