import CountedHeap.Fault

/-!
Where rendered text goes. A sink answers each write in turn: it takes some of the octets, is
interrupted, or fails; past its script it takes everything, or keeps failing when it is closed.
Delivering octets repeats the write until none are left. -/
namespace CountedHeap

namespace Sink

/-- The answer to one write. -/
inductive Reply where
  | accept (count : Nat)
  | interrupt
  | fail (cause : TransferFault)
deriving DecidableEq, Repr

end Sink

structure Sink where
  script : List Sink.Reply
  closed : Option TransferFault
deriving DecidableEq, Repr, Inhabited

/-- What became of octets that were to be delivered. -/
structure Delivery where
  written : List UInt8
  failure : Option TransferFault
  sink : Sink
deriving DecidableEq, Repr

namespace Sink

/-- Takes everything. -/
def accepting : Sink := ⟨[], none⟩

/-- Fails at every write. -/
def rejecting (cause : TransferFault) : Sink := ⟨[], some cause⟩

/-- Writes until no octet is left. An interrupted write is made again; one that takes nothing is
a failure; with nothing to write, no write is made. -/
def deliver (closed : Option TransferFault) : List Reply → List UInt8 → Delivery
  | script, [] => ⟨[], none, ⟨script, closed⟩⟩
  | [], octets =>
    match closed with
    | none => ⟨octets, none, ⟨[], closed⟩⟩
    | some cause => ⟨[], some cause, ⟨[], closed⟩⟩
  | .interrupt :: script, octets => deliver closed script octets
  | .fail cause :: script, _ => ⟨[], some cause, ⟨script, closed⟩⟩
  | .accept count :: script, octets =>
    if count = 0 then ⟨[], some .nothingWritten, ⟨script, closed⟩⟩
    else
      let later := deliver closed script (octets.drop count)
      { later with written := octets.take count ++ later.written }

/-- Delivers octets to a sink. -/
def writeAll (sink : Sink) (octets : List UInt8) : Delivery :=
  deliver sink.closed sink.script octets

@[simp] theorem writeAll_nil (sink : Sink) : sink.writeAll [] = ⟨[], none, sink⟩ := by
  rw [writeAll, deliver]

@[simp] theorem writeAll_accepting (octets : List UInt8) :
    accepting.writeAll octets = ⟨octets, none, accepting⟩ := by
  cases octets <;> rfl

theorem writeAll_rejecting (cause : TransferFault) (b : UInt8) (octets : List UInt8) :
    (rejecting cause).writeAll (b :: octets) = ⟨[], some cause, rejecting cause⟩ := rfl

end Sink

end CountedHeap
