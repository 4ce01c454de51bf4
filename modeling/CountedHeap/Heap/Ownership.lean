import CountedHeap.Heap.Basic

/-!
Sharing values. Retaining adds an owner and releasing takes one away; with its last owner a value
is destroyed at once. Its slot then moves to the next generation and becomes free, or is retired
when there is no next generation, so that no handle is ever issued twice. -/
namespace CountedHeap

/-- What a release came to. -/
inductive Released where
  | retained (refcount : Nat)
  | destroyed (kind : Kind)
deriving DecidableEq, Repr

namespace Heap

/-- Adds an owner; the result is the new number of owners. -/
def retain (s : Heap) (h : Handle) : Outcome Nat :=
  match s.find? h with
  | none => ⟨.error (.staleHandle h), s, [.staleRetain h]⟩
  | some e =>
    if e.refcount < maxRefcount then
      let refcount := e.refcount + 1
      ⟨.ok refcount, s.put h { e with refcount := refcount }, [.retained h refcount]⟩
    else s.refuse (.refcountOverflow h)

def exhausted (h : Handle) : Bool := lastGeneration ≤ h.generation

/-- The slot of a handle after its value is gone. -/
def vacant (h : Handle) : Slot :=
  ⟨if exhausted h then h.generation else h.generation + 1, none⟩

/-- Takes the value of a live handle out of its slot. -/
def vacate (s : Heap) (h : Handle) : Heap :=
  { s with
    slots := s.slots.modify h.index fun _ => vacant h
    free := if exhausted h then s.free else h.index :: s.free
    counters :=
      { s.counters with destroyed := s.counters.destroyed + 1, live := s.counters.live - 1 } }

/-- What the end of a value logs. -/
def farewell (h : Handle) (value : Value) : List Event :=
  if exhausted h then [.retired h.index, .destroyed h value] else [.destroyed h value]

/-- Takes an owner away. -/
def release (s : Heap) (h : Handle) : Outcome Released :=
  match s.find? h with
  | none => ⟨.error (.staleHandle h), s, [.staleRelease h]⟩
  | some e =>
    if 1 < e.refcount then
      let refcount := e.refcount - 1
      ⟨.ok (.retained refcount), s.put h { e with refcount := refcount }, [.released h refcount]⟩
    else ⟨.ok (.destroyed e.value.kind), s.vacate h, farewell h e.value⟩

end Heap

end CountedHeap
