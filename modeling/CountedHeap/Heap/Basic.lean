import CountedHeap.Allowance
import CountedHeap.Event
import CountedHeap.Fault

/-!
The heap: a table of slots, each with a generation and, when occupied, a value and the number of
its owners. Vacant slots that may be used again stand on a free list, last vacated first. A handle
is live when the slot it names is occupied and of the handle's generation. -/
namespace CountedHeap

/-- A value with the number of its owners. -/
structure Entry where
  refcount : Nat
  value : Value
deriving DecidableEq, Repr

structure Slot where
  generation : Nat
  entry : Option Entry
deriving DecidableEq, Repr

/-- How many values were ever created and destroyed, and how many are alive. -/
structure Counters where
  created : Nat
  destroyed : Nat
  live : Nat
deriving DecidableEq, Repr

structure Heap where
  slots : List Slot
  free : List Nat
  room : Nat
  settings : Settings
  counters : Counters
deriving DecidableEq, Repr

/-- An operation's result, the heap it leaves, and what it logs. -/
structure Outcome (α : Type) where
  result : Except Fault α
  heap : Heap
  log : List Event

namespace Heap

/-- No value has more owners than this. -/
def maxRefcount : Nat := 0xFFFF_FFFF_FFFF_FFFF

/-- A slot whose value of this generation is destroyed is not used again. -/
def lastGeneration : Nat := 0xFFFF_FFFF

/-- Slots are numbered below this bound. -/
def maxSlots : Nat := 0x1_0000_0000

/-- A heap without values. -/
def ofSettings (settings : Settings) : Heap := ⟨[], [], 0, settings, ⟨0, 0, 0⟩⟩

/-- The entry that a handle names, if the handle is live. -/
def find? (s : Heap) (h : Handle) : Option Entry :=
  match s.slots[h.index]? with
  | some slot => if slot.generation = h.generation then slot.entry else none
  | none => none

/-- The entry that a handle names; any other handle is stale. -/
def entry (s : Heap) (h : Handle) : Except Fault Entry :=
  match s.find? h with
  | some e => .ok e
  | none => .error (.staleHandle h)

def isLive (s : Heap) (h : Handle) : Bool := (s.find? h).isSome

def refcount (s : Heap) (h : Handle) : Except Fault Nat := (s.entry h).map (·.refcount)

def kind (s : Heap) (h : Handle) : Except Fault Kind := (s.entry h).map (·.value.kind)

/-- What can be read of a live value. -/
def read (s : Heap) (h : Handle) : Except Fault View := (s.entry h).map (·.value.view)

/-- The buffer of a live text. -/
def buffer (s : Heap) (h : Handle) : Except Fault Text.Buffer :=
  match s.find? h with
  | none => .error (.staleHandle h)
  | some ⟨_, .text b⟩ => .ok b
  | some ⟨_, .integer _⟩ => .error (.kindMismatch h .text .integer)

/-- The generation of a slot; slots that are not there yet start at zero. -/
def generation (s : Heap) (index : Nat) : Nat :=
  match s.slots[index]? with
  | some slot => slot.generation
  | none => 0

/-- Changes the entry in the slot that a handle names. -/
def put (s : Heap) (h : Handle) (e : Entry) : Heap :=
  { s with slots := s.slots.modify h.index fun slot => { slot with entry := some e } }

/-- The operation fails and changes nothing. -/
def refuse {α : Type} (s : Heap) (fault : Fault) : Outcome α := ⟨.error fault, s, []⟩

end Heap

end CountedHeap
