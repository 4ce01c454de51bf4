import CountedHeap.Heap.Basic

/-!
Creating values. A new value has one owner. It takes the slot that was vacated last, or else a new
slot at the end of the table, for which the table may have to grow: to four slots, then eight, and
so on. Text asks for its storage first, then come the limit on live values and the slot. -/
namespace CountedHeap.Heap

def atLiveLimit (s : Heap) : Bool :=
  match s.settings.liveLimit with
  | some limit => limit ≤ s.counters.live
  | none => false

/-- The counters after one more creation. -/
def countCreated (c : Counters) : Counters := { c with created := c.created + 1, live := c.live + 1 }

/-- Puts a new value into a vacant slot that is there already. -/
def occupy (s : Heap) (index : Nat) (free : List Nat) (value : Value) : Heap :=
  { s with
    slots := s.slots.modify index fun slot => { slot with entry := some ⟨1, value⟩ }
    free := free
    counters := countCreated s.counters }

/-- The room of the table once it has a slot more. -/
def grownRoom (s : Heap) : Nat :=
  if s.slots.length < s.room then s.room else max 4 (2 * s.room)

/-- Puts a new value into a new slot. -/
def extend (s : Heap) (value : Value) : Heap :=
  { s with
    slots := s.slots ++ [⟨0, some ⟨1, value⟩⟩]
    room := s.grownRoom
    counters := countCreated s.counters }

/-- The handle that the next creation issues. -/
def nextHandle (s : Heap) : Handle :=
  match s.free with
  | index :: _ => ⟨index, s.generation index⟩
  | [] => ⟨s.slots.length, 0⟩

/-- Finds a slot for a new value. -/
def insert (s : Heap) (allowance : Allowance) (value : Value) : Outcome Handle :=
  let issue (grown : Heap) : Outcome Handle :=
    ⟨.ok s.nextHandle, grown, [.created value.kind s.nextHandle]⟩
  if s.atLiveLimit then s.refuse (.allocation .liveLimit)
  else
    match s.free with
    | index :: free => issue (s.occupy index free value)
    | [] =>
      if maxSlots ≤ s.slots.length then s.refuse (.allocation .slotNumbers)
      else if s.slots.length < s.room || allowance.table then issue (s.extend value)
      else s.refuse (.allocation .slotTable)

def createInteger (s : Heap) (allowance : Allowance) (n : Int) : Outcome Handle :=
  s.insert allowance (.integer n)

/-- Creates an empty text, as the settings wish it. -/
def createText (s : Heap) (allowance : Allowance) : Outcome Handle :=
  match Text.Buffer.ofCapacity? allowance.storage s.settings.growth s.settings.initialCapacity with
  | some buffer => s.insert allowance (.text buffer)
  | none => s.refuse (.allocation .newBuffer)

end CountedHeap.Heap
