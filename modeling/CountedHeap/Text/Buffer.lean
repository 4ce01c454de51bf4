import CountedHeap.Text.Growth
import CountedHeap.Text.Octets

/-!
Growable text behind a terminator. The storage holds the content followed by one U+0000; an
append takes what stands before the first U+0000 of its argument, asks for storage only when the
spare room is too small, and leaves the buffer as it was when the request is refused.

Text grows at its end, so the content is kept backward, beside its size: an append costs as much as
the text that it adds. -/
namespace CountedHeap.Text

/-- The character that ends the storage of every buffer. -/
def terminator : Char := '\x00'

structure Buffer where
  backward : List Char
  size : Nat
  capacity : Nat
  growth : Growth
  size_eq : size = Text.size backward := by rfl
deriving DecidableEq, Repr

namespace Buffer

/-- An empty buffer with room for the terminator at least. -/
def empty (growth : Growth) (capacity : Nat) : Buffer :=
  { backward := [], size := 0, capacity := max capacity 1, growth := growth }

/-- The buffer that is made without any wish. -/
def fresh : Buffer := empty .exactFit 1

instance : Inhabited Buffer := ⟨fresh⟩

/-- An empty buffer, if its storage is granted. -/
def ofCapacity? (grant : Nat → Bool) (growth : Growth) (capacity : Nat) : Option Buffer :=
  if grant (max capacity 1) then some (empty growth capacity) else none

def content (b : Buffer) : List Char := b.backward.reverse

/-- The content and its terminator. -/
def storage (b : Buffer) : List Char := b.content ++ [terminator]

/-- The content and its terminator, encoded. -/
def octets (b : Buffer) : List UInt8 := Text.octets b.storage

/-- The size of the storage that is in use. -/
def used (b : Buffer) : Nat := b.size + terminator.utf8Size

/-- A copy has no more storage than it needs. -/
def copy (b : Buffer) : Buffer := { b with capacity := b.used }

/-- The part of a text that an append takes. -/
def beforeTerminator (text : List Char) : List Char := text.takeWhile (· ≠ terminator)

/-- Puts text between the content and the terminator. -/
def extend (b : Buffer) (addition : List Char) (capacity : Nat) : Buffer :=
  { backward := addition.reverse ++ b.backward
    size := b.size + Text.size addition
    capacity := capacity
    growth := b.growth
    size_eq := by simp [b.size_eq, Nat.add_comm] }

/-- Appends a text up to its first terminator, if the storage that this needs is granted. -/
def append? (grant : Nat → Bool) (b : Buffer) (text : List Char) : Option Buffer :=
  let addition := beforeTerminator text
  let needed := b.used + Text.size addition
  if addition.isEmpty then some b
  else if needed ≤ b.capacity then some (b.extend addition b.capacity)
  else
    let request := b.growth.request b.capacity needed
    if grant request then some (b.extend addition request) else none

@[simp] theorem content_extend (b : Buffer) (addition : List Char) (capacity : Nat) :
    (b.extend addition capacity).content = b.content ++ addition := by
  simp [content, extend]

@[simp] theorem size_content (b : Buffer) : Text.size b.content = b.size := by
  simp [content, b.size_eq]

theorem ofCapacity?_eq_some {grant : Nat → Bool} {growth : Growth} {capacity : Nat} {b : Buffer}
    (h : ofCapacity? grant growth capacity = some b) : b = empty growth capacity := by
  unfold ofCapacity? at h
  split at h
  · exact (Option.some.inj h).symm
  · cases h

/-- An append that is not refused extends the content, and never takes room away. -/
theorem append?_eq_some {grant : Nat → Bool} {b new : Buffer} {text : List Char}
    (h : b.append? grant text = some new) :
    ∃ capacity, new = b.extend (beforeTerminator text) capacity ∧ b.capacity ≤ capacity ∧
      (b.used ≤ b.capacity → b.used + Text.size (beforeTerminator text) ≤ capacity) := by
  unfold append? at h
  dsimp only at h
  split at h
  · next hempty =>
    obtain rfl := Option.some.inj h
    rw [List.isEmpty_iff.mp hempty]
    exact ⟨b.capacity, rfl, Nat.le_refl _, id⟩
  · split at h
    · next hfits =>
      obtain rfl := Option.some.inj h
      exact ⟨b.capacity, rfl, Nat.le_refl _, fun _ => hfits⟩
    · next hfits =>
      split at h
      · obtain rfl := Option.some.inj h
        have hneeded := b.growth.needed_le_request b.capacity
          (b.used + Text.size (beforeTerminator text))
        exact ⟨_, rfl, by omega, fun _ => hneeded⟩
      · cases h

/-- The content, the capacity and the growth are all there is to a buffer. -/
theorem eq_of_content {a b : Buffer} (hcontent : a.content = b.content)
    (hcapacity : a.capacity = b.capacity) (hgrowth : a.growth = b.growth) : a = b := by
  have hbackward : a.backward = b.backward := List.reverse_inj.mp hcontent
  have hsize : a.size = b.size := by rw [a.size_eq, b.size_eq, hbackward]
  cases a
  cases b
  simp_all

end Buffer

end CountedHeap.Text
