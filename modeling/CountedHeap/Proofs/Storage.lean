import CountedHeap.Proofs.Utf8
import CountedHeap.Text.Buffer

/-! The storage of a text as it is worked on: characters with the terminator behind them, and the
octets that are reserved for them. Each step checks what it takes for granted: that there is a
terminator to leave out or to take off, that a text is cut where a character ends, and that nothing
is written without room for it. On the storage of a buffer no check fails. -/
namespace CountedHeap.Text

/-- What a step on a storage took for granted, and was not so. -/
inductive Storage.Breach where
  | noTerminator
  | insideCharacter
  | noRoom
deriving DecidableEq, Repr

structure Storage where
  text : List Char
  reserved : Nat
deriving DecidableEq, Repr

namespace Storage

/-- The size of all but the terminator. -/
def length (m : Storage) : Except Breach Nat :=
  if size m.text < terminator.utf8Size then .error .noTerminator
  else .ok (size m.text - terminator.utf8Size)

/-- The first octets of a text, which have to end where a character ends. -/
def cut (octets : Nat) : List Char → Except Breach (List Char)
  | [] => if octets = 0 then .ok [] else .error .insideCharacter
  | c :: rest =>
    if octets = 0 then .ok []
    else if c.utf8Size ≤ octets then (cut (octets - c.utf8Size) rest).map (c :: ·)
    else .error .insideCharacter

/-- All but the terminator. -/
def content (m : Storage) : Except Breach (List Char) := do
  let octets ← m.length
  cut octets m.text

/-- Reserves room for more octets. Memory is asked for only when the spare room is too small. -/
def reserve? (grant : Nat → Bool) (growth : Growth) (m : Storage) (more : Nat) : Option Storage :=
  let needed := size m.text + more
  if needed ≤ m.reserved then some m
  else
    let request := growth.request m.reserved needed
    if grant request then some { m with reserved := request } else none

/-- Takes off the last character, which has to be the terminator. -/
def pop (m : Storage) : Except Breach Storage :=
  if m.text.getLast? = some terminator then .ok { m with text := m.text.dropLast }
  else .error .noTerminator

/-- Writes behind the last character, where room has to be reserved. -/
def push (m : Storage) (addition : List Char) : Except Breach Storage :=
  if size m.text + size addition ≤ m.reserved then .ok { m with text := m.text ++ addition }
  else .error .noRoom

/-- Writes between the content and the terminator, which has to be there again in the end. -/
def extend (m : Storage) (addition : List Char) : Except Breach Storage := do
  let opened ← m.pop
  let written ← opened.push addition
  let closed ← written.push [terminator]
  let length ← closed.length
  if closed.text.getLast? ≠ some terminator then .error .noTerminator
  else if closed.reserved ≤ length then .error .noRoom
  else return closed

/-- Appends a text up to its first terminator, unless the room for it is refused. -/
def append (grant : Nat → Bool) (growth : Growth) (m : Storage) (text : List Char) :
    Except Breach (Option Storage) :=
  let addition := Buffer.beforeTerminator text
  if addition.isEmpty then .ok (some m)
  else
    match m.reserve? grant growth (size addition) with
    | none => .ok none
    | some reserved => (reserved.extend addition).map some

theorem cut_append (text rest : List Char) : cut (size text) (text ++ rest) = .ok text := by
  induction text with
  | nil => cases rest <;> rfl
  | cons c text ih =>
    have hpos := Char.utf8Size_pos c
    rw [List.cons_append, cut, size_cons, if_neg (by omega), if_pos (Nat.le_add_right _ _),
      Nat.add_sub_cancel_left, ih]
    rfl

end Storage

namespace Buffer

/-- A buffer as it stands in memory. -/
def inMemory (b : Buffer) : Storage := ⟨b.storage, b.capacity⟩

@[simp] theorem size_storage (b : Buffer) : Text.size b.storage = b.used := by
  simp [storage, used]

theorem length_inMemory (b : Buffer) : b.inMemory.length = .ok b.size := by
  rw [Storage.length, inMemory, size_storage, used, if_neg (by omega), Nat.add_sub_cancel]

theorem content_inMemory (b : Buffer) : b.inMemory.content = .ok b.content := by
  rw [Storage.content, length_inMemory]
  change Storage.cut b.size (b.content ++ [terminator]) = _
  rw [← size_content, Storage.cut_append]

theorem extend_inMemory (b : Buffer) {addition : List Char} {capacity : Nat}
    (hroom : b.used + Text.size addition ≤ capacity) :
    Storage.extend ⟨b.storage, capacity⟩ addition = .ok (b.extend addition capacity).inMemory := by
  have hused : b.used = b.size + 1 := rfl
  have hpop : Storage.pop ⟨b.storage, capacity⟩ = .ok ⟨b.content, capacity⟩ := by
    simp [Storage.pop, storage]
  have hwrite : Storage.push ⟨b.content, capacity⟩ addition =
      .ok ⟨b.content ++ addition, capacity⟩ := by
    apply if_pos
    change Text.size b.content + _ ≤ capacity
    rw [size_content]
    omega
  have hclose : Storage.push ⟨b.content ++ addition, capacity⟩ [terminator] =
      .ok (b.extend addition capacity).inMemory := by
    rw [Storage.push, inMemory, storage, content_extend]
    apply if_pos
    change Text.size (b.content ++ addition) + 1 ≤ capacity
    rw [size_append, size_content]
    omega
  have hlength := (b.extend addition capacity).length_inMemory
  rw [Storage.extend, hpop]
  change (Storage.push ⟨b.content, capacity⟩ addition >>= _) = _
  rw [hwrite]
  change (Storage.push ⟨b.content ++ addition, capacity⟩ [terminator] >>= _) = _
  rw [hclose]
  change ((b.extend addition capacity).inMemory.length >>= _) = _
  rw [hlength]
  change (if _ then _ else _) = _
  rw [if_neg (by simp [inMemory, storage]), if_neg]
  · rfl
  · change ¬capacity ≤ b.size + Text.size addition
    omega

theorem reserve?_inMemory (b : Buffer) (grant : Nat → Bool) (more : Nat) :
    b.inMemory.reserve? grant b.growth more =
      if b.used + more ≤ b.capacity then some b.inMemory
      else if grant (b.growth.request b.capacity (b.used + more)) then
        some ⟨b.storage, b.growth.request b.capacity (b.used + more)⟩
      else none := by
  rw [← size_storage]
  rfl

/-- An append is what the steps on the storage come to, none of which fails its check. -/
theorem append_inMemory (b : Buffer) (grant : Nat → Bool) (text : List Char) :
    b.inMemory.append grant b.growth text = .ok ((b.append? grant text).map inMemory) := by
  unfold Storage.append append?
  by_cases hempty : (beforeTerminator text).isEmpty = true
  · simp only [if_pos hempty]
    rfl
  · simp only [if_neg hempty, reserve?_inMemory]
    by_cases hfits : b.used + Text.size (beforeTerminator text) ≤ b.capacity
    · simp only [if_pos hfits]
      rw [inMemory, b.extend_inMemory hfits]
      rfl
    · have hneeded := b.growth.needed_le_request b.capacity
        (b.used + Text.size (beforeTerminator text))
      simp only [if_neg hfits]
      cases grant (b.growth.request b.capacity (b.used + Text.size (beforeTerminator text))) with
      | false => rfl
      | true =>
        simp only [if_true, b.extend_inMemory hneeded]
        rfl

end Buffer

end CountedHeap.Text
