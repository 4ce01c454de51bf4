import CountedHeap.Heap.Lemmas
import CountedHeap.Heap.Create

/-! The life of a handle. Before its value is created a handle is unborn, then it is live, and once
the value is gone it is spent for good. A sound heap keeps its free list and its table in step, so
that the phases of all handles are told by the table and the free list alone. -/
namespace CountedHeap

inductive Phase where
  | unborn
  | live (entry : Entry)
  | spent
deriving DecidableEq, Repr

/-- Where the handle of a given generation stands, if its slot is this one. A vacant slot on the
free list still has its present generation to give away. -/
def Slot.phase (slot : Slot) (free : Bool) (generation : Nat) : Phase :=
  if generation < slot.generation then .spent
  else if slot.generation < generation then .unborn
  else
    match slot.entry with
    | some e => .live e
    | none => if free then .unborn else .spent

namespace Slot

/-- The three kinds of slots: an occupied slot is off the free list and its value has an owner; a
vacant one is on the free list and was in use before, or has come to its last generation. -/
inductive Fits : Slot → (free : Prop) → Prop
  | occupied {g : Nat} {e : Entry} {free : Prop} (hle : g ≤ Heap.lastGeneration)
      (howned : 1 ≤ e.refcount) (hfree : ¬free) : Fits ⟨g, some e⟩ free
  | free {g : Nat} {free : Prop} (hle : g + 1 ≤ Heap.lastGeneration) (hfree : free) :
      Fits ⟨g + 1, none⟩ free
  | retired {free : Prop} (hfree : ¬free) : Fits ⟨Heap.lastGeneration, none⟩ free

theorem Fits.of_occupied {g : Nat} {e : Entry} {free : Prop} (hfits : Fits ⟨g, some e⟩ free) :
    g ≤ Heap.lastGeneration ∧ 1 ≤ e.refcount ∧ ¬free := by
  cases hfits with
  | occupied hle howned hfree => exact ⟨hle, howned, hfree⟩

theorem Fits.generation_le {slot : Slot} {free : Prop} (hfits : slot.Fits free) :
    slot.generation ≤ Heap.lastGeneration := by
  cases hfits with
  | occupied hle => exact hle
  | free hle => exact hle
  | retired => exact Nat.le_refl _

/-- Handles of other generations are told apart by the generation alone. -/
theorem phase_of_ne {slot : Slot} {generation : Nat} (free : Bool)
    (hne : generation ≠ slot.generation) :
    slot.phase free generation = if generation < slot.generation then .spent else .unborn := by
  unfold phase
  split
  · rfl
  · rw [if_pos (by omega)]

theorem phase_self (slot : Slot) (free : Bool) :
    slot.phase free slot.generation =
      match slot.entry with
      | some e => .live e
      | none => if free then .unborn else .spent := by
  simp [phase]

end Slot

namespace Heap

def phase (s : Heap) (h : Handle) : Phase :=
  match s.slots[h.index]? with
  | some slot => slot.phase (s.free.contains h.index) h.generation
  | none => .unborn

theorem phase_eq {s : Heap} {h : Handle} {slot : Slot} (hslot : s.slots[h.index]? = some slot) :
    s.phase h = slot.phase (s.free.contains h.index) h.generation := by
  rw [phase, hslot]

theorem phase_of_no_slot {s : Heap} {h : Handle} (hslot : s.slots[h.index]? = none) :
    s.phase h = .unborn := by
  rw [phase, hslot]

/-- What every run keeps: the free list names slots of the table, each once, and every slot stands
to the free list as it should. -/
structure Sound (s : Heap) : Prop where
  nodup_free : s.free.Nodup
  lt_of_free : ∀ i ∈ s.free, i < s.slots.length
  fits : ∀ (i : Nat) (slot : Slot), s.slots[i]? = some slot → slot.Fits (i ∈ s.free)
  length_le : s.slots.length ≤ maxSlots

theorem sound_ofSettings (settings : Settings) : (ofSettings settings).Sound := by
  constructor <;> simp [ofSettings]

theorem Sound.vacant_of_free {s : Heap} (hs : s.Sound) {i : Nat} (hi : i ∈ s.free) :
    ∃ g, g + 1 ≤ lastGeneration ∧ s.slots[i]? = some ⟨g + 1, none⟩ := by
  obtain ⟨slot, hslot⟩ : ∃ slot, s.slots[i]? = some slot :=
    ⟨_, List.getElem?_eq_getElem (hs.lt_of_free i hi)⟩
  rw [hslot]
  cases hs.fits i slot hslot with
  | occupied _ _ hfree | retired hfree => exact absurd hi hfree
  | free hle => exact ⟨_, hle, rfl⟩

/-- A heap is sound again after one slot was changed, if that slot fits. -/
theorem Sound.of_slot {s t : Heap} (hs : s.Sound) {i : Nat} (slot : Slot)
    (hother : ∀ j, i ≠ j → t.slots[j]? = s.slots[j]? ∧ (j ∈ t.free ↔ j ∈ s.free))
    (hslot : t.slots[i]? = some slot) (hfits : slot.Fits (i ∈ t.free)) (hnodup : t.free.Nodup)
    (hlength : t.slots.length ≤ maxSlots) : t.Sound := by
  refine ⟨hnodup, ?_, ?_, hlength⟩
  · intro j hj
    by_cases hij : i = j
    · exact hij ▸ (List.getElem?_eq_some_iff.mp hslot).1
    · obtain ⟨hsame, hfree⟩ := hother j hij
      obtain ⟨g, -, hvacant⟩ := hs.vacant_of_free (hfree.mp hj)
      rw [← hsame] at hvacant
      exact (List.getElem?_eq_some_iff.mp hvacant).1
  · intro j a ha
    by_cases hij : i = j
    · subst hij
      rw [hslot, Option.some.injEq] at ha
      exact ha ▸ hfits
    · obtain ⟨hsame, hfree⟩ := hother j hij
      rw [hfree]
      exact hs.fits j a (hsame ▸ ha)

/-- A live handle names an occupied slot of its own generation. -/
theorem find?_eq_some_iff {s : Heap} {h : Handle} {e : Entry} :
    s.find? h = some e ↔ s.slots[h.index]? = some ⟨h.generation, some e⟩ := by
  unfold find?
  cases hslot : s.slots[h.index]? with
  | none => simp
  | some slot =>
    dsimp only
    by_cases hg : slot.generation = h.generation
    · rw [if_pos hg, Option.some.injEq, ← hg]
      cases slot
      simp
    · rw [if_neg hg]
      simp only [reduceCtorEq, Option.some.injEq, false_iff]
      rintro rfl
      exact hg rfl

theorem phase_eq_live_iff {s : Heap} {h : Handle} {e : Entry} :
    s.phase h = .live e ↔ s.find? h = some e := by
  unfold phase find?
  cases hslot : s.slots[h.index]? with
  | none => simp
  | some slot =>
    simp only [Slot.phase]
    rcases Nat.lt_trichotomy h.generation slot.generation with hlt | heq | hgt
    · rw [if_pos hlt, if_neg (by omega)]
      simp
    · rw [if_neg (by omega), if_neg (by omega), if_pos heq.symm]
      cases slot.entry with
      | none => cases s.free.contains h.index <;> simp
      | some e' => simp
    · rw [if_neg (by omega), if_pos hgt, if_neg (by omega)]
      simp

/-- A handle can be told apart from the live ones by its phase. -/
theorem find?_eq_none_iff {s : Heap} {h : Handle} :
    s.find? h = none ↔ s.phase h = .unborn ∨ s.phase h = .spent := by
  cases hphase : s.phase h with
  | live e => simp [phase_eq_live_iff.mp hphase]
  | unborn | spent =>
    rw [Option.eq_none_iff_forall_ne_some]
    simp only [true_or, or_true, iff_true]
    intro e he
    rw [phase_eq_live_iff.mpr he] at hphase
    cases hphase

theorem isLive_iff {s : Heap} {h : Handle} : s.isLive h = true ↔ ∃ e, s.phase h = .live e := by
  simp only [isLive, Option.isSome_iff_exists, phase_eq_live_iff]

/-- The phase of a handle hangs on its own slot alone. -/
theorem phase_congr {s t : Heap} {h : Handle} (hslot : t.slots[h.index]? = s.slots[h.index]?)
    (hfree : h.index ∈ t.free ↔ h.index ∈ s.free) : t.phase h = s.phase h := by
  have hcontains : t.free.contains h.index = s.free.contains h.index := by
    rw [Bool.eq_iff_iff, List.contains_iff_mem, List.contains_iff_mem, hfree]
  rw [phase, phase, hslot, hcontains]

/-- Handles of one phase name the same entry, or none. -/
theorem find?_congr {s t : Heap} {h : Handle} (hphase : t.phase h = s.phase h) :
    t.find? h = s.find? h := by
  apply Option.ext
  intro e
  rw [← phase_eq_live_iff, ← phase_eq_live_iff, hphase]

theorem buffer_congr {s t : Heap} {h : Handle} (hfind : t.find? h = s.find? h) :
    t.buffer h = s.buffer h := by
  rw [buffer, buffer, hfind]

end Heap

end CountedHeap
