import CountedHeap.Proofs.Phase
import Mathlib.Data.List.Nodup
import Mathlib.Logic.ExistsUnique

/-! The three kinds of slots, told from the slot and its place on the free list. A vacant slot of the
last generation may be free or retired; only the free list tells which. In a sound heap each slot is
of one kind, and the numbers of slots of each kind add up to the table. -/
namespace CountedHeap

inductive Tenancy where
  | occupied
  | free
  | retired
deriving DecidableEq, Repr

/-- What a slot is that stands so many times on the free list. -/
def Slot.HasTenancy (slot : Slot) (listed : Nat) : Tenancy → Prop
  | .occupied => ∃ e ∈ slot.entry, 1 ≤ e.refcount
  | .free => slot.entry = none ∧ listed = 1
  | .retired => slot.entry = none ∧ slot.generation = Heap.lastGeneration ∧ listed = 0

instance (slot : Slot) (listed : Nat) : (t : Tenancy) → Decidable (slot.HasTenancy listed t)
  | .occupied => inferInstanceAs (Decidable (∃ e ∈ slot.entry, 1 ≤ e.refcount))
  | .free => inferInstanceAs (Decidable (slot.entry = none ∧ listed = 1))
  | .retired => inferInstanceAs (Decidable
      (slot.entry = none ∧ slot.generation = Heap.lastGeneration ∧ listed = 0))

/-- A slot that stands to the free list as it should is of one kind. -/
theorem Slot.Fits.existsUnique_tenancy {slot : Slot} {free : Prop} [Decidable free]
    (hfits : slot.Fits free) : ∃! t, slot.HasTenancy (if free then 1 else 0) t := by
  cases hfits with
  | occupied hle howned hfree =>
    rw [if_neg hfree]
    refine ⟨.occupied, ⟨_, rfl, howned⟩, ?_⟩
    intro t ht
    cases t <;> simp_all [HasTenancy]
  | free hle hfree =>
    rw [if_pos hfree]
    refine ⟨.free, ⟨rfl, rfl⟩, ?_⟩
    intro t ht
    cases t <;> simp_all [HasTenancy]
  | retired hfree =>
    rw [if_neg hfree]
    refine ⟨.retired, ⟨rfl, rfl, rfl⟩, ?_⟩
    intro t ht
    cases t <;> simp_all [HasTenancy]

/-- A vacant slot of the last generation is free or retired as the free list has it. -/
example : (Slot.mk Heap.lastGeneration none).HasTenancy 1 .free ∧
    (Slot.mk Heap.lastGeneration none).HasTenancy 0 .retired := by decide

namespace Heap

/-- There is such a slot, and it is of this kind. -/
def HasTenancy (s : Heap) (i : Nat) (t : Tenancy) : Prop :=
  ∃ slot ∈ s.slots[i]?, slot.HasTenancy (s.free.count i) t

instance (s : Heap) (i : Nat) (t : Tenancy) : Decidable (s.HasTenancy i t) :=
  inferInstanceAs (Decidable (∃ slot ∈ s.slots[i]?, slot.HasTenancy (s.free.count i) t))

/-- How many slots of the table are of one kind. -/
def census (s : Heap) (t : Tenancy) : Nat :=
  (List.range s.slots.length).countP fun i => s.HasTenancy i t

theorem hasTenancy_iff {s : Heap} {i : Nat} {slot : Slot} (hslot : s.slots[i]? = some slot)
    {t : Tenancy} : s.HasTenancy i t ↔ slot.HasTenancy (s.free.count i) t := by
  simp [HasTenancy, hslot]

variable {s : Heap} (hs : s.Sound)
include hs

theorem Sound.count_free (i : Nat) : s.free.count i = if i ∈ s.free then 1 else 0 :=
  hs.nodup_free.count

/-- No slot is of two kinds, and none is of no kind. -/
theorem Sound.existsUnique_tenancy {i : Nat} (hi : i < s.slots.length) :
    ∃! t, s.HasTenancy i t := by
  have hslot := List.getElem?_eq_getElem hi
  simp only [hasTenancy_iff hslot, hs.count_free]
  exact (hs.fits i _ hslot).existsUnique_tenancy

theorem Sound.free_iff {i : Nat} : s.HasTenancy i .free ↔ i ∈ s.free := by
  constructor
  · rintro ⟨slot, -, -, hcount⟩
    exact List.count_pos_iff.mp (by omega)
  · intro hi
    obtain ⟨g, -, hslot⟩ := hs.vacant_of_free hi
    exact ⟨_, hslot, rfl, by rw [hs.count_free, if_pos hi]⟩

theorem Sound.occupied_iff {i : Nat} :
    s.HasTenancy i .occupied ↔ ∃ slot ∈ s.slots[i]?, slot.entry.isSome = true := by
  constructor
  · rintro ⟨slot, hslot, e, he, -⟩
    exact ⟨slot, hslot, Option.isSome_of_mem he⟩
  · rintro ⟨⟨g, entry⟩, hslot, hsome⟩
    obtain ⟨e, rfl⟩ := Option.isSome_iff_exists.mp hsome
    exact ⟨_, hslot, e, rfl, (hs.fits i _ hslot).of_occupied.2.1⟩

/-- A slot is retired when the last handle that it can issue is spent. -/
theorem Sound.retired_iff {i : Nat} :
    s.HasTenancy i .retired ↔ s.phase ⟨i, lastGeneration⟩ = .spent := by
  constructor
  · rintro ⟨⟨g, entry⟩, hslot, hvacant, hlast, hcount⟩
    obtain rfl : entry = none := hvacant
    obtain rfl : g = lastGeneration := hlast
    have hfree : s.free.contains i = false := by
      rw [List.contains_eq_mem, decide_eq_false_iff_not]
      exact List.count_eq_zero.mp hcount
    rw [phase_eq hslot, hfree]
    rfl
  · intro hspent
    cases hslot : s.slots[i]? with
    | none =>
      rw [phase_of_no_slot hslot] at hspent
      cases hspent
    | some slot =>
      have hle := (hs.fits i slot hslot).generation_le
      rw [phase_eq hslot, Slot.phase, if_neg (Nat.not_lt_of_le hle)] at hspent
      split at hspent
      · cases hspent
      · next hlt =>
        split at hspent
        · cases hspent
        · next hvacant =>
          split at hspent
          · cases hspent
          · next hfree =>
            have hcount : s.free.count i = 0 :=
              List.count_eq_zero.mpr fun hmem => hfree (List.contains_iff_mem.mpr hmem)
            exact ⟨slot, hslot, hvacant, Nat.le_antisymm hle (Nat.le_of_not_lt hlt), hcount⟩

/-- The free slots are those on the free list. -/
theorem Sound.census_free : s.census .free = s.free.length := by
  rw [census, List.countP_eq_length_filter]
  apply List.Perm.length_eq
  rw [List.perm_ext_iff_of_nodup (List.nodup_range.filter _) hs.nodup_free]
  intro i
  rw [List.mem_filter, List.mem_range, decide_eq_true_eq, hs.free_iff]
  exact ⟨And.right, fun hi => ⟨hs.lt_of_free i hi, hi⟩⟩

/-- The occupied slots are those that hold a value. -/
theorem Sound.census_occupied :
    s.census .occupied = s.slots.countP fun slot => slot.entry.isSome := by
  have hslots : (List.range s.slots.length).map (s.slots[·]?) = s.slots.map some := by
    apply List.ext_getElem?
    intro i
    by_cases hi : i < s.slots.length <;> simp [hi]
  calc s.census .occupied
      = (List.range s.slots.length).countP fun i => s.slots[i]?.any fun slot => slot.entry.isSome := by
        apply List.countP_congr
        intro i _
        rw [decide_eq_true_eq, hs.occupied_iff, Option.any_eq_true]
        rfl
    _ = (s.slots.map some).countP (Option.any fun slot => slot.entry.isSome) := by
        rw [← hslots, List.countP_map]
        rfl
    _ = s.slots.countP fun slot => slot.entry.isSome := by
        rw [List.countP_map]
        rfl

/-- Every slot counts once. -/
theorem Sound.census_add :
    s.census .occupied + s.census .free + s.census .retired = s.slots.length := by
  have hone : ∀ i ∈ List.range s.slots.length, ∃! t, s.HasTenancy i t :=
    fun i hi => hs.existsUnique_tenancy (List.mem_range.mp hi)
  unfold census
  conv_rhs => rw [← List.length_range (n := s.slots.length)]
  generalize List.range s.slots.length = indices at hone
  induction indices with
  | nil => rfl
  | cons i indices ih =>
    obtain ⟨t, ht, hunique⟩ := hone i List.mem_cons_self
    have hrest := ih fun j hj => hone j (List.mem_cons_of_mem i hj)
    have hiff : ∀ other, s.HasTenancy i other ↔ other = t :=
      fun other => ⟨hunique other, fun heq => heq ▸ ht⟩
    cases t <;> simp only [List.countP_cons, List.length_cons, hiff] <;> simp <;> omega

end Heap

end CountedHeap
