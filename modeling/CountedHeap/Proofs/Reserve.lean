import CountedHeap.Proofs.LineDecoding
import CountedHeap.Proofs.LineFrame
import Mathlib.Algebra.Order.Ring.Nat

/-! The reserve of a heap: how many values its vacant slots and the slots still to come can hold,
one after another. There is room for a value as long as the reserve is not used up, and every line
that is read takes one from it, for its temporary text. -/
namespace CountedHeap

/-- The table may grow, and storage is granted up to a size. -/
structure Allowance.Covers (a : Allowance) (size : Nat) : Prop where
  table : a.table = true
  storage : ∀ n ≤ size, a.storage n = true

namespace Heap

/-- How many values the heap can hold, one after another, before it runs out of handles. -/
def reserve (s : Heap) : Nat :=
  (s.free.map fun i => lastGeneration + 1 - s.generation i).sum +
    (maxSlots - s.slots.length) * (lastGeneration + 1)

variable {s t : Heap} {line : Handle}

theorem generation_eq {i : Nat} {slot : Slot} (hslot : s.slots[i]? = some slot) :
    s.generation i = slot.generation := by
  rw [generation, hslot]

theorem generation_congr {i : Nat} (hslot : t.slots[i]? = s.slots[i]?) :
    t.generation i = s.generation i := by
  rw [generation, generation, hslot]

/-- Room for one more value is what the reserve is about. -/
theorem Sound.reserve_pos_iff (hs : s.Sound) :
    0 < s.reserve ↔ s.free ≠ [] ∨ s.slots.length < maxSlots := by
  constructor
  · intro hpos
    by_contra hnone
    rw [not_or, not_not, Nat.not_lt] at hnone
    obtain ⟨hfree, hfull⟩ := hnone
    rw [reserve, hfree, Nat.sub_eq_zero_of_le hfull] at hpos
    simp at hpos
  · rintro (hfree | hlength)
    · obtain ⟨i, free, hfree⟩ := List.exists_cons_of_ne_nil hfree
      obtain ⟨g, hle, hslot⟩ := hs.vacant_of_free (i := i) (by simp [hfree])
      rw [reserve, hfree, List.map_cons, List.sum_cons, generation_eq hslot]
      dsimp only
      omega
    · have hslots : 0 < (maxSlots - s.slots.length) * (lastGeneration + 1) :=
        Nat.mul_pos (by omega) (Nat.succ_pos _)
      rw [reserve]
      omega

/-- The slot of a temporary text is worth one less when the text is gone. -/
theorem Vacated.reserve (h : Vacated s t line) (hs : s.Sound) (ht : t.Sound) :
    s.reserve = t.reserve + 1 := by
  cases h with
  | @again free hlt hbefore hfree hslots hsame hroom =>
    have hnodup := hs.nodup_free
    rw [hfree, List.nodup_cons] at hnodup
    have hlength : line.index < s.slots.length := (List.getElem?_eq_some_iff.mp hbefore).1
    have hafter : t.slots[line.index]? = some ⟨line.generation + 1, none⟩ := by
      rw [hslots, List.getElem?_set_self hlength]
    have hline : t.generation line.index = line.generation + 1 := generation_eq hafter
    have hother : free.map (fun i => lastGeneration + 1 - t.generation i) =
        free.map fun i => lastGeneration + 1 - s.generation i := by
      apply List.map_congr_left
      intro i hi
      have hne : line.index ≠ i := by
        rintro rfl
        exact hnodup.1 hi
      rw [generation_congr]
      rw [hslots, List.getElem?_set_ne hne]
    simp only [Heap.reserve, hsame, hfree, List.map_cons, List.sum_cons, hother, hline,
      generation_eq hbefore, hslots, List.length_set]
    omega
  | @retired free hlast hbefore hfree hslots hrest hroom =>
    have hother : free.map (fun i => lastGeneration + 1 - t.generation i) =
        free.map fun i => lastGeneration + 1 - s.generation i := by
      apply List.map_congr_left
      intro i _
      rw [generation_congr]
      rw [hslots]
    simp only [Heap.reserve, hrest, hfree, List.map_cons, List.sum_cons, hother,
      generation_eq hbefore, hlast, hslots]
    omega
  | added hfree hline hslots hadded hroom =>
    have hlength := ht.length_le
    rw [hslots, List.length_append, List.length_singleton] at hlength
    have hafter : t.slots[line.index]? = some ⟨1, none⟩ := by
      rw [hslots, hline, List.getElem?_concat_length]
    have hnew : t.generation line.index = 1 := generation_eq hafter
    have hslots : maxSlots - s.slots.length = (maxSlots - t.slots.length) + 1 := by
      rw [hslots, List.length_append, List.length_singleton]
      omega
    rw [Heap.reserve, Heap.reserve, hfree, hadded, hslots, Nat.add_mul]
    simp only [List.map_nil, List.sum_nil, List.map_cons, List.sum_cons, hnew]
    omega

/-- A line that gets its temporary text leaves the limit as near as it was, and takes one value from
the reserve. -/
theorem readLine_reserve (hs : s.Sound) {allowance : Allowance}
    (hcreated : (s.createText allowance).result = .ok line) (input : List Arrival) :
    let t := (s.readLine allowance input).heap
    t.Sound ∧ t.settings = s.settings ∧ t.atLiveLimit = s.atLiveLimit ∧
      s.reserve = t.reserve + 1 := by
  intro t
  obtain ⟨old, new, hrun⟩ := readLine_of_created hs hcreated input
  have ht : t.Sound := hrun.path.sound hs
  have hheap : t = _ := hrun.heap
  rw [hrun.assembled] at hheap
  obtain ⟨hsettings, hcounters⟩ := counters_of_create hrun.created ⟨1, .text new⟩
  have hvacated := vacated_of_create hrun.created hs ⟨1, .text new⟩
  rw [← hheap] at hsettings hcounters hvacated
  have hlimit : t.atLiveLimit = s.atLiveLimit := by
    rw [atLiveLimit, atLiveLimit, hsettings, hcounters]
  exact ⟨ht, hsettings, hlimit, hvacated.reserve hs ht⟩

/-- As long as the reserve lasts, nothing but memory is needed to read a line. -/
theorem Sound.grants (hs : s.Sound) {allowance : Allowance} {octets size : Nat}
    (hlimit : s.atLiveLimit = false) (hreserve : 0 < s.reserve)
    (hcovers : allowance.Covers size) (hinitial : max s.settings.initialCapacity 1 ≤ size)
    (hoctets : max (2 * (octets + 1)) 8 ≤ size) : s.Grants allowance octets := by
  refine ⟨hlimit, ?_, hcovers.storage _ hinitial, ?_⟩
  · intro hfree
    have hroom := hs.reserve_pos_iff.mp hreserve
    exact ⟨hroom.resolve_left (not_not_intro hfree), .inr hcovers.table⟩
  · intro n hn
    exact hcovers.storage n (hn.trans hoctets)

end Heap

end CountedHeap
