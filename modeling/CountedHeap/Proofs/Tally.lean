import CountedHeap.Proofs.Step
import CountedHeap.Proofs.Tenancy
import Mathlib.Algebra.Order.BigOperators.Group.List
import Mathlib.Algebra.Order.Ring.Nat

/-! The books of the heap. How many values were created and destroyed and how many are alive can be
told from the table alone: every generation that a slot has left behind stands for a value that was
destroyed, as does the last generation of a retired slot. -/
namespace CountedHeap

/-- The number of values in a slot. -/
def Slot.occupancy (slot : Slot) : Nat := if slot.entry.isSome then 1 else 0

namespace Heap

/-- A measure of slots, added up over the table. -/
def total (s : Heap) (measure : Slot → Nat) : Nat := (s.slots.map measure).sum

theorem sum_map_modify {slots : List Slot} {i : Nat} {slot : Slot} (hslot : slots[i]? = some slot)
    (f : Slot → Slot) (measure : Slot → Nat) :
    ((slots.modify i f).map measure).sum + measure slot =
      (slots.map measure).sum + measure (f slot) := by
  induction slots generalizing i with
  | nil => simp at hslot
  | cons first slots ih =>
    cases i with
    | zero =>
      obtain rfl : first = slot := by simpa using hslot
      simp only [List.modify_zero_cons, List.map_cons, List.sum_cons]
      omega
    | succ i =>
      have hrest := ih (by simpa using hslot)
      simp only [List.modify_succ_cons, List.map_cons, List.sum_cons]
      omega

theorem total_put {s : Heap} {h : Handle} {old : Entry} (e : Entry) (hfind : s.find? h = some old)
    (measure : Slot → Nat) :
    (s.put h e).total measure + measure ⟨h.generation, some old⟩ =
      s.total measure + measure ⟨h.generation, some e⟩ :=
  sum_map_modify (find?_eq_some_iff.mp hfind) _ measure

theorem total_vacate {s : Heap} {h : Handle} {old : Entry} (hfind : s.find? h = some old)
    (measure : Slot → Nat) :
    (s.vacate h).total measure + measure ⟨h.generation, some old⟩ =
      s.total measure + measure (vacant h) :=
  sum_map_modify (find?_eq_some_iff.mp hfind) _ measure

theorem total_extend (s : Heap) (value : Value) (measure : Slot → Nat) :
    (s.extend value).total measure = s.total measure + measure ⟨0, some ⟨1, value⟩⟩ := by
  simp [total, Heap.extend]

theorem total_occupy {s : Heap} {index g : Nat} (hslot : s.slots[index]? = some ⟨g, none⟩)
    (free : List Nat) (value : Value) (measure : Slot → Nat) :
    (s.occupy index free value).total measure + measure ⟨g, none⟩ =
      s.total measure + measure ⟨g, some ⟨1, value⟩⟩ :=
  sum_map_modify hslot _ measure

theorem total_occupancy (s : Heap) :
    s.total Slot.occupancy = s.slots.countP fun slot => slot.entry.isSome := by
  unfold total
  induction s.slots with
  | nil => rfl
  | cons slot slots ih => simp [Slot.occupancy, List.countP_cons, ih, Nat.add_comm]

/-- What the counters say of the table: each slot has had one value for each generation that it left
behind, and one more when it is occupied or retired; that is, when it is not free. -/
structure Tallied (s : Heap) : Prop where
  live : s.counters.live = s.total Slot.occupancy
  created : s.counters.created = s.counters.destroyed + s.counters.live
  spent : s.counters.created + s.free.length = s.total Slot.generation + s.slots.length

theorem tallied_ofSettings (settings : Settings) : (ofSettings settings).Tallied :=
  ⟨rfl, rfl, rfl⟩

/-- The books do not hang on what the values are. -/
theorem Tallied.put {s : Heap} (htally : s.Tallied) {h : Handle} {old : Entry} (e : Entry)
    (hfind : s.find? h = some old) : (s.put h e).Tallied := by
  have hgeneration := total_put e hfind Slot.generation
  have hoccupancy := total_put e hfind Slot.occupancy
  obtain ⟨hlive, hcreated, hspent⟩ := htally
  have hlength : (s.put h e).slots.length = s.slots.length := List.length_modify ..
  refine ⟨?_, hcreated, ?_⟩
  · change s.counters.live = _
    simp only [Slot.occupancy, Option.isSome_some, if_true] at hoccupancy
    omega
  · change s.counters.created + s.free.length = _
    dsimp only at hgeneration
    omega

/-- A value that goes leaves its generation behind and its slot free, or else its slot retired. -/
theorem Tallied.vacate {s : Heap} (htally : s.Tallied) {h : Handle} {e : Entry}
    (hfind : s.find? h = some e) : (s.vacate h).Tallied := by
  have hgeneration := total_vacate hfind Slot.generation
  have hoccupancy := total_vacate hfind Slot.occupancy
  obtain ⟨hlive, hcreated, hspent⟩ := htally
  have hlength : (s.vacate h).slots.length = s.slots.length := List.length_modify ..
  have hone : Slot.occupancy ⟨h.generation, some e⟩ = 1 := rfl
  have hnone : (vacant h).occupancy = 0 := rfl
  refine ⟨?_, ?_, ?_⟩
  · change s.counters.live - 1 = _
    omega
  · change s.counters.created = s.counters.destroyed + 1 + (s.counters.live - 1)
    omega
  · change s.counters.created + _ = _
    dsimp only at hgeneration
    rw [hlength, free_vacate]
    by_cases hlast : exhausted h = true
    · have hstays : (vacant h).generation = h.generation := by rw [vacant, if_pos hlast]
      rw [if_pos hlast]
      omega
    · have hmoves : (vacant h).generation = h.generation + 1 := by rw [vacant, if_neg hlast]
      rw [if_neg hlast, List.length_cons]
      omega

/-- A new value takes a slot off the free list, or the table grows by one. -/
theorem Tallied.create {s t : Heap} (htally : s.Tallied) (hs : s.Sound) {h : Handle} {value : Value}
    (hc : Changes s (.create h value) t) : t.Tallied := by
  obtain ⟨hlive, hcreated, hspent⟩ := htally
  cases hc with
  | @reuse index free value _ hfree =>
    obtain ⟨g, -, hslot⟩ := hs.vacant_of_free (i := index) (by simp [hfree])
    have hgeneration := total_occupy hslot free value Slot.generation
    have hoccupancy := total_occupy hslot free value Slot.occupancy
    have hone : Slot.occupancy ⟨g + 1, some ⟨1, value⟩⟩ = 1 := rfl
    have hnone : Slot.occupancy ⟨g + 1, none⟩ = 0 := rfl
    have hlength : (s.occupy index free value).slots.length = s.slots.length :=
      List.length_modify ..
    have hrest : s.free.length = free.length + 1 := by rw [hfree, List.length_cons]
    refine ⟨?_, ?_, ?_⟩
    · change s.counters.live + 1 = _
      omega
    · change s.counters.created + 1 = s.counters.destroyed + (s.counters.live + 1)
      omega
    · change s.counters.created + 1 + free.length = _
      dsimp only at hgeneration
      omega
  | extend value =>
    have hgeneration := total_extend s value Slot.generation
    have hoccupancy := total_extend s value Slot.occupancy
    have hone : Slot.occupancy ⟨0, some ⟨1, value⟩⟩ = 1 := rfl
    have hlength : (s.extend value).slots.length = s.slots.length + 1 := by simp [Heap.extend]
    refine ⟨?_, ?_, ?_⟩
    · change s.counters.live + 1 = _
      omega
    · change s.counters.created + 1 = s.counters.destroyed + (s.counters.live + 1)
      omega
    · change s.counters.created + 1 + s.free.length = _
      dsimp only at hgeneration
      omega

theorem Changes.tallied {s t : Heap} {c : Change} (hc : Changes s c t) (hs : s.Sound)
    (htally : s.Tallied) : t.Tallied := by
  cases hc with
  | reuse value hlimit hfree => exact htally.create hs (.reuse value hlimit hfree)
  | extend value hlimit hfree hlength =>
    exact htally.create hs (.extend value hlimit hfree hlength)
  | retain hfind | release hfind | write _ hfind => exact htally.put _ hfind
  | destroy hfind => exact htally.vacate hfind

/-- As long as a handle is live, so is a value. -/
theorem Tallied.live_pos {s : Heap} (htally : s.Tallied) {h : Handle}
    {e : Entry} (hfind : s.find? h = some e) : 0 < s.counters.live := by
  have hoccupancy := total_vacate hfind Slot.occupancy
  have hone : Slot.occupancy ⟨h.generation, some e⟩ = 1 := rfl
  have hnone : (vacant h).occupancy = 0 := rfl
  have hlive := htally.live
  omega

/-! What the books come to in a sound heap. -/

theorem Tallied.live_eq_census {s : Heap} (htally : s.Tallied) (hs : s.Sound) :
    s.counters.live = s.census .occupied := by
  rw [hs.census_occupied, htally.live, total_occupancy]

/-- Each destroyed value has left a generation behind, or a retired slot. -/
theorem Tallied.destroyed_eq {s : Heap} (htally : s.Tallied) (hs : s.Sound) :
    s.counters.destroyed = s.total Slot.generation + s.census .retired := by
  have hlive := htally.live_eq_census hs
  have hadd := hs.census_add
  have hfree := hs.census_free
  obtain ⟨-, hcreated, hspent⟩ := htally
  omega

/-- No slot has had more values than there are generations. -/
theorem Tallied.created_le {s : Heap} (htally : s.Tallied) (hs : s.Sound) :
    s.counters.created ≤ 2 ^ 32 * s.slots.length := by
  have hsum : s.total Slot.generation ≤ lastGeneration * s.slots.length := by
    have hle := List.sum_le_card_nsmul (s.slots.map Slot.generation) lastGeneration ?_
    · simpa [total, Nat.mul_comm] using hle
    · intro g hg
      obtain ⟨slot, hslot, rfl⟩ := List.mem_map.mp hg
      obtain ⟨i, hi⟩ := List.getElem?_of_mem hslot
      exact (hs.fits i slot hi).generation_le
  have hspent := htally.spent
  unfold lastGeneration at hsum
  omega

end Heap

theorem Session.tallied_leave (settings : Settings) (script : List (Allowance × Operation)) :
    ((ofSettings settings).leave script).heap.Tallied :=
  keeps_of_changes (Heap.tallied_ofSettings settings) Heap.Changes.tallied script

theorem Heap.Reachable.tallied {s : Heap} (hs : s.Reachable) : s.Tallied := by
  obtain ⟨settings, script, rfl⟩ := hs
  exact Session.tallied_leave settings script

end CountedHeap
