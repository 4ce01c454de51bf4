import CountedHeap.Proofs.Guarded

/-! The table, the free list and the counters after every run. Each slot is occupied, free or retired,
the counters tell how many values the slots have had, and so nothing that an operation takes for
granted ever fails it. -/
namespace CountedHeap

namespace Heap

variable {s : Heap}

/-- An occupied slot has one live handle, that of its present generation. -/
theorem Sound.existsUnique_live (hs : s.Sound) {i : Nat} (hi : s.HasTenancy i .occupied) :
    ∃! h : Handle, h.index = i ∧ s.isLive h = true := by
  obtain ⟨⟨g, entry⟩, hslot, hsome⟩ := hs.occupied_iff.mp hi
  obtain ⟨e, rfl⟩ := Option.isSome_iff_exists.mp hsome
  refine ⟨⟨i, g⟩, ⟨rfl, ?_⟩, ?_⟩
  · rw [isLive, Option.isSome_iff_exists]
    exact ⟨e, find?_eq_some_iff.mpr hslot⟩
  · rintro h ⟨rfl, hlive⟩
    obtain ⟨e', hfind⟩ := Option.isSome_iff_exists.mp hlive
    have hsame := Option.some.inj (hslot.symm.trans (find?_eq_some_iff.mp hfind))
    exact Handle.ext rfl (congrArg Slot.generation hsame).symm

theorem Sound.occupied_of_isLive (hs : s.Sound) {h : Handle} (hlive : s.isLive h = true) :
    s.HasTenancy h.index .occupied := by
  obtain ⟨e, hfind⟩ := Option.isSome_iff_exists.mp hlive
  exact hs.occupied_iff.mpr ⟨_, find?_eq_some_iff.mp hfind, rfl⟩

end Heap

/-- The slot table after every run. Every slot is of one kind, the free list names the free slots,
each once, and the counters tell how many slots are occupied. So no step fails a check, whatever it
does next; and the occupied slots are those of the live handles, one for each. -/
theorem slot_table_law (settings : Settings) (script : List (Allowance × Operation)) :
    let s := (Session.ofSettings settings).leave script
    (∀ i < s.heap.slots.length, ∃! t, s.heap.HasTenancy i t) ∧
    s.heap.free.Nodup ∧
    (∀ i ∈ s.heap.free, i < s.heap.slots.length ∧ s.heap.HasTenancy i .free) ∧
    s.heap.counters.live = s.heap.census .occupied ∧
    s.heap.counters.created = s.heap.counters.destroyed + s.heap.counters.live ∧
    (∀ allowance operation,
      s.stepGuarded none allowance operation = .ok (s.step allowance operation)) ∧
    (∀ h, s.heap.isLive h = true → s.heap.HasTenancy h.index .occupied) ∧
    ∀ i, s.heap.HasTenancy i .occupied → ∃! h : Handle, h.index = i ∧ s.heap.isLive h = true := by
  intro s
  have hs : s.heap.Sound := Session.sound_leave settings script
  have htally : s.heap.Tallied := Session.tallied_leave settings script
  refine ⟨fun i hi => hs.existsUnique_tenancy hi, hs.nodup_free, ?_, htally.live_eq_census hs,
    htally.created, ?_, fun h hlive => hs.occupied_of_isLive hlive,
    fun i hi => hs.existsUnique_live hi⟩
  · intro i hi
    exact ⟨hs.lt_of_free i hi, hs.free_iff.mpr hi⟩
  · intro allowance operation
    exact s.stepGuarded_eq hs htally (by simp) allowance operation

/-- The counters after every run. Every value that was destroyed has left a generation behind or a
retired slot, and so the number of values that were ever created is bounded by the table. As long as
not all slot numbers are taken, no counter of 64 bits overflows in the next step, and none that goes
down was at zero. -/
theorem counter_law (settings : Settings) (script : List (Allowance × Operation)) :
    let s := (Session.ofSettings settings).leave script
    s.heap.counters.destroyed = s.heap.total Slot.generation + s.heap.census .retired ∧
    s.heap.counters.created ≤ 2 ^ 32 * s.heap.slots.length ∧
    (s.heap.slots.length < 2 ^ 32 → ∀ allowance operation,
      s.stepGuarded (some (2 ^ 64 - 1)) allowance operation = .ok (s.step allowance operation)) := by
  intro s
  have hs : s.heap.Sound := Session.sound_leave settings script
  have htally : s.heap.Tallied := Session.tallied_leave settings script
  have hle := htally.created_le hs
  refine ⟨htally.destroyed_eq hs, hle, ?_⟩
  intro hlength allowance operation
  refine s.stepGuarded_eq hs htally ?_ allowance operation
  intro m hm
  obtain rfl := Option.some.inj hm
  omega

end CountedHeap
