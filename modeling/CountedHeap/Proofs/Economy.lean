import CountedHeap.Proofs.Failure
import CountedHeap.Proofs.Tally

/-! How many slots a heap takes. It never takes a new slot while one is free, so the table is no
longer than the most values that were alive at one time, but for the slots that were retired; and
the memory of the table grows only when the table is as long as one of 0, 4, 8, 16 and so on. -/
namespace CountedHeap

/-- The most values alive at one time during a step. In the midst of a line, its temporary text is
one of them. -/
def Moment.crest (m : Moment) : Nat :=
  match m.operation with
  | .readLine => (m.before.heap.createText m.allowance).heap.counters.live
  | _ => m.after.heap.counters.live

/-- The most values alive at one time in the past. -/
def peak (past : List Moment) : Nat := past.foldl (fun most m => max most m.crest) 0

theorem peak_append (past : List Moment) (m : Moment) :
    peak (past ++ [m]) = max (peak past) m.crest := by
  simp [peak]

namespace Heap

/-- Every slot that is free was taken by a value when the most values were alive. -/
structure Thrifty (s : Heap) (most : Nat) : Prop where
  free_le : s.counters.live + s.free.length ≤ most
  le_length : most ≤ s.slots.length

variable {s t : Heap} {most : Nat}

theorem Thrifty.put (h : s.Thrifty most) (g : Handle) (e : Entry) :
    (s.put g e).Thrifty (max most s.counters.live) := by
  obtain ⟨hfree, hlength⟩ := h
  have hsame : max most s.counters.live = most := by omega
  rw [hsame]
  refine ⟨hfree, ?_⟩
  simpa [Heap.put] using hlength

/-- A change is thrifty: a new slot is taken only when as many values are alive as there are slots
that can be used. -/
theorem Changes.thrifty {c : Change} (hc : Changes s c t) (htally : s.Tallied)
    (h : s.Thrifty most) : t.Thrifty (max most t.counters.live) := by
  obtain ⟨hfree, hlength⟩ := h
  cases hc with
  | @reuse index free value _ hrest =>
    have hcount : s.free.length = free.length + 1 := by rw [hrest, List.length_cons]
    constructor
    · change s.counters.live + 1 + free.length ≤ max most (s.counters.live + 1)
      omega
    · change max most (s.counters.live + 1) ≤ (s.slots.modify index _).length
      rw [List.length_modify]
      omega
  | extend value _ hnone =>
    have hcount : s.free.length = 0 := by rw [hnone, List.length_nil]
    constructor
    · change s.counters.live + 1 + s.free.length ≤ max most (s.counters.live + 1)
      omega
    · change max most (s.counters.live + 1) ≤ (s.slots ++ [_]).length
      rw [List.length_append, List.length_singleton]
      omega
  | retain | release | write => exact Thrifty.put ⟨hfree, hlength⟩ _ _
  | @destroy g e hfind =>
    have hpos := htally.live_pos hfind
    have hcount : (s.vacate g).free.length ≤ s.free.length + 1 := by
      rw [free_vacate]
      split
      · exact Nat.le_succ _
      · exact Nat.le_refl _
    constructor
    · change s.counters.live - 1 + (s.vacate g).free.length ≤ max most (s.counters.live - 1)
      omega
    · change max most (s.counters.live - 1) ≤ (s.slots.modify g.index _).length
      rw [List.length_modify]
      omega

/-- During a line one value more is alive than before it. -/
theorem Path.line_thrifty {line : Handle} {old new : Text.Buffer}
    (hpath : Path s [.create line (.text old), .write line new, .destroy line] t) (hs : s.Sound)
    (htally : s.Tallied) (h : s.Thrifty most) : t.Thrifty (max most (s.counters.live + 1)) := by
  obtain _ | ⟨hcreated, hpath⟩ := hpath
  obtain _ | ⟨hwritten, hpath⟩ := hpath
  have hdestroyed := hpath.changes
  have hcreatedTally := hcreated.tallied hs htally
  have hwrittenTally := hwritten.tallied (hcreated.sound hs) hcreatedTally
  have hthrifty := hdestroyed.thrifty hwrittenTally
    (hwritten.thrifty hcreatedTally (hcreated.thrifty htally h))
  rw [hdestroyed.live_destroy, hwritten.counters_write, hcreated.counters_create] at hthrifty
  have hmost : max (max (max most (s.counters.live + 1)) (s.counters.live + 1))
      (s.counters.live + 1 - 1) = max most (s.counters.live + 1) := by omega
  rw [← hmost]
  exact hthrifty

/-- What the table comes to in a sound heap: all slots but the retired ones were taken at once. -/
theorem Thrifty.length_le (h : s.Thrifty most) (hs : s.Sound) (htally : s.Tallied) :
    s.slots.length ≤ most + s.census .retired := by
  have hadd := hs.census_add
  have hfree := hs.census_free
  have hlive := htally.live_eq_census hs
  obtain ⟨hle, -⟩ := h
  omega

/-- Below the peak there is a slot to be used again, unless slots were retired. -/
theorem Thrifty.free_ne_nil (h : s.Thrifty most) (hs : s.Sound) (htally : s.Tallied)
    (hretired : s.census .retired = 0) (hbelow : s.counters.live < most) : s.free ≠ [] := by
  intro hnone
  have hadd := hs.census_add
  have hfree := hs.census_free
  have hlive := htally.live_eq_census hs
  obtain ⟨-, hle⟩ := h
  rw [hnone, List.length_nil] at hfree
  omega

end Heap

namespace Moment

theorem crest_of_ne {m : Moment} (hop : m.operation ≠ .readLine) :
    m.crest = m.after.heap.counters.live := by
  unfold crest
  split
  · next hline => exact absurd hline hop
  · rfl

theorem crest_of_created {m : Moment} {h : Handle} (hop : m.operation = .readLine)
    (hcreated : (m.before.heap.createText m.allowance).result = .ok h) :
    m.crest = m.before.heap.counters.live + 1 := by
  obtain ⟨b, -, hc⟩ := Heap.createText_created hcreated
  rw [crest, hop]
  dsimp only
  rw [hc.counters_create]
  rfl

theorem crest_of_refused {m : Moment} {fault : Fault} (hop : m.operation = .readLine)
    (hrefused : (m.before.heap.createText m.allowance).result = .error fault) :
    m.crest = m.before.heap.counters.live := by
  rw [crest, hop]
  dsimp only
  rw [Heap.atomic_createText fault hrefused]

theorem thrifty_after {m : Moment} {most : Nat} (hs : m.before.heap.Sound)
    (htally : m.before.heap.Tallied) (h : m.before.heap.Thrifty most) :
    m.after.heap.Thrifty (max most m.crest) := by
  obtain ⟨changes, hamounts, hpath⟩ := m.amounts hs
  cases hamounts with
  | createInteger hop | createText hop | retain hop | release hop | destroy hop =>
    rw [crest_of_ne (by rw [hop]; nofun)]
    exact hpath.changes.thrifty htally h
  | write hquiet hop =>
    rw [crest_of_ne hop]
    exact hpath.changes.thrifty htally h
  | line hquiet hop hline =>
    rw [crest_of_created hop hline]
    exact hpath.line_thrifty hs htally h
  | nothing hquiet hline =>
    have hsame := hpath.eq_of_nil
    have hcrest : m.crest = m.before.heap.counters.live := by
      by_cases hop : m.operation = .readLine
      · obtain ⟨fault, hrefused⟩ := hline hop
        exact crest_of_refused hop hrefused
      · rw [crest_of_ne hop, hsame]
    have hmost : max most m.before.heap.counters.live = most := by
      have hle := h.free_le
      omega
    rw [hcrest, hmost, hsame]
    exact h

end Moment

theorem Session.thrifty_leave (settings : Settings) (script : List (Allowance × Operation)) :
    ((ofSettings settings).leave script).heap.Thrifty
      (peak ((ofSettings settings).history script)) := by
  refine (keeps (P := fun past s => s.heap.Sound ∧ s.heap.Tallied ∧ s.heap.Thrifty (peak past))
    ?_ script [] _ ⟨Heap.sound_ofSettings settings, Heap.tallied_ofSettings settings, ?_⟩).2.2
  · rintro past m ⟨hs, htally, h⟩
    obtain ⟨_, -, hpath⟩ := m.amounts hs
    rw [peak_append]
    exact ⟨hpath.sound hs, hpath.keeps (fun hc hs => hc.tallied hs) hs htally,
      Moment.thrifty_after hs htally h⟩
  · exact ⟨Nat.le_refl 0, Nat.le_refl 0⟩

/-! The memory of the table. -/

/-- The lengths at which a table has no room left: 0, 4, 8, 16 and so on. -/
def TableFull (length : Nat) : Prop := length = 0 ∨ ∃ k, length = 4 * 2 ^ k

/-- A table has no room yet, or the least room among 4, 8, 16 and so on that holds its slots. -/
inductive Housed : (room length : Nat) → Prop
  | bare : Housed 0 0
  | small {length : Nat} (hpos : 0 < length) (hle : length ≤ 4) : Housed 4 length
  | doubled {k length : Nat} (hlt : 4 * 2 ^ k < length) (hle : length ≤ 4 * 2 ^ (k + 1)) :
    Housed (4 * 2 ^ (k + 1)) length

namespace Housed

variable {room length : Nat}

/-- The table is housed as well after it has grown by a slot. -/
theorem grow (h : Housed room length) :
    Housed (if length < room then room else max 4 (2 * room)) (length + 1) := by
  cases h with
  | bare => exact .small (Nat.succ_pos 0) (by omega)
  | small hpos hle =>
    by_cases hlt : length < 4
    · rw [if_pos hlt]
      exact .small (Nat.succ_pos _) hlt
    · rw [if_neg hlt]
      exact .doubled (k := 0) (by omega) (by omega)
  | @doubled k _ hlt hle =>
    by_cases hroom : length < 4 * 2 ^ (k + 1)
    · rw [if_pos hroom]
      exact .doubled (Nat.lt_succ_of_lt hlt) hroom
    · have hdouble : max 4 (2 * (4 * 2 ^ (k + 1))) = 4 * 2 ^ (k + 1 + 1) := by
        rw [Nat.pow_succ 2 (k + 1)]
        omega
      rw [if_neg hroom, hdouble]
      refine .doubled (by omega) ?_
      rw [Nat.pow_succ 2 (k + 1)]
      omega

/-- No power of two lies between two powers that follow each other. -/
theorem full_iff (h : Housed room length) : room ≤ length ↔ TableFull length := by
  cases h with
  | bare => exact ⟨fun _ => .inl rfl, fun _ => Nat.le_refl 0⟩
  | small hpos hle =>
    constructor
    · intro hge
      exact .inr ⟨0, by omega⟩
    · rintro (hzero | ⟨j, rfl⟩)
      · omega
      · have hone := Nat.one_le_two_pow (n := j)
        omega
  | @doubled k _ hlt hle =>
    constructor
    · intro hge
      exact .inr ⟨k + 1, by omega⟩
    · rintro (hzero | ⟨j, rfl⟩)
      · omega
      · have hj : k < j := (Nat.pow_lt_pow_iff_right (by decide)).mp (by omega : 2 ^ k < 2 ^ j)
        exact Nat.mul_le_mul_left 4 (Nat.pow_le_pow_right (by decide) hj)

end Housed

theorem Heap.Changes.housed {s t : Heap} {c : Change} (hc : s.Changes c t) (_ : s.Sound)
    (h : Housed s.room s.slots.length) : Housed t.room t.slots.length := by
  cases hc with
  | reuse | retain | release | write | destroy =>
    simpa [Heap.occupy, Heap.put, Heap.vacate] using h
  | extend =>
    rw [Heap.extend, List.length_append]
    exact h.grow

theorem Session.housed_leave (settings : Settings) (script : List (Allowance × Operation)) :
    Housed ((ofSettings settings).leave script).heap.room
      ((ofSettings settings).leave script).heap.slots.length :=
  keeps_of_changes (P := fun s => Housed s.room s.slots.length) .bare Heap.Changes.housed script

namespace Heap

variable {s : Heap} {allowance : Allowance} {value : Value}

/-- A slot that is free is used again, whatever the memory grants. -/
theorem insert_of_free (hfree : s.free ≠ []) (hlimit : ¬s.AtLimit) :
    (s.insert allowance value).result = .ok s.nextHandle := by
  rw [← atLiveLimit_iff] at hlimit
  obtain ⟨index, free, hcons⟩ := List.exists_cons_of_ne_nil hfree
  rw [insert, if_neg hlimit, hcons]

/-- When the table may not grow, a creation fails for want of a slot and for no other reason. -/
theorem insert_fails_iff (hlength : s.slots.length < maxSlots) (hlimit : ¬s.AtLimit)
    (htable : allowance.table = false) :
    (∃ fault, (s.insert allowance value).result = .error fault) ↔ s.NeedsTable := by
  simp only [insert_error_iff hlength, hlimit, htable, false_and, false_or, not_false_eq_true,
    true_and, exists_and_left, exists_eq, and_true]

theorem createText_fails_iff (hlength : s.slots.length < maxSlots) (hlimit : ¬s.AtLimit)
    (htable : allowance.table = false)
    (hstorage : allowance.storage (max s.settings.initialCapacity 1) = true) :
    (∃ fault, (s.createText allowance).result = .error fault) ↔ s.NeedsTable := by
  simp only [createText_error_iff hlength, hlimit, htable, hstorage, Bool.true_eq_false, false_and,
    false_or, not_false_eq_true, true_and, exists_and_left, exists_eq, and_true]

theorem needsTable_iff (hs : s.Sound) (hhoused : Housed s.room s.slots.length) :
    s.NeedsTable ↔ s.census .free = 0 ∧ TableFull s.slots.length := by
  rw [NeedsTable, hs.census_free, List.length_eq_zero_iff, hhoused.full_iff]

/-- A heap takes no slot more than its values needed when the most of them were alive, and a
creation fails for want of a slot only when none is free and the table is full. -/
structure Economical (s : Heap) (most : Nat) : Prop where
  length_le : s.slots.length ≤ most + s.census .retired
  length_eq : s.census .retired = 0 → s.slots.length = most
  reused : s.census .retired = 0 → s.counters.live < most → ¬s.AtLimit →
    ∀ allowance n, (s.createInteger allowance n).result = .ok s.nextHandle
  integer_fails_iff : s.slots.length < maxSlots → ¬s.AtLimit →
    ∀ allowance n, allowance.table = false →
      ((∃ fault, (s.createInteger allowance n).result = .error fault) ↔
        s.census .free = 0 ∧ TableFull s.slots.length)
  text_fails_iff : s.slots.length < maxSlots → ¬s.AtLimit →
    ∀ allowance, allowance.table = false →
      allowance.storage (max s.settings.initialCapacity 1) = true →
        ((∃ fault, (s.createText allowance).result = .error fault) ↔
          s.census .free = 0 ∧ TableFull s.slots.length)

end Heap

/-- After every run the heap is economical, measured by the most values alive at one time in it. -/
theorem slot_economy_law (settings : Settings) (script : List (Allowance × Operation)) :
    ((Session.ofSettings settings).leave script).heap.Economical
      (peak ((Session.ofSettings settings).history script)) := by
  have hs := Session.sound_leave settings script
  have htally := Session.tallied_leave settings script
  have hthrifty := Session.thrifty_leave settings script
  have hneeds := Heap.needsTable_iff hs (Session.housed_leave settings script)
  refine ⟨hthrifty.length_le hs htally, ?_, ?_, ?_, ?_⟩
  · intro hretired
    have hle := hthrifty.length_le hs htally
    rw [hretired] at hle
    exact Nat.le_antisymm hle hthrifty.le_length
  · intro hretired hbelow hlimit allowance n
    exact Heap.insert_of_free (hthrifty.free_ne_nil hs htally hretired hbelow) hlimit
  · intro hlength hlimit allowance n htable
    exact (Heap.insert_fails_iff hlength hlimit htable).trans hneeds
  · intro hlength hlimit allowance htable hstorage
    exact (Heap.createText_fails_iff hlength hlimit htable hstorage).trans hneeds

/-- A line alone leaves no value, and yet the slot that its temporary text took. -/
example :
    let script := [(Allowance.ample, Operation.readLine)]
    peak ((Session.ofSettings .standard).history script) = 1 ∧
      ((Session.ofSettings .standard).leave script).heap.slots.length = 1 ∧
      ((Session.ofSettings .standard).leave script).heap.counters.live = 0 := by decide

end CountedHeap
