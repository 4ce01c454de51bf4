import CountedHeap.Proofs.Step

/-! A line that is read leaves the heap as it was found, however the reading ends. All that shows
that there was a temporary text are two counters and one vacant slot. -/
namespace CountedHeap

namespace Heap

/-- What is left of a temporary text in the table and on the free list: the slot that it took has
moved on by one generation, or is retired, or is new. -/
inductive Vacated (s t : Heap) (line : Handle) : Prop
  | again {free : List Nat} (hlt : line.generation < lastGeneration)
      (hbefore : s.slots[line.index]? = some ⟨line.generation, none⟩)
      (hfree : s.free = line.index :: free)
      (hslots : t.slots = s.slots.set line.index ⟨line.generation + 1, none⟩)
      (hsame : t.free = s.free) (hroom : t.room = s.room)
  | retired {free : List Nat} (hlast : line.generation = lastGeneration)
      (hbefore : s.slots[line.index]? = some ⟨line.generation, none⟩)
      (hfree : s.free = line.index :: free)
      (hslots : t.slots = s.slots) (hrest : t.free = free) (hroom : t.room = s.room)
  | added (hfree : s.free = []) (hline : line = ⟨s.slots.length, 0⟩)
      (hslots : t.slots = s.slots ++ [⟨1, none⟩]) (hadded : t.free = [line.index])
      (hroom : t.room = s.grownRoom)

variable {s u : Heap} {line : Handle} {value : Value}

theorem room_create (hc : Changes s (.create line value) u) :
    u.room = if s.free = [] then s.grownRoom else s.room := by
  cases hc with
  | reuse _ _ hfree =>
    rw [if_neg (by simp [hfree])]
    rfl
  | extend _ _ hfree =>
    rw [if_pos hfree]
    rfl

/-- The slot of a value that is created, written and destroyed. -/
theorem vacated_of_create (hc : Changes s (.create line value) u) (hs : s.Sound) (e : Entry) :
    Vacated s ((u.put line e).vacate line) line := by
  -- Whatever was written in between, in the end only the slot of the line is another than before.
  have hafter : ∀ i, ((u.put line e).vacate line).slots[i]? =
      if line.index = i then some (vacant line) else s.slots[i]? := by
    intro i
    rw [getElem?_vacate, getElem?_put]
    split
    · next hi =>
      rw [← hi, slot_after_create hc hs]
      rfl
    · next hi => exact (hc.other_slot hi).1
  have hle : line.generation ≤ lastGeneration := by
    have hfind := phase_eq_live_iff.mp (phase_created hc hs)
    exact ((hc.sound hs).of_find? hfind).1
  have hroom : ((u.put line e).vacate line).room = if s.free = [] then s.grownRoom else s.room := by
    change u.room = _
    exact room_create hc
  have hfree : ((u.put line e).vacate line).free =
      if exhausted line then u.free else line.index :: u.free := rfl
  obtain ⟨-, hnew, hnone⟩ | ⟨hbefore, -, hfirst⟩ := slot_before_create hc hs
  · have hnot : exhausted line = false := by rw [hnew]; rfl
    have hvacant : vacant line = ⟨1, none⟩ := by rw [vacant, hnot, hnew]; rfl
    refine .added hnone hnew ?_ ?_ ?_
    · apply List.ext_getElem?
      intro i
      rw [hafter, getElem?_snoc, hvacant, hnew]
    · rw [hfree, hnot, hc.free_create, hnone]
      rfl
    · rw [hroom, if_pos hnone]
  · rw [if_neg (by simp [hfirst])] at hroom
    have hsame : ∀ i, line.index = i → s.slots[i]? = some ⟨line.generation, none⟩ := by
      rintro i rfl
      exact hbefore
    by_cases hlast : line.generation = lastGeneration
    · have hexhausted : exhausted line = true := decide_eq_true (Nat.le_of_eq hlast.symm)
      refine .retired hlast hbefore hfirst ?_ ?_ hroom
      · apply List.ext_getElem?
        intro i
        rw [hafter, vacant, hexhausted]
        split
        · next hi => exact (hsame i hi).symm
        · rfl
      · rw [hfree, if_pos hexhausted]
    · have hlt : line.generation < lastGeneration := Nat.lt_of_le_of_ne hle hlast
      have hexhausted : exhausted line = false := decide_eq_false (Nat.not_le_of_lt hlt)
      refine .again hlt hbefore hfirst ?_ ?_ hroom
      · apply List.ext_getElem?
        intro i
        have hlength := (List.getElem?_eq_some_iff.mp hbefore).1
        rw [hafter, vacant, hexhausted, List.getElem?_set, if_pos hlength]
        rfl
      · rw [hfree, hexhausted, hfirst]
        rfl

theorem counters_of_create (hc : Changes s (.create line value) u) (e : Entry) :
    ((u.put line e).vacate line).settings = s.settings ∧
      ((u.put line e).vacate line).counters =
        ⟨s.counters.created + 1, s.counters.destroyed + 1, s.counters.live⟩ := by
  cases hc <;> exact ⟨rfl, rfl⟩

/-- No handle is touched by a line. That of the temporary text was stale and is stale again. -/
theorem Path.line_find? {s t : Heap} {line : Handle} {old new : Text.Buffer}
    (hpath : Path s [.create line (.text old), .write line new, .destroy line] t) (hs : s.Sound)
    (h : Handle) : t.find? h = s.find? h := by
  by_cases hline : h = line
  · subst hline
    obtain ⟨hbefore, hafter⟩ := hpath.line_phase hs
    rw [find?_eq_none_iff.mpr (.inl hbefore), find?_eq_none_iff.mpr (.inr hafter)]
  · apply find?_congr
    apply hpath.phase_other hs
    simpa [Change.handle] using hline

end Heap

/-- The heap after a line. Without a temporary text nothing was done at all. With one, every handle
names what it named, two counters have grown, one vacant slot has moved on, and what the assembly
came to is reported. -/
theorem line_frame_law {s : Heap} (hs : s.Reachable) (allowance : Allowance)
    (input : List Arrival) :
    let outcome := s.readLine allowance input
    (∀ fault, (s.createText allowance).result = .error fault →
      outcome.result = .error fault ∧ outcome.heap = s ∧ outcome.rest = input) ∧
    ∀ line, (s.createText allowance).result = .ok line →
      (∀ h, outcome.heap.find? h = s.find? h) ∧
      outcome.heap.settings = s.settings ∧
      outcome.heap.counters =
        ⟨s.counters.created + 1, s.counters.destroyed + 1, s.counters.live⟩ ∧
      s.Vacated outcome.heap line ∧
      ((s.assembleLine allowance line input).heap.release line).result = .ok (.destroyed .text) ∧
      (∀ fault, (s.assembleLine allowance line input).result = .error fault →
        outcome.result = .error fault) ∧
      ∀ count, (s.assembleLine allowance line input).result = .ok count →
        ∃ text, (s.assembleLine allowance line input).heap.buffer line = .ok text ∧
          outcome.result = .ok text.content := by
  intro outcome
  constructor
  · intro fault hfault
    obtain ⟨_, -, -, hcreated⟩ | ⟨shortage, hrefused⟩ := s.createText_cases allowance
    · cases hcreated.symm.trans hfault
    · obtain rfl : Fault.allocation shortage = fault := by
        simpa [hrefused, Heap.refuse] using hfault
      have hline : outcome = _ := Heap.readLine_of_refused hrefused input
      rw [hline]
      exact ⟨rfl, rfl, rfl⟩
  · intro line hcreated
    obtain ⟨old, new, hrun⟩ := Heap.readLine_of_created hs.sound hcreated input
    have hheap : outcome.heap = _ := hrun.heap
    have hresult : outcome.result = _ := hrun.result
    rw [hrun.assembled] at hheap
    obtain ⟨hsettings, hcounters⟩ := Heap.counters_of_create hrun.created ⟨1, .text new⟩
    have hvacated := Heap.vacated_of_create hrun.created hs.sound ⟨1, .text new⟩
    rw [← hheap] at hsettings hcounters hvacated
    have hrelease := congrArg Outcome.result hrun.released
    refine ⟨hrun.path.line_find? hs.sound, hsettings, hcounters, hvacated, hrelease, ?_, ?_⟩
    · intro fault hfault
      rw [hresult, hfault]
      rfl
    · intro count hcount
      have hfind := Heap.phase_eq_live_iff.mp (Heap.phase_created hrun.created hs.sound)
      refine ⟨new, ?_, ?_⟩
      · rw [hrun.assembled, Heap.buffer_eq_ok_iff]
        exact ⟨1, Heap.find?_put _ hfind⟩
      · rw [hresult, hcount]
        rfl

/-- A line that fails in the middle of a character, in a heap with a vacant slot. -/
theorem line_frame_of_failure :
    let s := ((Session.ofSettings .standard).leave
      [(.ample, .createInteger 1), (.ample, .createInteger 2), (.ample, .release ⟨0, 0⟩)]).heap
    let input := [.octet 0x68, .octet 0xC3, .failure .timedOut, .octet 0x78]
    s.Reachable ∧ (∀ h, (s.readLine .ample input).heap.find? h = s.find? h) ∧
      s.Vacated (s.readLine .ample input).heap ⟨0, 1⟩ ∧
      (s.readLine .ample input).result = .error (.transfer .timedOut) := by
  intro s input
  have hs : s.Reachable := ⟨_, _, rfl⟩
  obtain ⟨-, hline⟩ := line_frame_law hs .ample input
  obtain ⟨hfind, -, -, hvacated, -, hfault, -⟩ := hline ⟨0, 1⟩ rfl
  exact ⟨hs, hfind, hvacated, hfault _ rfl⟩

end CountedHeap
