import CountedHeap.Proofs.History
import CountedHeap.Proofs.Operation

/-! Operations on different handles may be done in either order. What an operation answers and does
hangs on the entry that its handle names, and it reaches no more than the slot of that entry, two
counters and the free list. Only the free list can tell the order, and only if both operations put a
slot on it. -/
namespace CountedHeap

/-- The operation takes an owner on or off a handle, or appends to its text. -/
inductive Operation.Touches (h : Handle) : Operation → Prop
  | retain : Touches h (.retain h)
  | release : Touches h (.release h)
  | append (text : List Char) : Touches h (.append h text)

/-- The step has destroyed the value of the handle, and its slot is free to be used again. -/
def Report.Frees (r : Report) (h : Handle) : Prop :=
  (∃ kind, r.result = .ok (.released (.destroyed kind))) ∧ Heap.exhausted h = false

/-- What becomes of the entry that a handle names. -/
inductive Fate where
  | kept
  | changed (e : Entry)
  | gone

namespace Fate

def slot (h : Handle) : Fate → Slot → Slot
  | kept, slot => slot
  | changed e, slot => { slot with entry := some e }
  | gone, _ => Heap.vacant h

/-- What is put on the free list. -/
def freed (h : Handle) : Fate → List Nat
  | gone => if Heap.exhausted h then [] else [h.index]
  | _ => []

def count : Fate → Counters → Counters
  | gone, c => { c with destroyed := c.destroyed + 1, live := c.live - 1 }
  | _, c => c

theorem count_comm (first second : Fate) (c : Counters) :
    first.count (second.count c) = second.count (first.count c) := by
  cases first <;> cases second <;> rfl

theorem freed_of_gone {fate : Fate} {h : Handle}
    (hgone : fate = .gone ∧ Heap.exhausted h = false) : fate.freed h = [h.index] := by
  rw [hgone.1, freed, hgone.2]
  rfl

theorem freed_of_not_gone {fate : Fate} {h : Handle}
    (hkept : ¬(fate = .gone ∧ Heap.exhausted h = false)) : fate.freed h = [] := by
  cases fate with
  | kept | changed => rfl
  | gone => simpa [freed] using hkept

end Fate

namespace Heap

/-- Lets the entry that a handle names meet its fate. -/
def meet (s : Heap) (h : Handle) (fate : Fate) : Heap :=
  { s with
    slots := s.slots.modify h.index (fate.slot h)
    free := fate.freed h ++ s.free
    counters := fate.count s.counters }

variable {s : Heap} {a b h : Handle}

@[simp] theorem meet_kept (s : Heap) (h : Handle) : s.meet h .kept = s := by
  have hslots : s.slots.modify h.index (Fate.kept.slot h) = s.slots := List.modify_id ..
  rw [meet, hslots]
  rfl

theorem meet_gone (s : Heap) (h : Handle) : s.meet h .gone = s.vacate h := by
  have hfree : Fate.gone.freed h ++ s.free = if exhausted h then s.free else h.index :: s.free := by
    unfold Fate.freed
    cases exhausted h <;> rfl
  rw [meet, hfree]
  rfl

/-- What an entry meets is nothing to other handles, be they of the same slot. -/
theorem find?_meet {fate : Fate} (hne : b ≠ a) (hstale : s.find? a = none → fate = .kept) :
    (s.meet a fate).find? b = s.find? b := by
  cases hfind : s.find? a with
  | none => rw [hstale hfind, meet_kept]
  | some e =>
    by_cases hindex : a.index = b.index
    · -- The slot is of the generation of one of the handles only, now as before.
      have hgeneration : a.generation ≠ b.generation := fun heq => hne (Handle.ext hindex heq).symm
      have hslot := find?_eq_some_iff.mp hfind
      rw [hindex] at hslot
      unfold find? meet
      rw [List.getElem?_modify, hslot]
      cases fate <;> simp [Fate.slot, vacant, hindex, hgeneration]
    · unfold find? meet
      simp only [List.getElem?_modify, if_neg hindex]
      cases s.slots[b.index]? <;> rfl

/-- Two live handles are of two slots. -/
theorem index_ne {d e : Entry} (hne : a ≠ b) (ha : s.find? a = some d) (hb : s.find? b = some e) :
    a.index ≠ b.index := by
  intro hindex
  have hslot := find?_eq_some_iff.mp ha
  rw [hindex, find?_eq_some_iff.mp hb, Option.some.injEq, Slot.mk.injEq] at hslot
  exact hne (Handle.ext hindex hslot.1.symm)

/-- Two entries may meet their fates in either order, but for the order of the slots freed. -/
theorem meet_comm {first second : Fate} (hne : a ≠ b) (ha : s.find? a = none → first = .kept)
    (hb : s.find? b = none → second = .kept) :
    (s.meet a first).meet b second =
      { (s.meet b second).meet a first with
        free := second.freed b ++ (first.freed a ++ s.free) } := by
  cases hfirst : s.find? a with
  | none =>
    rw [ha hfirst, meet_kept, meet_kept]
    rfl
  | some d =>
    cases hsecond : s.find? b with
    | none =>
      rw [hb hsecond, meet_kept, meet_kept]
      rfl
    | some e =>
      have hslots := List.modify_modify_ne (first.slot a) (second.slot b) s.slots
        (index_ne hne hfirst hsecond)
      simp only [meet, hslots, Fate.count_comm second first]

end Heap

/-- What an operation on a handle comes to, wherever the handle names this entry. -/
structure Reaction (operation : Operation) (allowance : Allowance) (h : Handle)
    (entry : Option Entry) where
  result : Except Fault Answer
  log : List Event
  fate : Fate
  step_eq : ∀ s : Session, s.heap.find? h = entry →
    s.step allowance operation = ⟨result, log, [], { s with heap := s.heap.meet h fate }⟩
  kept_of_stale : entry = none → fate = .kept
  gone_iff : fate = .gone ↔ ∃ kind, result = .ok (.released (.destroyed kind))

namespace Reaction

/-- Only the value of a live handle can be gone. -/
theorem exists_entry_of_gone {operation : Operation} {allowance : Allowance} {h : Handle}
    {entry : Option Entry} (r : Reaction operation allowance h entry) (hgone : r.fate = .gone) :
    ∃ e, entry = some e := by
  cases entry with
  | none => cases hgone.symm.trans (r.kept_of_stale rfl)
  | some e => exact ⟨e, rfl⟩

variable (allowance : Allowance) (h : Handle)

theorem exists_retain (entry : Option Entry) :
    Nonempty (Reaction (.retain h) allowance h entry) := by
  cases entry with
  | none =>
    refine ⟨⟨.error (.staleHandle h), [.staleRetain h], .kept, ?_, fun _ => rfl, by simp⟩⟩
    intro s hfind
    simp [Session.step, Session.change, Heap.retain, hfind, Except.map]
  | some e =>
    by_cases hroom : e.refcount < Heap.maxRefcount
    · refine ⟨⟨.ok (.count (e.refcount + 1)), [.retained h (e.refcount + 1)],
        .changed { e with refcount := e.refcount + 1 }, ?_, by simp, by simp⟩⟩
      intro s hfind
      rw [Session.step, Heap.retain_of_room hfind hroom]
      rfl
    · refine ⟨⟨.error (.refcountOverflow h), [], .kept, ?_, by simp, by simp⟩⟩
      intro s hfind
      simp [Session.step, Session.change, Heap.retain, Heap.refuse, hfind, hroom, Except.map]

theorem exists_release (entry : Option Entry) :
    Nonempty (Reaction (.release h) allowance h entry) := by
  cases entry with
  | none =>
    refine ⟨⟨.error (.staleHandle h), [.staleRelease h], .kept, ?_, fun _ => rfl, by simp⟩⟩
    intro s hfind
    simp [Session.step, Session.change, Heap.release, hfind, Except.map]
  | some e =>
    by_cases hshared : 1 < e.refcount
    · refine ⟨⟨.ok (.released (.retained (e.refcount - 1))), [.released h (e.refcount - 1)],
        .changed { e with refcount := e.refcount - 1 }, ?_, by simp, by simp⟩⟩
      intro s hfind
      rw [Session.step, Heap.release_of_shared hfind hshared]
      rfl
    · refine ⟨⟨.ok (.released (.destroyed e.value.kind)), Heap.farewell h e.value, .gone, ?_,
        by simp, by simp⟩⟩
      intro s hfind
      rw [Session.step, Heap.release_of_last hfind hshared, Heap.meet_gone]
      rfl

theorem exists_append (text : List Char) (entry : Option Entry) :
    Nonempty (Reaction (.append h text) allowance h entry) := by
  match entry with
  | none =>
    refine ⟨⟨.error (.staleHandle h), [], .kept, ?_, fun _ => rfl, by simp⟩⟩
    intro s hfind
    simp [Session.step, Session.change, Heap.append, Heap.buffer, Heap.refuse, hfind, Except.map]
  | some ⟨n, .integer i⟩ =>
    refine ⟨⟨.error (.kindMismatch h .text .integer), [], .kept, ?_, by simp, by simp⟩⟩
    intro s hfind
    simp [Session.step, Session.change, Heap.append, Heap.buffer, Heap.refuse, hfind, Except.map]
  | some ⟨n, .text old⟩ =>
    cases happend : old.append? allowance.storage text with
    | none =>
      refine ⟨⟨.error (.allocation .moreText), [], .kept, ?_, by simp, by simp⟩⟩
      intro s hfind
      rw [Session.step, Heap.append_of_find? allowance text hfind, happend, Heap.meet_kept]
      rfl
    | some new =>
      refine ⟨⟨.ok .done, [], .changed ⟨n, .text new⟩, ?_, by simp, by simp⟩⟩
      intro s hfind
      rw [Session.step, Heap.append_of_find? allowance text hfind, happend]
      rfl

variable {h}

theorem exists_of_touches {operation : Operation} (htouches : operation.Touches h)
    (entry : Option Entry) : Nonempty (Reaction operation allowance h entry) := by
  cases htouches with
  | retain => exact exists_retain allowance h entry
  | release => exact exists_release allowance h entry
  | append text => exact exists_append allowance h text entry

end Reaction

/-- Operations on different handles come to the same in either order: they answer and log the same,
and the heaps that they leave differ at most in the free list. There they do if both operations have
put a slot on it, and then in the order of these two slots alone. -/
theorem commutation_law (s : Session) {a b : Handle} (hne : a ≠ b) {first second : Operation}
    (hfirst : first.Touches a) (hsecond : second.Touches b) (forFirst forSecond : Allowance) :
    let onFirst := s.step forFirst first
    let onSecond := s.step forSecond second
    let ab := onFirst.session.step forSecond second
    let ba := onSecond.session.step forFirst first
    ba.result = onFirst.result ∧ ab.result = onSecond.result ∧
    ba.log = onFirst.log ∧ ab.log = onSecond.log ∧
    ab.session.heap = { ba.session.heap with free := ab.session.heap.free } ∧
    (onFirst.Frees a ∧ onSecond.Frees b → a.index ≠ b.index ∧
      ab.session.heap.free = b.index :: a.index :: s.heap.free ∧
      ba.session.heap.free = a.index :: b.index :: s.heap.free) ∧
    (¬(onFirst.Frees a ∧ onSecond.Frees b) → ab.session.heap = ba.session.heap) := by
  intro onFirst onSecond ab ba
  obtain ⟨ra⟩ := Reaction.exists_of_touches forFirst hfirst (s.heap.find? a)
  obtain ⟨rb⟩ := Reaction.exists_of_touches forSecond hsecond (s.heap.find? b)
  have hone : onFirst = _ := ra.step_eq s rfl
  have htwo : onSecond = _ := rb.step_eq s rfl
  -- Each operation meets the same entry when it comes second.
  have hab : ab = ⟨rb.result, rb.log, [],
      { s with heap := (s.heap.meet a ra.fate).meet b rb.fate }⟩ := by
    change onFirst.session.step forSecond second = _
    rw [hone]
    exact rb.step_eq _ (Heap.find?_meet hne.symm ra.kept_of_stale)
  have hba : ba = ⟨ra.result, ra.log, [],
      { s with heap := (s.heap.meet b rb.fate).meet a ra.fate }⟩ := by
    change onSecond.session.step forFirst first = _
    rw [htwo]
    exact ra.step_eq _ (Heap.find?_meet hne rb.kept_of_stale)
  have hcomm := Heap.meet_comm hne ra.kept_of_stale rb.kept_of_stale
  have hfrees : onFirst.Frees a ↔ ra.fate = .gone ∧ Heap.exhausted a = false := by
    rw [hone, ra.gone_iff]
    rfl
  have hfreesToo : onSecond.Frees b ↔ rb.fate = .gone ∧ Heap.exhausted b = false := by
    rw [htwo, rb.gone_iff]
    rfl
  have hsame : ab.session.heap = { ba.session.heap with free := ab.session.heap.free } := by
    rw [hab, hba]
    exact hcomm
  have hfree : ab.session.heap.free = rb.fate.freed b ++ (ra.fate.freed a ++ s.heap.free) := by
    rw [hab]
    rfl
  have hfreeToo : ba.session.heap.free = ra.fate.freed a ++ (rb.fate.freed b ++ s.heap.free) := by
    rw [hba]
    rfl
  refine ⟨?_, ?_, ?_, ?_, hsame, ?_, ?_⟩
  · rw [hba, hone]
  · rw [hab, htwo]
  · rw [hba, hone]
  · rw [hab, htwo]
  · rintro ⟨hgone, hgoneToo⟩
    rw [hfrees] at hgone
    rw [hfreesToo] at hgoneToo
    obtain ⟨d, hd⟩ := ra.exists_entry_of_gone hgone.1
    obtain ⟨e, he⟩ := rb.exists_entry_of_gone hgoneToo.1
    rw [hfree, hfreeToo, Fate.freed_of_gone hgone, Fate.freed_of_gone hgoneToo]
    exact ⟨Heap.index_ne hne hd he, rfl, rfl⟩
  · intro hnot
    have hequal : ab.session.heap.free = ba.session.heap.free := by
      rw [hfree, hfreeToo]
      rw [hfrees, hfreesToo] at hnot
      by_cases hgone : ra.fate = .gone ∧ Heap.exhausted a = false
      · rw [Fate.freed_of_not_gone fun hgoneToo => hnot ⟨hgone, hgoneToo⟩]
        rfl
      · rw [Fate.freed_of_not_gone hgone]
        rfl
    rw [hsame, hequal]

/-- Two values are destroyed in either order, and their slots are vacated in this order. -/
theorem commutation_of_releases :
    let s := (Session.ofSettings .standard).leave
      [(.ample, .createInteger 1), (.ample, .createInteger 2)]
    let ab := (s.step .ample (.release ⟨0, 0⟩)).session.step .ample (.release ⟨1, 0⟩)
    let ba := (s.step .ample (.release ⟨1, 0⟩)).session.step .ample (.release ⟨0, 0⟩)
    (⟨0, 0⟩ : Handle) ≠ ⟨1, 0⟩ ∧ (Operation.release ⟨0, 0⟩).Touches ⟨0, 0⟩ ∧
      (Operation.release ⟨1, 0⟩).Touches ⟨1, 0⟩ ∧
      ab.session.heap = { ba.session.heap with free := ab.session.heap.free } ∧
      ab.session.heap.free = [1, 0] ∧ ba.session.heap.free = [0, 1] := by
  intro s ab ba
  have hne : (⟨0, 0⟩ : Handle) ≠ ⟨1, 0⟩ := by decide
  obtain ⟨-, -, -, -, hsame, hfreed, -⟩ :=
    commutation_law s hne .release .release Allowance.ample Allowance.ample
  obtain ⟨-, hab, hba⟩ := hfreed ⟨⟨⟨.integer, rfl⟩, rfl⟩, ⟨⟨.integer, rfl⟩, rfl⟩⟩
  exact ⟨hne, .release, .release, hsame, hab, hba⟩

end CountedHeap
