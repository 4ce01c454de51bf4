import CountedHeap.Proofs.Isolation
import CountedHeap.Proofs.Storage

/-! What a text holds, told from what was written to it: what it began with, and behind that, of
every text whose append was not refused, what stands before the first terminator. -/
namespace CountedHeap

namespace Text.Buffer

/-- The buffers that can be had. -/
inductive Made : Buffer → Prop
  | fresh : Made fresh
  | ofCapacity {grant : Nat → Bool} {growth : Growth} {capacity : Nat} {b : Buffer}
      (hgranted : ofCapacity? grant growth capacity = some b) : Made b
  | copy {b : Buffer} (hb : Made b) : Made b.copy
  | append {grant : Nat → Bool} {text : List Char} {b new : Buffer} (hb : Made b)
      (happend : b.append? grant text = some new) : Made new

/-- A buffer to begin with, and what it holds then. -/
inductive Obtained : Buffer → List Char → Prop
  | fresh : Obtained fresh []
  | ofCapacity {grant : Nat → Bool} {growth : Growth} {capacity : Nat} {b : Buffer}
      (hgranted : ofCapacity? grant growth capacity = some b) : Obtained b []
  | copy {b : Buffer} (hb : Made b) : Obtained b.copy b.content

/-- The content can be told from the terminator, and both have room. -/
structure Terminated (b : Buffer) : Prop where
  terminator_not_mem : terminator ∉ b.content
  used_le : b.used ≤ b.capacity

/-- What is read of a buffer goes together, and no step on its storage fails a check. -/
structure Legible (b : Buffer) : Prop where
  length : b.inMemory.length = .ok b.size
  content : b.inMemory.content = .ok b.content
  append : ∀ grant text,
    b.inMemory.append grant b.growth text = .ok ((b.append? grant text).map inMemory)
  size : b.size = (Text.octets b.content).length
  octets : b.octets = Text.octets b.content ++ [0]
  zero_not_mem : 0 ∉ Text.octets b.content
  capacity : b.size + 1 ≤ b.capacity

/-- A text to append, and the storage that is granted for it. -/
structure Attempt where
  grant : Nat → Bool
  text : List Char

/-- The buffer after an append, refused or not. -/
def attempt (b : Buffer) (a : Attempt) : Buffer := (b.append? a.grant a.text).getD b

def attempts (b : Buffer) (as : List Attempt) : Buffer := as.foldl attempt b

/-- The texts that were not refused. -/
def taken (b : Buffer) : List Attempt → List (List Char)
  | [] => []
  | a :: rest =>
    match b.append? a.grant a.text with
    | some new => a.text :: new.taken rest
    | none => b.taken rest

theorem terminator_not_mem_beforeTerminator (text : List Char) :
    terminator ∉ beforeTerminator text := by
  intro hmem
  have hother := List.all_eq_true.mp (List.all_takeWhile) _ hmem
  simp at hother

theorem terminated_empty (growth : Growth) (capacity : Nat) :
    (empty growth capacity).Terminated := by
  refine ⟨List.not_mem_nil, ?_⟩
  change 0 + 1 ≤ max capacity 1
  omega

theorem Terminated.copy {b : Buffer} (hb : b.Terminated) : b.copy.Terminated :=
  ⟨hb.terminator_not_mem, Nat.le_refl _⟩

theorem Terminated.append {b new : Buffer} {grant : Nat → Bool} {text : List Char}
    (hb : b.Terminated) (happend : b.append? grant text = some new) : new.Terminated := by
  obtain ⟨capacity, rfl, -, hroom⟩ := append?_eq_some happend
  constructor
  · rw [content_extend, List.mem_append]
    rintro (hmem | hmem)
    · exact hb.terminator_not_mem hmem
    · exact terminator_not_mem_beforeTerminator text hmem
  · have hused := hroom hb.used_le
    change b.size + Text.size (beforeTerminator text) + 1 ≤ capacity
    change b.size + 1 + Text.size (beforeTerminator text) ≤ capacity at hused
    omega

theorem Made.terminated {b : Buffer} (hb : b.Made) : b.Terminated := by
  induction hb with
  | fresh => exact terminated_empty .exactFit 1
  | ofCapacity hgranted =>
    rw [ofCapacity?_eq_some hgranted]
    exact terminated_empty _ _
  | copy _ ih => exact ih.copy
  | append _ happend ih => exact ih.append happend

theorem Made.legible {b : Buffer} (hb : b.Made) : b.Legible := by
  have hterminated := hb.terminated
  refine ⟨b.length_inMemory, b.content_inMemory, b.append_inMemory, ?_, ?_, ?_, ?_⟩
  · rw [Text.length_octets, size_content]
  · rw [octets, storage, Text.octets_append]
    rfl
  · rw [mem_octets_iff (by decide)]
    exact hterminated.terminator_not_mem
  · exact hterminated.used_le

theorem Obtained.made {b : Buffer} {start : List Char} (hb : b.Obtained start) : b.Made := by
  cases hb with
  | fresh => exact .fresh
  | ofCapacity hgranted => exact .ofCapacity hgranted
  | copy hb => exact .copy hb

theorem Obtained.content {b : Buffer} {start : List Char} (hb : b.Obtained start) :
    b.content = start := by
  cases hb with
  | fresh | copy => rfl
  | ofCapacity hgranted =>
    rw [ofCapacity?_eq_some hgranted]
    rfl

theorem Made.attempts {b : Buffer} (hb : b.Made) (as : List Attempt) : (b.attempts as).Made := by
  induction as generalizing b with
  | nil => exact hb
  | cons a as ih =>
    apply ih
    unfold attempt
    cases happend : b.append? a.grant a.text with
    | none => exact hb
    | some new => exact hb.append happend

theorem content_attempts (b : Buffer) (as : List Attempt) :
    (b.attempts as).content = b.content ++ (b.taken as).flatMap beforeTerminator := by
  induction as generalizing b with
  | nil => simp [attempts, taken]
  | cons a as ih =>
    change ((b.attempt a).attempts as).content = _
    rw [ih, attempt, taken]
    cases happend : b.append? a.grant a.text with
    | none => rfl
    | some new =>
      obtain ⟨capacity, rfl, -⟩ := append?_eq_some happend
      simp

theorem capacity_le_attempts (b : Buffer) (as : List Attempt) :
    b.capacity ≤ (b.attempts as).capacity := by
  induction as generalizing b with
  | nil => exact Nat.le_refl _
  | cons a as ih =>
    refine Nat.le_trans ?_ (ih (b.attempt a))
    unfold attempt
    cases happend : b.append? a.grant a.text with
    | none => exact Nat.le_refl _
    | some new =>
      obtain ⟨capacity, rfl, hle, -⟩ := append?_eq_some happend
      exact hle

end Text.Buffer

/-- What a step writes to a live text: a buffer of its own to begin with, or more text. -/
inductive Writing where
  | begun (buffer : Text.Buffer)
  | appended (text : List Char)

/-- What a text holds after a writing. -/
def Writing.onto (content : List Char) : Writing → List Char
  | .begun b => b.content
  | .appended text => content ++ Text.Buffer.beforeTerminator text

/-- The buffer that the caller puts in the place of another is one that can be had. -/
def Operation.Proper : Operation → Prop
  | .overwrite _ new => new.Made
  | _ => True

namespace Moment

/-- What the step writes to the text of a handle, told from the operation and its answer. -/
def writing? (m : Moment) (h : Handle) : Option Writing :=
  match m.operation, m.result with
  | .createText, .ok (.handle g) =>
    let settings := m.before.heap.settings
    if g = h then some (.begun (.empty settings.growth settings.initialCapacity)) else none
  | .append g text, .ok _ => if g = h then some (.appended text) else none
  | .appendFrom g source, .ok _ =>
    if g = h then (m.before.heap.read source).toOption.map fun view => .appended view.display
    else none
  | .replaceBuffer g _ _, .ok (.replaced _ new) => if g = h then some (.begun new) else none
  | .overwrite g buffer, .ok _ => if g = h then some (.begun buffer) else none
  | _, _ => none

/-- How the buffer of a live text comes out of a step. -/
inductive Brings (m : Moment) (h : Handle) (b : Text.Buffer) : Prop
  | begun (hwriting : m.writing? h = some (.begun b)) (hmade : m.operation.Proper → b.Made)
  | appended {text : List Char} {old : Text.Buffer}
      (hwriting : m.writing? h = some (.appended text))
      (hbefore : m.before.heap.buffer h = .ok old)
      (happend : old.append? m.allowance.storage text = some b)
  | kept (hwriting : m.writing? h = none) (hbefore : m.before.heap.buffer h = .ok b)

end Moment

/-- What was written to the text of a handle, taken together. -/
def written (past : List Moment) (h : Handle) : List Char :=
  (past.filterMap (·.writing? h)).foldl Writing.onto []

namespace Heap

variable {s t : Heap}

theorem buffer_of_live {h : Handle} {e : Entry} {b : Text.Buffer} (hlive : s.phase h = .live e)
    (hvalue : e.value = .text b) : s.buffer h = .ok b := by
  rw [buffer_eq_ok_iff]
  refine ⟨e.refcount, ?_⟩
  rw [phase_eq_live_iff.mp hlive, ← hvalue]

/-- A buffer that is found after a change was created, was written, or was there before. -/
theorem Changes.buffer_after {c : Change} (hc : Changes s c t) (hs : s.Sound) {h : Handle}
    {b : Text.Buffer} (hafter : t.buffer h = .ok b) :
    c = .create h (.text b) ∨ c = .write h b ∨ s.buffer h = .ok b := by
  obtain ⟨n, hfind⟩ := buffer_eq_ok_iff.mp hafter
  by_cases hne : h = c.handle
  · have hlive := phase_eq_live_iff.mpr hfind
    rw [hne] at hlive ⊢
    cases c with
    | create g value =>
      obtain ⟨-, hcreated⟩ := hc.create_phase hs
      cases hcreated.symm.trans hlive
      exact .inl rfl
    | retain g =>
      obtain ⟨e, hbefore, hretained⟩ := hc.retain_phase
      have hentry := Phase.live.inj (hretained.symm.trans hlive)
      exact .inr (.inr (buffer_of_live hbefore (congrArg Entry.value hentry)))
    | release g =>
      obtain ⟨e, -, hbefore, hreleased⟩ := hc.release_phase
      have hentry := Phase.live.inj (hreleased.symm.trans hlive)
      exact .inr (.inr (buffer_of_live hbefore (congrArg Entry.value hentry)))
    | destroy g =>
      obtain ⟨e, -, -, hspent⟩ := hc.destroy_phase hs
      cases hspent.symm.trans hlive
    | write g new =>
      obtain ⟨n, old, -, hwritten⟩ := hc.write_phase
      cases hwritten.symm.trans hlive
      exact .inr (.inl rfl)
  · rw [buffer_congr (find?_congr (hc.phase_other hs hne))] at hafter
    exact .inr (.inr hafter)

/-- A buffer that is found after an append has taken the text, or was there before. -/
theorem append_buffer (hs : s.Sound) {allowance : Allowance} {g h : Handle} {text : List Char}
    {b : Text.Buffer} (hafter : (s.append allowance g text).heap.buffer h = .ok b) :
    (g = h ∧ (s.append allowance g text).result = .ok () ∧
        ∃ old, s.buffer h = .ok old ∧ old.append? allowance.storage text = some b) ∨
      (s.buffer h = .ok b ∧
        (g ≠ h ∨ ∃ fault, (s.append allowance g text).result = .error fault)) := by
  cases hbuffer : s.buffer g with
  | error fault =>
    have hrefused : s.append allowance g text = s.refuse fault := by rw [append, hbuffer]
    rw [hrefused] at hafter ⊢
    exact .inr ⟨hafter, .inr ⟨fault, rfl⟩⟩
  | ok old =>
    obtain ⟨n, hfind⟩ := buffer_eq_ok_iff.mp hbuffer
    have happend := append_of_find? allowance text hfind
    cases hnew : old.append? allowance.storage text with
    | none =>
      rw [hnew] at happend
      rw [happend] at hafter ⊢
      exact .inr ⟨hafter, .inr ⟨_, rfl⟩⟩
    | some new =>
      rw [hnew] at happend
      rw [happend] at hafter ⊢
      by_cases hg : g = h
      · subst hg
        have hsame : (s.put g ⟨n, .text new⟩).buffer g = .ok new :=
          buffer_eq_ok_iff.mpr ⟨n, find?_put _ hfind⟩
        cases hsame.symm.trans hafter
        exact .inl ⟨rfl, rfl, old, hbuffer, hnew⟩
      · obtain hc | hc | hbefore := (Changes.write new hfind).buffer_after hs hafter
        · cases hc
        · cases hc
          exact absurd rfl hg
        · exact .inr ⟨hbefore, .inl hg⟩

end Heap

namespace Moment

theorem writing?_of_error {m : Moment} {fault : Fault} (hresult : m.result = .error fault)
    (h : Handle) : m.writing? h = none := by
  unfold writing?
  rw [hresult]
  split <;> first | rfl | contradiction

theorem brings_of_change {m : Moment} {c : Change} (hc : m.before.heap.Changes c m.after.heap)
    (hs : m.before.heap.Sound) {h : Handle} {b : Text.Buffer}
    (hafter : m.after.heap.buffer h = .ok b) (hwriting : m.writing? h = none)
    (hcreate : c ≠ .create h (.text b)) (hwrite : c ≠ .write h b) : m.Brings h b := by
  obtain heq | heq | hbefore := hc.buffer_after hs hafter
  · exact absurd heq hcreate
  · exact absurd heq hwrite
  · exact .kept hwriting hbefore

theorem brings_of_same {m : Moment} {h : Handle} {b : Text.Buffer}
    (hafter : m.after.heap.buffer h = .ok b) (hheap : m.after.heap = m.before.heap)
    (hwriting : m.writing? h = none) : m.Brings h b := by
  rw [hheap] at hafter
  exact .kept hwriting hafter

theorem brings_of_error {m : Moment} {h : Handle} {b : Text.Buffer} {fault : Fault}
    (hafter : m.after.heap.buffer h = .ok b) (hheap : m.after.heap = m.before.heap)
    (hresult : m.result = .error fault) : m.Brings h b :=
  brings_of_same hafter hheap (writing?_of_error hresult h)

theorem brings_of_append {m : Moment} {g h : Handle} {text : List Char}
    (hs : m.before.heap.Sound)
    (hheap : m.after.heap = (m.before.heap.append m.allowance g text).heap)
    (hresult : m.result = (m.before.heap.append m.allowance g text).result.map fun _ => .done)
    (hwriting : ∀ answer, m.result = .ok answer →
      m.writing? h = if g = h then some (.appended text) else none)
    {b : Text.Buffer} (hafter : m.after.heap.buffer h = .ok b) : m.Brings h b := by
  rw [hheap] at hafter
  obtain ⟨hg, hdone, old, hbefore, happend⟩ | ⟨hbefore, hother⟩ := Heap.append_buffer hs hafter
  · rw [hdone] at hresult
    have hwritten := hwriting _ hresult
    rw [if_pos hg] at hwritten
    exact .appended hwritten hbefore happend
  · refine .kept ?_ hbefore
    cases hm : m.result with
    | error fault => exact writing?_of_error hm h
    | ok answer =>
      rw [hwriting _ hm]
      apply if_neg
      obtain hg | ⟨fault, hfault⟩ := hother
      · exact hg
      · rw [hfault, hm] at hresult
        cases hresult

theorem brings_of_write {m : Moment} {g h : Handle} {new : Text.Buffer}
    (hs : m.before.heap.Sound) (hc : m.before.heap.Changes (.write g new) m.after.heap)
    (hwriting : m.writing? h = if g = h then some (.begun new) else none)
    (hmade : m.operation.Proper → new.Made) {b : Text.Buffer}
    (hafter : m.after.heap.buffer h = .ok b) : m.Brings h b := by
  by_cases hg : g = h
  · rw [if_pos hg] at hwriting
    subst hg
    obtain ⟨n, old, -, hwritten⟩ := hc.write_phase
    have hnew : m.after.heap.buffer g = .ok new := Heap.buffer_of_live hwritten rfl
    cases hnew.symm.trans hafter
    exact .begun hwriting hmade
  · rw [if_neg hg] at hwriting
    refine brings_of_change hc hs hafter hwriting nofun ?_
    intro heq
    cases heq
    exact hg rfl

theorem brings_createText {s : Session} {allowance : Allowance} {h : Handle}
    {b : Text.Buffer} (hs : s.heap.Sound)
    (hafter : (Moment.after ⟨s, allowance, .createText⟩).heap.buffer h = .ok b) :
    Brings ⟨s, allowance, .createText⟩ h b := by
  obtain ⟨_, -, -, hcreated⟩ | ⟨shortage, hrefused⟩ := s.heap.createText_cases allowance
  · have hm : Moment.result ⟨s, allowance, .createText⟩ = .ok (.handle s.heap.nextHandle) := by
      change (s.heap.createText allowance).result.map Answer.handle = _
      rw [hcreated]
      rfl
    obtain ⟨old, hold, hc⟩ := Heap.createText_created hcreated
    have hempty := Text.Buffer.ofCapacity?_eq_some hold
    have hwriting : Moment.writing? ⟨s, allowance, .createText⟩ h =
        if s.heap.nextHandle = h then some (.begun old) else none := by
      rw [hempty]
      unfold writing?
      rw [hm]
    obtain heq | heq | hbefore := hc.buffer_after hs hafter
    · cases heq
      rw [if_pos rfl] at hwriting
      exact .begun hwriting fun _ => .ofCapacity hold
    · cases heq
    · refine .kept ?_ hbefore
      rw [hwriting]
      apply if_neg
      rintro rfl
      -- The handle was unborn, so there was no buffer.
      obtain ⟨hunborn, -⟩ := hc.create_phase hs
      obtain ⟨n, hfind⟩ := Heap.buffer_eq_ok_iff.mp hbefore
      cases hunborn.symm.trans (Heap.phase_eq_live_iff.mpr hfind)
  · have hm : Moment.result ⟨s, allowance, .createText⟩ = .error (.allocation shortage) := by
      change (s.heap.createText allowance).result.map Answer.handle = _
      rw [hrefused]
      rfl
    exact brings_of_error hafter (congrArg Outcome.heap hrefused) hm

theorem brings_appendFrom {s : Session} {allowance : Allowance} {g source h : Handle}
    {b : Text.Buffer} (hs : s.heap.Sound)
    (hafter : (Moment.after ⟨s, allowance, .appendFrom g source⟩).heap.buffer h = .ok b) :
    Brings ⟨s, allowance, .appendFrom g source⟩ h b := by
  cases hread : s.heap.read source with
  | error fault =>
    have hrefused : s.heap.appendFrom allowance g source = s.heap.refuse fault := by
      rw [Heap.appendFrom, hread]
    have hm : Moment.result ⟨s, allowance, .appendFrom g source⟩ = .error fault := by
      change (s.heap.appendFrom allowance g source).result.map (fun _ => Answer.done) = _
      rw [hrefused]
      rfl
    exact brings_of_error hafter (congrArg Outcome.heap hrefused) hm
  | ok view =>
    have happend : s.heap.appendFrom allowance g source =
        s.heap.append allowance g view.display := by
      rw [Heap.appendFrom, hread]
    refine brings_of_append (m := ⟨s, allowance, .appendFrom g source⟩) hs
      (congrArg Outcome.heap happend)
      (congrArg (fun outcome => outcome.result.map fun _ => Answer.done) happend) ?_ hafter
    intro answer hanswer
    unfold writing?
    rw [hanswer]
    dsimp only
    rw [hread]
    rfl

theorem brings_replaceBuffer {s : Session} {allowance : Allowance} {g : Handle}
    {growth : Text.Growth} {capacity : Nat} {h : Handle} {b : Text.Buffer} (hs : s.heap.Sound)
    (hafter :
      (Moment.after ⟨s, allowance, .replaceBuffer g growth capacity⟩).heap.buffer h = .ok b) :
    Brings ⟨s, allowance, .replaceBuffer g growth capacity⟩ h b := by
  cases hbuffer : s.heap.buffer g with
  | error fault =>
    have hreport : s.replace allowance g growth capacity = s.observe (.error fault) := by
      rw [Session.replace, hbuffer]
    have hm : Moment.result ⟨s, allowance, .replaceBuffer g growth capacity⟩ = .error fault :=
      congrArg Report.result hreport
    exact brings_of_error hafter (congrArg (·.session.heap) hreport) hm
  | ok old =>
    cases hnew : Text.Buffer.ofCapacity? allowance.storage growth capacity with
    | none =>
      have hreport : s.replace allowance g growth capacity = s.observe (.ok .notReplaced) := by
        rw [Session.replace, hbuffer]
        dsimp only
        rw [hnew]
      refine brings_of_same hafter (congrArg (·.session.heap) hreport) ?_
      have hm : Moment.result ⟨s, allowance, .replaceBuffer g growth capacity⟩ =
        .ok .notReplaced := congrArg Report.result hreport
      unfold writing?
      rw [hm]
    | some new =>
      obtain ⟨n, hfind⟩ := Heap.buffer_eq_ok_iff.mp hbuffer
      have hreport : s.replace allowance g growth capacity =
          ⟨.ok (.replaced old new), [], [], { s with heap := s.heap.put g ⟨n, .text new⟩ }⟩ := by
        rw [Session.replace, hbuffer]
        dsimp only
        rw [hnew]
        dsimp only
        rw [Heap.replaceBuffer, hbuffer]
        dsimp only
        rw [Heap.setBuffer_eq new hfind]
        rfl
      have hc : s.heap.Changes (.write g new)
          (s.replace allowance g growth capacity).session.heap := by
        rw [hreport]
        exact .write new hfind
      refine brings_of_write hs hc ?_ (fun _ => .ofCapacity hnew) hafter
      have hm : Moment.result ⟨s, allowance, .replaceBuffer g growth capacity⟩ =
        .ok (.replaced old new) := congrArg Report.result hreport
      unfold writing?
      rw [hm]

/-- The buffer that is found after a step was begun by it, was written by it, or was there. -/
theorem brings (m : Moment) (hs : m.before.heap.Sound) {h : Handle} {b : Text.Buffer}
    (hafter : m.after.heap.buffer h = .ok b) : m.Brings h b := by
  obtain ⟨s, allowance, operation⟩ := m
  cases operation with
  | createInteger n =>
    obtain ⟨hc, -⟩ | ⟨shortage, hrefused⟩ := s.heap.insert_cases allowance (.integer n)
    · exact brings_of_change hc hs hafter rfl nofun nofun
    · exact brings_of_same hafter (congrArg Outcome.heap hrefused) rfl
  | createText => exact brings_createText hs hafter
  | retain g =>
    obtain ⟨e, hc, -⟩ | ⟨fault, -, hheap⟩ := s.heap.retain_cases g
    · exact brings_of_change hc hs hafter rfl nofun nofun
    · exact brings_of_same hafter hheap rfl
  | release g =>
    obtain ⟨e, hc, -⟩ | ⟨e, hc, -⟩ | ⟨-, -, hheap⟩ := s.heap.release_cases g
    · exact brings_of_change hc hs hafter rfl nofun nofun
    · exact brings_of_change hc hs hafter rfl nofun nofun
    · exact brings_of_same hafter hheap rfl
  | append g text =>
    refine brings_of_append (m := ⟨s, allowance, .append g text⟩) hs rfl rfl ?_ hafter
    intro answer hanswer
    unfold writing?
    rw [hanswer]
  | appendFrom g source => exact brings_appendFrom hs hafter
  | replaceBuffer g growth capacity => exact brings_replaceBuffer hs hafter
  | overwrite g new =>
    obtain ⟨old, hc, hresult⟩ | ⟨fault, hrefused⟩ := s.heap.replaceBuffer_cases g new
    · refine brings_of_write hs hc ?_ id hafter
      have hm : Moment.result ⟨s, allowance, .overwrite g new⟩ = .ok (.buffer old) := by
        change (s.heap.replaceBuffer g new).result.map Answer.buffer = _
        rw [hresult]
        rfl
      unfold writing?
      rw [hm]
    · have hm : Moment.result ⟨s, allowance, .overwrite g new⟩ = .error fault := by
        change (s.heap.replaceBuffer g new).result.map Answer.buffer = _
        rw [hrefused]
        rfl
      exact brings_of_error hafter (congrArg Outcome.heap hrefused) hm
  | readLine =>
    refine .kept rfl ?_
    rw [← hafter]
    symm
    exact Heap.buffer_congr (Heap.readLine_find? hs allowance s.input h)
  | refcount | kind | isLive | read | buffer | display | showTo | supply | settings | counters
  | compare | compareViews => exact .kept rfl hafter

end Moment

theorem written_append (past : List Moment) (m : Moment) (h : Handle) :
    written (past ++ [m]) h =
      match m.writing? h with
      | some writing => writing.onto (written past h)
      | none => written past h := by
  unfold written
  rw [List.filterMap_append, List.foldl_append, List.filterMap_cons]
  cases m.writing? h <;> rfl

/-- What every run keeps of its texts. -/
structure Composed (past : List Moment) (s : Heap) : Prop where
  sound : s.Sound
  text : (∀ m ∈ past, m.operation.Proper) → ∀ h b, s.buffer h = .ok b →
    b.Made ∧ b.content = written past h

theorem composed_step (past : List Moment) (m : Moment) (hpast : Composed past m.before.heap) :
    Composed (past ++ [m]) m.after.heap := by
  refine ⟨Session.sound_step hpast.sound m.allowance m.operation, ?_⟩
  intro hproper h b hafter
  have htext := hpast.text (fun m' hm' => hproper m' (List.mem_append_left _ hm')) h
  rw [written_append]
  cases m.brings hpast.sound hafter with
  | begun hwriting hmade =>
    rw [hwriting]
    exact ⟨hmade (hproper m (by simp)), rfl⟩
  | appended hwriting hbefore happend =>
    obtain ⟨hmade, hcontent⟩ := htext _ hbefore
    rw [hwriting]
    refine ⟨hmade.append happend, ?_⟩
    obtain ⟨capacity, rfl, -⟩ := Text.Buffer.append?_eq_some happend
    rw [Text.Buffer.content_extend, hcontent]
    rfl
  | kept hwriting hbefore =>
    rw [hwriting]
    exact htext _ hbefore

theorem composed (settings : Settings) (script : List (Allowance × Operation)) :
    Composed ((Session.ofSettings settings).history script)
      ((Session.ofSettings settings).leave script).heap := by
  refine Session.keeps (P := fun past s => Composed past s.heap) composed_step script [] _ ?_
  refine ⟨Heap.sound_ofSettings settings, ?_⟩
  intro _ h b hbuffer
  cases hbuffer

/-- A text that does not get another buffer never loses room. -/
theorem capacity_le_leave {s : Session} (hs : s.heap.Sound) {h : Handle} {b : Text.Buffer}
    (hb : s.heap.buffer h = .ok b) (more : List (Allowance × Operation))
    (hbegun : ∀ m ∈ s.history more, ∀ new, m.writing? h ≠ some (.begun new))
    {later : Text.Buffer} (hlater : (s.leave more).heap.buffer h = .ok later) :
    b.capacity ≤ later.capacity := by
  refine (Session.keeps (P := fun past t => t.heap.Sound ∧
    ((∀ m ∈ past, ∀ new, m.writing? h ≠ some (.begun new)) →
      ∀ later, t.heap.buffer h = .ok later → b.capacity ≤ later.capacity))
    ?_ more [] s ?_).2 hbegun later hlater
  · rintro past m ⟨hsound, hpast⟩
    refine ⟨Session.sound_step hsound m.allowance m.operation, ?_⟩
    intro hnone new hafter
    have hle := hpast fun m' hm' => hnone m' (List.mem_append_left _ hm')
    cases m.brings hsound hafter with
    | begun hwriting => exact absurd hwriting (hnone m (by simp) new)
    | appended _ hbefore happend =>
      obtain ⟨capacity, rfl, hgrown, -⟩ := Text.Buffer.append?_eq_some happend
      exact Nat.le_trans (hle _ hbefore) hgrown
    | kept _ hbefore => exact hle _ hbefore
  · refine ⟨hs, ?_⟩
    intro _ later hlater
    cases hb.symm.trans hlater
    exact Nat.le_refl _

/-- What a buffer holds after any appends, and what the buffer of a live text holds after any run.
Both are legible, and neither loses room as long as it is not put in the place of another. -/
theorem text_content_law :
    (∀ (b : Text.Buffer) (start : List Char), b.Obtained start →
      ∀ as : List Text.Buffer.Attempt,
        (b.attempts as).content = start ++ (b.taken as).flatMap Text.Buffer.beforeTerminator ∧
        (b.attempts as).Legible ∧
        ∀ more, (b.attempts as).capacity ≤ (b.attempts (as ++ more)).capacity) ∧
    ∀ (settings : Settings) (script : List (Allowance × Operation)),
      (∀ step ∈ script, step.2.Proper) → ∀ h b,
        let past := (Session.ofSettings settings).history script
        let s := (Session.ofSettings settings).leave script
        s.heap.buffer h = .ok b →
          b.Made ∧ b.content = written past h ∧ b.Legible ∧
          ∀ more, (∀ m ∈ s.history more, ∀ new, m.writing? h ≠ some (.begun new)) →
            ∀ later, (s.leave more).heap.buffer h = .ok later → b.capacity ≤ later.capacity := by
  constructor
  · intro b start hb as
    refine ⟨?_, (hb.made.attempts as).legible, ?_⟩
    · rw [Text.Buffer.content_attempts, hb.content]
    · intro more
      have hsplit : b.attempts (as ++ more) = (b.attempts as).attempts more :=
        List.foldl_append
      rw [hsplit]
      exact Text.Buffer.capacity_le_attempts _ more
  · intro settings script hproper h b past s hb
    have hcomposed := composed settings script
    obtain ⟨hmade, hcontent⟩ := hcomposed.text
      (fun m hm => hproper _ (Session.mem_of_mem_history hm)) h b hb
    refine ⟨hmade, hcontent, hmade.legible, ?_⟩
    intro more hbegun later hlater
    exact capacity_le_leave hcomposed.sound hb more hbegun hlater

/-- A copy, to which one text is refused and one is cut; and a text of a heap that gets another
buffer, after which one text is refused and one comes from an integer. -/
theorem text_content_of_refusals :
    let refusal := Allowance.limited 0
    let first := (Text.Buffer.fresh.append? (fun _ => true) ['é', '\x00', 'x']).getD .fresh
    let as := [⟨refusal.storage, ['b']⟩, ⟨Allowance.ample.storage, ['ü', '\x00', 'y']⟩]
    let script := [(.ample, .createText), (.ample, .append ⟨0, 0⟩ ['a', '\x00']),
      (.ample, .createInteger (-7)), (.ample, .overwrite ⟨0, 0⟩ first.copy),
      (refusal, .append ⟨0, 0⟩ ['z']), (.ample, .appendFrom ⟨0, 0⟩ ⟨1, 0⟩)]
    first.copy.Obtained ['é'] ∧ (first.copy.attempts as).content = ['é', 'ü'] ∧
      ((Session.ofSettings .standard).leave script).heap.buffer ⟨0, 0⟩ =
        .ok ((first.copy.append? Allowance.ample.storage ['-', '7']).getD first.copy) ∧
      written ((Session.ofSettings .standard).history script) ⟨0, 0⟩ = ['é', '-', '7'] := by
  intro refusal first as script
  have happend : Text.Buffer.fresh.append? (fun _ => true) ['é', '\x00', 'x'] = some first := by
    decide
  have hfirst : first.Made := .append .fresh happend
  have hcopy : first.copy.Obtained ['é'] := .copy hfirst
  obtain ⟨hattempts, hruns⟩ := text_content_law
  obtain ⟨hcontent, -, -⟩ := hattempts first.copy ['é'] hcopy as
  have hbuffer : ((Session.ofSettings .standard).leave script).heap.buffer ⟨0, 0⟩ =
    .ok ((first.copy.append? Allowance.ample.storage ['-', '7']).getD first.copy) := by decide
  have hproper : ∀ step ∈ script, step.2.Proper := by
    simp only [script, List.mem_cons, List.not_mem_nil, or_false]
    rintro step (rfl | rfl | rfl | rfl | rfl | rfl)
    case inr.inr.inr.inl => exact hcopy.made
    all_goals trivial
  obtain ⟨-, hwritten, -⟩ := hruns .standard script hproper ⟨0, 0⟩ _ hbuffer
  refine ⟨hcopy, hcontent.trans (by decide), hbuffer, ?_⟩
  rw [← hwritten]
  decide

end CountedHeap
