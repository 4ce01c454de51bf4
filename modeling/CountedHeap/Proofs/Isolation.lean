import CountedHeap.Proofs.LineFrame

/-! An operation reaches the value it is given, or the value it creates, and no other. Handles of
the same slot are no exception: whatever can be asked about them has the answer that it had
before. -/
namespace CountedHeap

/-- The handle whose value the operation may change. -/
def Operation.subject? : Operation → Option Handle
  | .retain h | .release h | .append h _ | .appendFrom h _ | .replaceBuffer h _ _
  | .overwrite h _ => some h
  | _ => none

namespace Heap

/-- Whatever can be asked about a handle has the same answer in both heaps. -/
structure AgreesOn (s t : Heap) (h : Handle) : Prop where
  isLive : t.isLive h = s.isLive h
  refcount : t.refcount h = s.refcount h
  kind : t.kind h = s.kind h
  read : t.read h = s.read h
  buffer : t.buffer h = s.buffer h

/-- Nothing was changed, or one change was made to the value of the handle. -/
def Reaches (s : Heap) (h : Handle) (t : Heap) : Prop :=
  t = s ∨ ∃ c, Changes s c t ∧ c.handle = h

variable {s t : Heap} {g h : Handle}

/-- All the answers are read off the entry that the handle names. -/
theorem AgreesOn.of_find? (hfind : t.find? h = s.find? h) : s.AgreesOn t h := by
  have hentry : t.entry h = s.entry h := by rw [entry, entry, hfind]
  constructor
  · rw [Heap.isLive, Heap.isLive, hfind]
  · rw [Heap.refcount, Heap.refcount, hentry]
  · rw [Heap.kind, Heap.kind, hentry]
  · rw [Heap.read, Heap.read, hentry]
  · exact buffer_congr hfind

theorem Reaches.of_refused {α : Type} {outcome : Outcome α} {fault : Fault}
    (heq : outcome = s.refuse fault) : s.Reaches h outcome.heap :=
  .inl (congrArg Outcome.heap heq)

theorem Reaches.find?_other (hreaches : s.Reaches g t) (hs : s.Sound) (hne : h ≠ g) :
    t.find? h = s.find? h := by
  obtain rfl | ⟨c, hc, rfl⟩ := hreaches
  · rfl
  · exact find?_congr (hc.phase_other hs hne)

/-! What each operation on a live value reaches, whether it succeeds or not. -/

theorem reaches_retain (s : Heap) (h : Handle) : s.Reaches h (s.retain h).heap := by
  obtain ⟨e, hc, -, -⟩ | ⟨fault, -, hheap⟩ := s.retain_cases h
  · exact .inr ⟨_, hc, rfl⟩
  · exact .inl hheap

theorem reaches_release (s : Heap) (h : Handle) : s.Reaches h (s.release h).heap := by
  obtain ⟨e, hc, -⟩ | ⟨e, hc, -⟩ | ⟨-, -, hheap⟩ := s.release_cases h
  · exact .inr ⟨_, hc, rfl⟩
  · exact .inr ⟨_, hc, rfl⟩
  · exact .inl hheap

theorem reaches_replaceBuffer (s : Heap) (h : Handle) (buffer : Text.Buffer) :
    s.Reaches h (s.replaceBuffer h buffer).heap := by
  obtain ⟨old, hc, -⟩ | ⟨fault, heq⟩ := s.replaceBuffer_cases h buffer
  · exact .inr ⟨_, hc, rfl⟩
  · exact .of_refused heq

theorem reaches_append (s : Heap) (allowance : Allowance) (h : Handle) (text : List Char) :
    s.Reaches h (s.append allowance h text).heap := by
  obtain ⟨buffer, hc, -⟩ | ⟨fault, heq⟩ := s.append_cases allowance h text
  · exact .inr ⟨_, hc, rfl⟩
  · exact .of_refused heq

theorem reaches_appendFrom (s : Heap) (allowance : Allowance) (h source : Handle) :
    s.Reaches h (s.appendFrom allowance h source).heap := by
  obtain ⟨buffer, hc, -⟩ | ⟨fault, heq⟩ := s.appendFrom_cases allowance h source
  · exact .inr ⟨_, hc, rfl⟩
  · exact .of_refused heq

/-! What creations and lines reach. -/

/-- A creation that fails reaches nothing, and one that succeeds the handle that it issues. -/
theorem find?_of_create {outcome : Outcome Handle} {value : Value} (hs : s.Sound)
    (hcases : (Changes s (.create s.nextHandle value) outcome.heap ∧
      outcome.result = .ok s.nextHandle) ∨ ∃ shortage, outcome = s.refuse (.allocation shortage))
    (hissued : outcome.result ≠ .ok h) : outcome.heap.find? h = s.find? h := by
  obtain ⟨hc, hresult⟩ | ⟨shortage, rfl⟩ := hcases
  · apply find?_congr
    apply hc.phase_other hs
    rintro rfl
    exact hissued hresult
  · rfl

theorem insert_find? (hs : s.Sound) {allowance : Allowance} {value : Value}
    (hissued : (s.insert allowance value).result ≠ .ok h) :
    (s.insert allowance value).heap.find? h = s.find? h :=
  find?_of_create hs (s.insert_cases allowance value) hissued

theorem createText_find? (hs : s.Sound) {allowance : Allowance}
    (hissued : (s.createText allowance).result ≠ .ok h) :
    (s.createText allowance).heap.find? h = s.find? h := by
  obtain ⟨buffer, -, hcreated⟩ | ⟨shortage, hrefused⟩ := s.createText_cases allowance
  · exact find?_of_create hs (.inl hcreated) hissued
  · rw [hrefused]
    rfl

/-- Reading a line reaches no handle, as its temporary text is stale before and after. -/
theorem readLine_find? (hs : s.Sound) (allowance : Allowance) (input : List Arrival) (h : Handle) :
    (s.readLine allowance input).heap.find? h = s.find? h := by
  obtain ⟨_, -, -, hcreated⟩ | ⟨shortage, hrefused⟩ := s.createText_cases allowance
  · obtain ⟨old, new, hrun⟩ := readLine_of_created hs hcreated input
    exact hrun.path.line_find? hs h
  · rw [readLine_of_refused hrefused]

end Heap

namespace Session

variable {s : Session} {g h : Handle} {allowance : Allowance} {operation : Operation}

theorem reaches_replace (s : Session) (allowance : Allowance) (h : Handle) (growth : Text.Growth)
    (capacity : Nat) :
    s.heap.Reaches h (s.replace allowance h growth capacity).session.heap := by
  unfold replace
  split
  · exact .inl rfl
  · split
    · next new _ => exact s.heap.reaches_replaceBuffer h new
    · exact .inl rfl

/-- A step that is given a value reaches that value at most. -/
theorem reaches_step (hsubject : operation.subject? = some g) :
    s.heap.Reaches g (s.step allowance operation).session.heap := by
  cases operation with
  | retain h =>
    obtain rfl := Option.some.inj hsubject
    exact s.heap.reaches_retain h
  | release h =>
    obtain rfl := Option.some.inj hsubject
    exact s.heap.reaches_release h
  | append h text =>
    obtain rfl := Option.some.inj hsubject
    exact s.heap.reaches_append allowance h text
  | appendFrom h source =>
    obtain rfl := Option.some.inj hsubject
    exact s.heap.reaches_appendFrom allowance h source
  | replaceBuffer h growth capacity =>
    obtain rfl := Option.some.inj hsubject
    exact s.reaches_replace allowance h growth capacity
  | overwrite h buffer =>
    obtain rfl := Option.some.inj hsubject
    exact s.heap.reaches_replaceBuffer h buffer
  | _ => cases hsubject

/-- A step that is given no value reaches none but the one that it creates. -/
theorem find?_step (hs : s.heap.Sound) (hsubject : operation.subject? = none)
    (hissued : (s.step allowance operation).result ≠ .ok (.handle h)) :
    (s.step allowance operation).session.heap.find? h = s.heap.find? h := by
  cases operation with
  | createInteger n =>
    apply Heap.insert_find? hs
    intro hresult
    exact hissued (congrArg (Except.map Answer.handle) hresult)
  | createText =>
    apply Heap.createText_find? hs
    intro hresult
    exact hissued (congrArg (Except.map Answer.handle) hresult)
  | readLine => exact Heap.readLine_find? hs allowance s.input h
  | retain | release | append | appendFrom | replaceBuffer | overwrite => cases hsubject
  | refcount | kind | isLive | read | buffer | display | showTo | supply | settings | counters
  | compare | compareViews => rfl

end Session

/-- Values are isolated from one another. A step that is given a value, whatever it answers, leaves
all other handles as they were, those of the same slot included; and a step that is given none
leaves all handles as they were but the one that it issues. -/
theorem isolation_law {s : Session} (hs : s.heap.Reachable) (allowance : Allowance)
    (operation : Operation) :
    let report := s.step allowance operation
    (∀ g, operation.subject? = some g → ∀ h ≠ g, s.heap.AgreesOn report.session.heap h) ∧
    (operation.subject? = none →
      ∀ h, report.result ≠ .ok (.handle h) → s.heap.AgreesOn report.session.heap h) := by
  intro report
  constructor
  · intro g hsubject h hne
    have hreaches : s.heap.Reaches g report.session.heap := Session.reaches_step hsubject
    exact .of_find? (hreaches.find?_other hs.sound hne)
  · intro hsubject h hissued
    exact .of_find? (Session.find?_step hs.sound hsubject hissued)

/-- A slot is vacated and used again; the handle of its first value is still stale, and a value in
another slot is as it was. -/
theorem isolation_of_reuse :
    let s := (Session.ofSettings .standard).leave
      [(.ample, .createText), (.ample, .createInteger 7), (.ample, .release ⟨0, 0⟩)]
    let report := s.step .ample .createText
    s.heap.Reachable ∧ report.result = .ok (.handle ⟨0, 1⟩) ∧
      s.heap.AgreesOn report.session.heap ⟨0, 0⟩ ∧ s.heap.AgreesOn report.session.heap ⟨1, 0⟩ ∧
      report.session.heap.read ⟨1, 0⟩ = .ok (.integer 7) := by
  intro s report
  have hs : s.heap.Reachable := ⟨_, _, rfl⟩
  have hresult : report.result = .ok (.handle ⟨0, 1⟩) := rfl
  have hissued : ∀ h ≠ ⟨0, 1⟩, report.result ≠ .ok (.handle h) := by
    intro h hne heq
    rw [hresult] at heq
    cases heq
    exact hne rfl
  obtain ⟨-, hothers⟩ := isolation_law hs .ample .createText
  have hstale := hothers rfl ⟨0, 0⟩ (hissued _ (by decide))
  have hlive := hothers rfl ⟨1, 0⟩ (hissued _ (by decide))
  exact ⟨hs, hresult, hstale, hlive, hlive.read⟩

end CountedHeap
