import CountedHeap.Proofs.History
import CountedHeap.Proofs.Operation

/-! Steps of a run as elementary changes. Each step amounts to at most one change, or to three when
it reads a line; so every run keeps its heap sound, and whatever each change keeps, every run keeps
too. -/
namespace CountedHeap

namespace Moment

/-- The step does not issue the handle to the caller, and takes no owner of it on or off. -/
def Spares (m : Moment) (h : Handle) : Prop :=
  m.result ≠ .ok (.handle h) ∧
    (m.operation = .retain h ∨ m.operation = .release h → ∃ fault, m.result = .error fault)

def Quiet (m : Moment) : Prop := ∀ h, m.Spares h

/-- The changes that a step amounts to, told from the operation and its answer. -/
inductive Amounts (m : Moment) : List Change → Prop
  | createInteger {n : Int} {h : Handle} (hop : m.operation = .createInteger n)
      (hresult : m.result = .ok (.handle h)) : Amounts m [.create h (.integer n)]
  | createText {h : Handle} {buffer : Text.Buffer} (hop : m.operation = .createText)
      (hresult : m.result = .ok (.handle h)) : Amounts m [.create h (.text buffer)]
  | retain {h : Handle} {n : Nat} (hop : m.operation = .retain h)
      (hresult : m.result = .ok (.count n)) : Amounts m [.retain h]
  | release {h : Handle} {n : Nat} (hop : m.operation = .release h)
      (hresult : m.result = .ok (.released (.retained n))) : Amounts m [.release h]
  | destroy {h : Handle} {k : Kind} (hop : m.operation = .release h)
      (hresult : m.result = .ok (.released (.destroyed k))) : Amounts m [.destroy h]
  | write {h : Handle} {buffer : Text.Buffer} (hquiet : m.Quiet) (hop : m.operation ≠ .readLine) :
      Amounts m [.write h buffer]
  | line {h : Handle} {old new : Text.Buffer} (hquiet : m.Quiet) (hop : m.operation = .readLine)
      (hline : (m.before.heap.createText m.allowance).result = .ok h)
      (hrelease :
        ((m.before.heap.assembleLine m.allowance h m.before.input).heap.release h).result =
          .ok (.destroyed .text)) :
      Amounts m [.create h (.text old), .write h new, .destroy h]
  | nothing (hquiet : m.Quiet) (hline : m.operation = .readLine →
      ∃ fault, (m.before.heap.createText m.allowance).result = .error fault) : Amounts m []

theorem quiet_of_error {m : Moment} {f : Fault} (hresult : m.result = .error f) :
    m.Quiet := by
  intro h
  constructor
  · rw [hresult]
    nofun
  · intro _
    exact ⟨f, hresult⟩

/-- The operation neither creates a value nor takes an owner on or off. -/
def Plain (operation : Operation) : Prop :=
  match operation with
  | .createInteger _ | .createText | .retain _ | .release _ | .readLine => False
  | _ => True

theorem map_ne_handle {α : Type} {result : Except Fault α} {answer : α → Answer}
    (hanswer : ∀ a h, answer a ≠ .handle h) (h : Handle) : result.map answer ≠ .ok (.handle h) := by
  cases result with
  | error fault => nofun
  | ok a => exact fun heq => hanswer a h (Except.ok.inj heq)

/-- No operation but a creation answers with a handle. -/
theorem quiet_of_plain {m : Moment} (hplain : Plain m.operation) : m.Quiet := by
  obtain ⟨s, allowance, operation⟩ := m
  intro h
  constructor
  · cases operation with
    | createInteger | createText | retain | release | readLine => exact hplain.elim
    | refcount | kind | read | buffer | display | showTo | append | appendFrom | overwrite =>
      exact map_ne_handle (by nofun) h
    | isLive | settings | counters | compare | supply => nofun
    | replaceBuffer target growth capacity =>
      change (s.replace allowance target growth capacity).result ≠ _
      unfold Session.replace
      split
      · nofun
      · split
        · exact map_ne_handle (by nofun) h
        · nofun
    | compareViews a b =>
      change (s.heap.read a).bind _ ≠ _
      cases s.heap.read a with
      | error fault => nofun
      | ok view => exact map_ne_handle (by nofun) h
  · rintro (rfl | rfl) <;> exact absurd hplain id

theorem quiet_of_readLine {s : Session} {allowance : Allowance} :
    Quiet ⟨s, allowance, .readLine⟩ := by
  intro h
  constructor
  · exact map_ne_handle (by nofun) h
  · rintro (heq | heq) <;> cases heq

/-- A step that leaves the heap as it was amounts to nothing. -/
theorem amounts_nothing {m : Moment} (hquiet : m.Quiet) (hline : m.operation ≠ .readLine)
    (hheap : m.after.heap = m.before.heap) :
    ∃ changes, m.Amounts changes ∧ m.before.heap.Path changes m.after.heap := by
  refine ⟨[], .nothing hquiet fun h => absurd h hline, ?_⟩
  rw [hheap]
  exact .nil _

theorem amounts_error {m : Moment} {f : Fault} (hresult : m.result = .error f)
    (hline : m.operation ≠ .readLine) (hheap : m.after.heap = m.before.heap) :
    ∃ changes, m.Amounts changes ∧ m.before.heap.Path changes m.after.heap :=
  amounts_nothing (quiet_of_error hresult) hline hheap

/-- A plain step that writes to a text or leaves the heap as it was. -/
theorem amounts_write {m : Moment} (hplain : Plain m.operation)
    (hcases : (∃ h buffer, m.before.heap.Changes (.write h buffer) m.after.heap) ∨
      m.after.heap = m.before.heap) :
    ∃ changes, m.Amounts changes ∧ m.before.heap.Path changes m.after.heap := by
  have hline : m.operation ≠ .readLine := by
    intro heq
    rw [heq] at hplain
    exact hplain
  obtain ⟨h, buffer, hc⟩ | hheap := hcases
  · exact ⟨[.write h buffer], .write (quiet_of_plain hplain) hline, hc.path⟩
  · exact amounts_nothing (quiet_of_plain hplain) hline hheap

/-- A step that creates a value, or fails to. -/
theorem amounts_create {m : Moment} {outcome : Outcome Handle} {value : Value}
    (hresult : m.result = outcome.result.map .handle) (hheap : m.after.heap = outcome.heap)
    (hline : m.operation ≠ .readLine)
    (hcases : (m.before.heap.Changes (.create m.before.heap.nextHandle value) outcome.heap ∧
      outcome.result = .ok m.before.heap.nextHandle) ∨
        ∃ shortage, outcome = m.before.heap.refuse (.allocation shortage))
    (hamounts : m.result = .ok (.handle m.before.heap.nextHandle) →
      m.Amounts [.create m.before.heap.nextHandle value]) :
    ∃ changes, m.Amounts changes ∧ m.before.heap.Path changes m.after.heap := by
  obtain ⟨hc, heq⟩ | ⟨shortage, rfl⟩ := hcases
  · rw [heq] at hresult
    refine ⟨_, hamounts hresult, ?_⟩
    rw [hheap]
    exact hc.path
  · exact amounts_error hresult hline hheap

theorem amounts (m : Moment) (hs : m.before.heap.Sound) :
    ∃ changes, m.Amounts changes ∧ m.before.heap.Path changes m.after.heap := by
  obtain ⟨s, allowance, operation⟩ := m
  cases operation with
  | createInteger n =>
    have hcases := s.heap.insert_cases allowance (.integer n)
    exact amounts_create rfl rfl nofun hcases (.createInteger rfl)
  | createText =>
    obtain ⟨buffer, -, hcreated⟩ | ⟨shortage, heq⟩ := s.heap.createText_cases allowance
    · exact amounts_create rfl rfl nofun (.inl hcreated) (.createText rfl)
    · refine amounts_error (f := .allocation shortage) ?_ nofun (congrArg Outcome.heap heq)
      change (s.heap.createText allowance).result.map Answer.handle = _
      rw [heq]
      rfl
  | retain h =>
    obtain ⟨e, hc, hfind, heq⟩ | ⟨fault, heq, hheap⟩ := s.heap.retain_cases h
    · refine ⟨[.retain h], .retain (n := e.refcount + 1) rfl ?_, hc.path⟩
      change (s.heap.retain h).result.map Answer.count = _
      rw [heq]
      rfl
    · refine amounts_error (f := fault) ?_ nofun hheap
      change (s.heap.retain h).result.map Answer.count = _
      rw [heq]
      rfl
  | release h =>
    obtain ⟨e, hc, -, -, heq⟩ | ⟨e, hc, -, -, heq⟩ | ⟨-, heq, hheap⟩ := s.heap.release_cases h
    · refine ⟨[.release h], .release (n := e.refcount - 1) rfl ?_, hc.path⟩
      change (s.heap.release h).result.map Answer.released = _
      rw [heq]
      rfl
    · refine ⟨[.destroy h], .destroy (k := e.value.kind) rfl ?_, hc.path⟩
      change (s.heap.release h).result.map Answer.released = _
      rw [heq]
      rfl
    · refine amounts_error (f := .staleHandle h) ?_ nofun hheap
      change (s.heap.release h).result.map Answer.released = _
      rw [heq]
      rfl
  | append h text =>
    refine amounts_write trivial ?_
    obtain ⟨buffer, hc, -⟩ | ⟨fault, heq⟩ := s.heap.append_cases allowance h text
    · exact .inl ⟨h, buffer, hc⟩
    · exact .inr (congrArg Outcome.heap heq)
  | appendFrom h source =>
    refine amounts_write trivial ?_
    obtain ⟨buffer, hc, -⟩ | ⟨fault, heq⟩ := s.heap.appendFrom_cases allowance h source
    · exact .inl ⟨h, buffer, hc⟩
    · exact .inr (congrArg Outcome.heap heq)
  | overwrite h buffer =>
    refine amounts_write trivial ?_
    obtain ⟨old, hc, -⟩ | ⟨fault, heq⟩ := s.heap.replaceBuffer_cases h buffer
    · exact .inl ⟨h, buffer, hc⟩
    · exact .inr (congrArg Outcome.heap heq)
  | replaceBuffer h growth capacity =>
    refine amounts_write trivial ?_
    change (∃ g buffer, s.heap.Changes (.write g buffer)
      (s.replace allowance h growth capacity).session.heap) ∨
        (s.replace allowance h growth capacity).session.heap = s.heap
    unfold Session.replace
    split
    · exact .inr rfl
    · split
      · next new _ =>
        obtain ⟨old, hc, -⟩ | ⟨fault, heq⟩ := s.heap.replaceBuffer_cases h new
        · exact .inl ⟨h, new, hc⟩
        · exact .inr (congrArg Outcome.heap heq)
      · exact .inr rfl
  | readLine =>
    obtain ⟨buffer, -, hc, heq⟩ | ⟨shortage, heq⟩ := s.heap.createText_cases allowance
    · obtain ⟨old, new, hrun⟩ := Heap.readLine_of_created hs heq s.input
      have hrelease := congrArg Outcome.result hrun.released
      exact ⟨_, .line quiet_of_readLine rfl heq hrelease, hrun.path⟩
    · refine ⟨[], .nothing quiet_of_readLine fun _ => ⟨_, congrArg Outcome.result heq⟩, ?_⟩
      change s.heap.Path [] (s.heap.readLine allowance s.input).heap
      rw [Heap.readLine_of_refused heq]
      exact .nil _
  | refcount | kind | isLive | read | buffer | display | showTo | supply | settings | counters
  | compare | compareViews => exact amounts_write trivial (.inr rfl)

end Moment

theorem Session.sound_step {s : Session} (hs : s.heap.Sound) (allowance : Allowance)
    (operation : Operation) : (s.step allowance operation).session.heap.Sound := by
  obtain ⟨_, -, hpath⟩ := Moment.amounts ⟨s, allowance, operation⟩ hs
  exact hpath.sound hs

/-- Every run keeps its heap sound. -/
theorem Session.sound_leave (settings : Settings) (script : List (Allowance × Operation)) :
    ((ofSettings settings).leave script).heap.Sound :=
  keeps (P := fun _ s => s.heap.Sound) (fun _ m hs => sound_step hs m.allowance m.operation)
    script [] _ (Heap.sound_ofSettings settings)

/-- Once spent, a handle is spent in every continuation of the run. -/
theorem Session.phase_leave_of_spent {s : Session} (hs : s.heap.Sound) {h : Handle}
    (hspent : s.heap.phase h = .spent) (script : List (Allowance × Operation)) :
    (s.leave script).heap.phase h = .spent := by
  refine (keeps (P := fun _ s => s.heap.Sound ∧ s.heap.phase h = .spent) ?_ script [] s
    ⟨hs, hspent⟩).2
  rintro _ m ⟨hsound, hphase⟩
  obtain ⟨_, -, hpath⟩ := m.amounts hsound
  exact ⟨hpath.sound hsound, hpath.spent hsound hphase⟩

/-- What holds without any values and is kept by each change of a sound heap holds after every
run. -/
theorem Session.keeps_of_changes {P : Heap → Prop} {settings : Settings}
    (hstart : P (Heap.ofSettings settings))
    (hchange : ∀ {s t : Heap} {c : Change}, s.Changes c t → s.Sound → P s → P t)
    (script : List (Allowance × Operation)) : P ((ofSettings settings).leave script).heap := by
  refine (keeps (P := fun _ s => s.heap.Sound ∧ P s.heap) ?_ script [] _
    ⟨Heap.sound_ofSettings settings, hstart⟩).2
  rintro _ m ⟨hs, h⟩
  obtain ⟨_, -, hpath⟩ := m.amounts hs
  exact ⟨hpath.sound hs, hpath.keeps hchange hs h⟩

theorem Heap.Reachable.sound {s : Heap} (hs : s.Reachable) : s.Sound := by
  obtain ⟨settings, script, rfl⟩ := hs
  exact Session.sound_leave settings script

end CountedHeap
