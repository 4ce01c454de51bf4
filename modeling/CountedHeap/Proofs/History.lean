import CountedHeap.Session

/-! Histories of runs: the steps taken from a first session, each with the session it met. What
holds at the start and is kept by one step holds after every run. -/
namespace CountedHeap

/-- One step of a run: the session it meets, and what is done under which allowance. -/
structure Moment where
  before : Session
  allowance : Allowance
  operation : Operation

namespace Moment

def report (m : Moment) : Report := m.before.step m.allowance m.operation

def result (m : Moment) : Except Fault Answer := m.report.result

def after (m : Moment) : Session := m.report.session

end Moment

namespace Session

/-- The steps of a run, the first one first. -/
def history (s : Session) : List (Allowance × Operation) → List Moment
  | [] => []
  | (allowance, operation) :: rest =>
    ⟨s, allowance, operation⟩ :: history (s.step allowance operation).session rest

/-- The session that a run leaves. -/
def leave (s : Session) : List (Allowance × Operation) → Session
  | [] => s
  | (allowance, operation) :: rest => (s.step allowance operation).session.leave rest

theorem leave_append (s : Session) (first second : List (Allowance × Operation)) :
    s.leave (first ++ second) = (s.leave first).leave second := by
  induction first generalizing s with
  | nil => rfl
  | cons step first ih => exact ih _

theorem run_append (s : Session) (first second : List (Allowance × Operation)) :
    s.run (first ++ second) = s.run first ++ (s.leave first).run second := by
  induction first generalizing s with
  | nil => rfl
  | cons step first ih => exact congrArg (_ :: ·) (ih _)

/-- The steps of a history are those of the script. -/
theorem mem_of_mem_history {s : Session} {script : List (Allowance × Operation)} {m : Moment}
    (hm : m ∈ s.history script) : (m.allowance, m.operation) ∈ script := by
  induction script generalizing s with
  | nil => cases hm
  | cons step script ih =>
    obtain rfl | hm := List.mem_cons.mp hm
    · exact List.mem_cons_self
    · exact List.mem_cons_of_mem _ (ih hm)

/-- What comes before a step of a history is the history of a run that leads there. -/
theorem history_before {s : Session} {script : List (Allowance × Operation)}
    {before after : List Moment} {m : Moment} (h : s.history script = before ++ m :: after) :
    ∃ first, before = s.history first ∧ m.before = s.leave first := by
  induction script generalizing s before with
  | nil => simp [history] at h
  | cons step script ih =>
    cases before with
    | nil =>
      obtain ⟨rfl, -⟩ := List.cons.inj h
      exact ⟨[], rfl, rfl⟩
    | cons earliest before =>
      obtain ⟨rfl, hrest⟩ := List.cons.inj h
      obtain ⟨first, rfl, hbefore⟩ := ih hrest
      exact ⟨step :: first, rfl, hbefore⟩

/-- A relation between the past and the present that each step keeps holds after every run. -/
theorem keeps {P : List Moment → Session → Prop}
    (hstep : ∀ past m, P past m.before → P (past ++ [m]) m.after)
    (script : List (Allowance × Operation)) (past : List Moment) (s : Session) (hs : P past s) :
    P (past ++ s.history script) (s.leave script) := by
  induction script generalizing past s with
  | nil => simpa [history, leave] using hs
  | cons step script ih =>
    have hnext := ih _ _ (hstep past ⟨s, step.1, step.2⟩ hs)
    simpa [history, leave, Moment.after, Moment.report] using hnext

end Session

/-- The heaps that runs leave, whatever the settings. -/
def Heap.Reachable (s : Heap) : Prop :=
  ∃ settings script, ((Session.ofSettings settings).leave script).heap = s

end CountedHeap
