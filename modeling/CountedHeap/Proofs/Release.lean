import CountedHeap.Command.Program
import CountedHeap.Proofs.History
import CountedHeap.Proofs.Operation

/-! The owners that the program attaches to its value, and the loop that takes all of them away. Both
are runs of single retains and releases, told by their answers. The loop does not fail on a live
value, so what showing the value came to is what the run comes to. -/
namespace CountedHeap

namespace Command

/-- What the program logs about an answer. -/
def Notice.ofAnswer? (h : Handle) : Answer → Option Notice
  | .count refcount => some (.retained h refcount)
  | .released (.retained refcount) => some (.released h refcount)
  | .released (.destroyed kind) => some (.destroyed kind h)
  | _ => none

namespace Stage

variable {α β : Type} {stage : Stage α} {next : α → Heap → Stage β}

theorem andThen_eq {a : α} (hresult : stage.result = .ok a) :
    stage.andThen next = { next a stage.heap with log := stage.log ++ (next a stage.heap).log } := by
  rw [andThen, hresult]

theorem andThen_of_ok {a : α} (hresult : stage.result = .ok a) :
    (stage.andThen next).result = (next a stage.heap).result ∧
      (stage.andThen next).heap = (next a stage.heap).heap := by
  rw [andThen_eq hresult]
  exact ⟨rfl, rfl⟩

theorem andThen_of_error {fault : Fault} (hresult : stage.result = .error fault) :
    (stage.andThen next).result = .error fault := by
  rw [andThen, hresult]

/-- Both parts have come to a result, if the whole has. -/
theorem of_andThen_ok {b : β} (hresult : (stage.andThen next).result = .ok b) :
    ∃ a, stage.result = .ok a ∧ (next a stage.heap).result = .ok b := by
  cases hstage : stage.result with
  | error fault => cases hresult.symm.trans (andThen_of_error hstage)
  | ok a => exact ⟨a, rfl, (andThen_of_ok hstage).1.symm.trans hresult⟩

end Stage

namespace Program

/-- One operation, over and over. -/
def repeated (operation : Operation) (times : Nat) : List (Allowance × Operation) :=
  List.replicate times (.ample, operation)

/-- What is logged about one operation, first by the heap and then by the program. -/
def told (h : Handle) (report : Report) : List Log.Record :=
  report.log.map Event.record ++
    (report.result.toOption.bind (Notice.ofAnswer? h)).toList.map Notice.record

/-- The answers to so many retains of a value with one owner. -/
def countup (more : Nat) : List (Except Fault Answer) :=
  (List.range' 2 more).map fun refcount => .ok (.count refcount)

/-- The answers to the releases of so many owners. -/
def countdown (kind : Kind) (owners : Nat) : List (Except Fault Answer) :=
  ((List.range' 1 (owners - 1)).reverse.map fun refcount => .ok (.released (.retained refcount))) ++
    [.ok (.released (.destroyed kind))]

theorem repeated_succ (operation : Operation) (times : Nat) :
    repeated operation (times + 1) = (.ample, operation) :: repeated operation times := rfl

theorem countdown_succ (kind : Kind) (n : Nat) :
    countdown kind (n + 2) = .ok (.released (.retained (n + 1))) :: countdown kind (n + 1) := by
  simp [countdown, List.range'_concat, Nat.add_comm]

variable {s : Heap} {h : Handle} {e : Entry} {v : Value} {n : Nat}

/-! One owner more. -/

theorem share_of_room (hfind : s.find? h = some e) (hroom : e.refcount < Heap.maxRefcount)
    (more : Nat) :
    let later := share (s.put h { e with refcount := e.refcount + 1 }) h more
    share s h (more + 1) = { later with
      log := (Event.retained h (e.refcount + 1)).record ::
        (Notice.retained h (e.refcount + 1)).record :: later.log } := by
  have hretain := Heap.retain_of_room hfind hroom
  have hresult : (Stage.ofOutcome (s.retain h)).result = .ok (e.refcount + 1) :=
    congrArg Outcome.result hretain
  rw [share, Stage.andThen_eq hresult, hretain]
  rfl

theorem share_of_full (hfind : s.find? h = some e) (hfull : ¬e.refcount < Heap.maxRefcount)
    (more : Nat) : (share s h (more + 1)).result = .error (.refcountOverflow h) := by
  have hretain : s.retain h = s.refuse (.refcountOverflow h) := by
    rw [Heap.retain, hfind]
    exact if_neg hfull
  exact Stage.andThen_of_error (congrArg Outcome.result hretain)

/-- Owners are attached by as many retains, each of which tells how many there are by then. -/
theorem share_run (hfind : s.find? h = some ⟨n, v⟩) {more : Nat}
    (hroom : n + more ≤ Heap.maxRefcount) :
    let retains := repeated (.retain h) more
    let reports := Session.run ⟨s, []⟩ retains
    share s h more = ⟨.ok (), s.put h ⟨n + more, v⟩, reports.flatMap (told h)⟩ ∧
      Session.leave ⟨s, []⟩ retains = ⟨s.put h ⟨n + more, v⟩, []⟩ ∧
      reports.map Report.result = (List.range' (n + 1) more).map fun n => .ok (.count n) := by
  induction more generalizing s n with
  | zero => simp [repeated, share, Session.leave, Session.run, Heap.put_self hfind]
  | succ more ih =>
    have hlt : n < Heap.maxRefcount := by omega
    have hnext := Heap.find?_put ⟨n + 1, v⟩ hfind
    obtain ⟨hshare, hleave, hresults⟩ := ih hnext (by omega)
    have hstep : Session.step ⟨s, []⟩ .ample (.retain h) =
        ⟨.ok (.count (n + 1)), [.retained h (n + 1)], [], ⟨s.put h ⟨n + 1, v⟩, []⟩⟩ := by
      rw [Session.step, Session.change, Heap.retain_of_room hfind hlt]
      rfl
    rw [Heap.put_put, Nat.add_assoc, Nat.add_comm 1] at hshare hleave
    dsimp only
    rw [repeated_succ, Session.leave, Session.run, hstep, share_of_room hfind hlt, hleave]
    refine ⟨?_, rfl, ?_⟩
    · rw [hshare]
      rfl
    · rw [List.map_cons, hresults]
      rfl

/-- Further owners are attached, unless there would be more than can be told. -/
theorem share_cases (hfind : s.find? h = some e) (more : Nat) :
    ((share s h more).result = .ok () ∧
        (share s h more).heap.find? h = some { e with refcount := e.refcount + more }) ∨
      (Heap.maxRefcount < e.refcount + more ∧
        (share s h more).result = .error (.refcountOverflow h)) := by
  induction more generalizing s e with
  | zero => exact .inl ⟨rfl, hfind⟩
  | succ more ih =>
    by_cases hroom : e.refcount < Heap.maxRefcount
    · have hnext := Heap.find?_put { e with refcount := e.refcount + 1 } hfind
      rw [share_of_room hfind hroom, Nat.add_comm more 1, ← Nat.add_assoc]
      exact ih hnext
    · exact .inr ⟨by omega, share_of_full hfind hroom more⟩

/-! One owner less. -/

/-- One round of the loop, without its termination. -/
theorem releaseAll_eq (s : Heap) (h : Handle) :
    releaseAll s h =
      let released := s.release h
      let log := released.log.map Event.record
      match released.result with
      | .error fault => ⟨.error fault, released.heap, log⟩
      | .ok (.destroyed kind) => ⟨.ok (), released.heap, log ++ [(Notice.destroyed kind h).record]⟩
      | .ok (.retained refcount) =>
        let later := releaseAll released.heap h
        { later with log := log ++ (Notice.released h refcount).record :: later.log } := by
  conv => lhs; rw [releaseAll]
  dsimp only
  split <;> next hr => rw [hr]

theorem releaseAll_of_shared (hfind : s.find? h = some e) (hshared : 1 < e.refcount) :
    let later := releaseAll (s.put h { e with refcount := e.refcount - 1 }) h
    releaseAll s h = { later with
      log := (Event.released h (e.refcount - 1)).record ::
        (Notice.released h (e.refcount - 1)).record :: later.log } := by
  rw [releaseAll_eq s h, Heap.release_of_shared hfind hshared]
  rfl

theorem releaseAll_of_last (hfind : s.find? h = some e) (hlast : ¬1 < e.refcount) :
    releaseAll s h = ⟨.ok (), s.vacate h, (Heap.farewell h e.value).map Event.record ++
      [(Notice.destroyed e.value.kind h).record]⟩ := by
  rw [releaseAll_eq, Heap.release_of_last hfind hlast]

theorem releaseAll_of_stale (hfind : s.find? h = none) :
    releaseAll s h = ⟨.error (.staleHandle h), s, [(Event.staleRelease h).record]⟩ := by
  have hrelease : s.release h = ⟨.error (.staleHandle h), s, [.staleRelease h]⟩ := by
    rw [Heap.release, hfind]
  rw [releaseAll_eq, hrelease]
  rfl

/-- The loop makes as many releases as there are owners, and only the last destroys the value. -/
theorem releaseAll_run (hfind : s.find? h = some ⟨n + 1, v⟩) :
    let releases := repeated (.release h) (n + 1)
    let reports := Session.run ⟨s, []⟩ releases
    releaseAll s h = ⟨.ok (), s.vacate h, reports.flatMap (told h)⟩ ∧
      Session.leave ⟨s, []⟩ releases = ⟨s.vacate h, []⟩ ∧
      reports.map Report.result = countdown v.kind (n + 1) := by
  induction n generalizing s with
  | zero =>
    have hlast : ¬1 < 0 + 1 := by decide
    have hstep : Session.step ⟨s, []⟩ .ample (.release h) =
        ⟨.ok (.released (.destroyed v.kind)), Heap.farewell h v, [], ⟨s.vacate h, []⟩⟩ := by
      rw [Session.step, Session.change, Heap.release_of_last hfind hlast]
      rfl
    dsimp only
    rw [repeated_succ, Session.leave, Session.run, hstep, releaseAll_of_last hfind hlast]
    exact ⟨by simp [repeated, Session.run, told, Except.toOption, Notice.ofAnswer?], rfl, rfl⟩
  | succ n ih =>
    have hshared : 1 < n + 1 + 1 := by omega
    have hnext := Heap.find?_put ⟨n + 1, v⟩ hfind
    obtain ⟨hrelease, hleave, hresults⟩ := ih hnext
    have hstep : Session.step ⟨s, []⟩ .ample (.release h) =
        ⟨.ok (.released (.retained (n + 1))), [.released h (n + 1)], [],
          ⟨s.put h ⟨n + 1, v⟩, []⟩⟩ := by
      rw [Session.step, Session.change, Heap.release_of_shared hfind hshared]
      rfl
    rw [Heap.vacate_put] at hrelease hleave
    dsimp only
    rw [repeated_succ, Session.leave, Session.run, hstep, releaseAll_of_shared hfind hshared, hleave]
    refine ⟨?_, rfl, ?_⟩
    · rw [show n + 1 + 1 - 1 = n + 1 from rfl, hrelease]
      rfl
    · rw [List.map_cons, hresults, countdown_succ]

/-- The loop ends with the last owner, and has not failed by then. -/
theorem releaseAll_of_live (hfind : s.find? h = some e) : (releaseAll s h).result = .ok () := by
  obtain ⟨refcount, v⟩ := e
  cases refcount with
  | zero => rw [releaseAll_of_last hfind (Nat.not_lt_zero 1)]
  | succ n => rw [(releaseAll_run hfind).1]

/-- What showing a live value came to is told once its owners are gone. -/
theorem conclude_of_live (hfind : s.find? h = some e) (shown : Except Fault Unit) :
    (conclude s h shown).result = shown := by
  have hreleased := releaseAll_of_live hfind
  rw [conclude, (Stage.andThen_of_ok hreleased).1]

end Program

end Command

end CountedHeap
