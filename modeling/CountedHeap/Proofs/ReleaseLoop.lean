import CountedHeap.Proofs.Printing
import CountedHeap.Proofs.Tally

/-! The value of the program and its owners, from the first to the last. A live value is released as
often as it has owners, whatever became of the writing before that, and what is left of it is a
counter; so a run that makes a value leaves a heap without values. -/
namespace CountedHeap

namespace Heap

/-- One value less: its handle is stale, the counters have moved by one, and all other handles name
what they named. -/
structure Freed (s t : Heap) (h : Handle) : Prop where
  stale : t.isLive h = false
  created : t.counters.created = s.counters.created
  destroyed : t.counters.destroyed = s.counters.destroyed + 1
  live : t.counters.live + 1 = s.counters.live
  others : ∀ g ≠ h, t.find? g = s.find? g

variable {s : Heap} {h : Handle} {e : Entry}

theorem Sound.freed_vacate (hs : s.Sound) (htally : s.Tallied) (hfind : s.find? h = some e) :
    s.Freed (s.vacate h) h := by
  refine ⟨?_, rfl, rfl, Nat.sub_add_cancel (htally.live_pos hfind), ?_⟩
  · rw [isLive, find?_eq_none_iff.mpr (.inr (phase_vacate_same hs hfind))]
    rfl
  · -- A handle of the same slot is of another generation, to which the slot looks as it did.
    intro g hne
    by_cases hindex : h.index = g.index
    · have hgeneration : g.generation ≠ h.generation :=
        fun heq => hne (Handle.ext hindex.symm heq)
      exact find?_congr (phase_vacate_other hfind hindex hgeneration)
    · rw [find?, find?, getElem?_vacate, if_neg hindex]

/-- Without a live value every handle is stale. -/
theorem Tallied.stale_of_no_live (htally : s.Tallied) (hnone : s.counters.live = 0) (g : Handle) :
    s.isLive g = false := by
  rw [isLive, Option.isSome_eq_false_iff, Option.isNone_iff_eq_none,
    Option.eq_none_iff_forall_ne_some]
  intro e hfind
  have hpos := htally.live_pos hfind
  omega

/-- A heap with one live value, that of the handle, which has one owner. -/
structure Holds (s : Heap) (h : Handle) (v : Value) : Prop where
  sound : s.Sound
  tallied : s.Tallied
  find : s.find? h = some ⟨1, v⟩
  live : s.counters.live = 1

theorem Changes.holds_create {t : Heap} {v : Value} (hc : Changes s (.create h v) t) (hs : s.Sound)
    (htally : s.Tallied) (hnone : s.counters.live = 0) : t.Holds h v := by
  refine ⟨hc.sound hs, hc.tallied hs htally, phase_eq_live_iff.mp (phase_created hc hs), ?_⟩
  rw [hc.counters_create, countCreated, hnone]

theorem Holds.write {t : Heap} {old new : Text.Buffer} (hholds : s.Holds h (.text old))
    (hc : Changes s (.write h new) t) : t.Holds h (.text new) := by
  obtain ⟨hs, htally, hfind, hlive⟩ := hholds
  obtain ⟨n, _, hbefore, hafter⟩ := hc.write_phase
  cases hfind.symm.trans (phase_eq_live_iff.mp hbefore)
  exact ⟨hc.sound hs, hc.tallied hs htally, phase_eq_live_iff.mp hafter,
    (congrArg Counters.live hc.counters_write).trans hlive⟩

/-- Once the only value is freed, none is left. -/
theorem Holds.nothing_left {v : Value} (hholds : s.Holds h v) :
    let t := s.vacate h
    t.counters.live = 0 ∧ t.counters.created = t.counters.destroyed ∧ ∀ g, t.isLive g = false := by
  intro t
  obtain ⟨-, htally, hfind, hlive⟩ := hholds
  have hleft : t.Tallied := htally.vacate hfind
  have hnone : t.counters.live = 0 := congrArg (· - 1) hlive
  refine ⟨hnone, ?_, hleft.stale_of_no_live hnone⟩
  rw [hleft.created, hnone, Nat.add_zero]

/-- After a line that was read without any values there are none. -/
theorem readLine_leaves {settings : Settings} {allowance : Allowance} {input : List Arrival}
    {text : List Char} (hresult : ((ofSettings settings).readLine allowance input).result = .ok text) :
    let t := ((ofSettings settings).readLine allowance input).heap
    t.Sound ∧ t.Tallied ∧ t.counters.live = 0 := by
  have hs := sound_ofSettings settings
  obtain ⟨_, -, -, hcreated⟩ | ⟨shortage, hrefused⟩ :=
    (ofSettings settings).createText_cases allowance
  · obtain ⟨old, new, hrun⟩ := readLine_of_created hs hcreated input
    refine ⟨hrun.path.sound hs, hrun.path.keeps Changes.tallied hs (tallied_ofSettings settings), ?_⟩
    rw [hrun.heap, hrun.assembled, (counters_of_create hrun.created _).2]
    rfl
  · rw [readLine_of_refused hrefused] at hresult
    cases hresult

end Heap

namespace Command

namespace Program

variable {s : Heap} {h : Handle} {v : Value} {n : Nat}

/-- A live value is shown and then released as often as it has owners, and what the showing came to
is reported. -/
theorem showAndRelease_of_live (hfind : s.find? h = some ⟨n + 1, v⟩) (template : List Char)
    (write : List UInt8 → Delivery) :
    let reports := Session.run ⟨s, []⟩ (repeated (.release h) (n + 1))
    let showing := s.showBy h template write
    showAndRelease s h template write =
      (⟨showing.result, s.vacate h, reports.flatMap (told h)⟩, showing.written) := by
  rw [showAndRelease, conclude, (releaseAll_run hfind).1]
  exact congrArg (fun log => (Stage.mk _ _ log, _)) (List.append_nil _)

theorem showAndRelease_of_stale (hfind : s.find? h = none) (template : List Char)
    (write : List UInt8 → Delivery) :
    showAndRelease s h template write =
      (⟨.error (.staleHandle h), s, [(Event.staleRelease h).record]⟩, []) := by
  rw [showAndRelease, conclude, releaseAll_of_stale hfind, Heap.showBy_of_stale hfind]
  rfl

variable {settings : Settings} {allowances : Allowances} {options : Options}
  {read : String → Except TransferFault (List UInt8)} {input : List Arrival}

theorem textValue_holds {text : List Char} (hs : s.Sound) (htally : s.Tallied)
    (hnone : s.counters.live = 0) (hresult : (textValue s allowances text).result = .ok h) :
    ∃ v, (textValue s allowances text).heap.Holds h v := by
  obtain ⟨g, hcreate, hrest⟩ := Stage.of_andThen_ok hresult
  obtain ⟨_, happend, hend⟩ := Stage.of_andThen_ok hrest
  obtain rfl : g = h := Except.ok.inj hend
  have hheap : (textValue s allowances text).heap =
      ((s.createText allowances.creation).heap.append allowances.append g text).heap := by
    rw [textValue, (Stage.andThen_of_ok hcreate).2, (Stage.andThen_of_ok happend).2]
    rfl
  obtain ⟨old, -, hc⟩ := Heap.createText_created hcreate
  have hholds := hc.holds_create hs htally hnone
  rw [hheap]
  obtain ⟨new, hw, -⟩ | ⟨fault, heq⟩ :=
    (s.createText allowances.creation).heap.append_cases allowances.append g text
  · exact ⟨_, hholds.write hw⟩
  · rw [heq]
    exact ⟨_, hholds⟩

/-- The value that the program makes is the only one. -/
theorem value_holds
    (hresult : (value (.ofSettings settings) allowances options input).result = .ok h) :
    ∃ v, (value (.ofSettings settings) allowances options input).heap.Holds h v := by
  unfold value at hresult ⊢
  split at hresult
  · next n hinteger =>
    obtain ⟨hc, hissued⟩ | ⟨shortage, hrefused⟩ :=
      (Heap.ofSettings settings).insert_cases allowances.creation (.integer n)
    · obtain rfl := Except.ok.inj (hissued.symm.trans hresult)
      exact ⟨_, hc.holds_create (Heap.sound_ofSettings _) (Heap.tallied_ofSettings _) rfl⟩
    · cases (congrArg Outcome.result hrefused).symm.trans hresult
  · obtain ⟨text, hline, hrest⟩ := Stage.of_andThen_ok hresult
    obtain ⟨hs, htally, hnone⟩ := Heap.readLine_leaves hline
    rw [lineValue, (Stage.andThen_of_ok hline).2]
    exact textValue_holds hs htally hnone hrest

/-- A value that is made gets its further owners. -/
theorem begin_of_shared (hsettings : (Program.settings options read).result = .ok settings)
    (hresult : (value (.ofSettings settings) allowances options input).result = .ok h)
    (hfind : (value (.ofSettings settings) allowances options input).heap.find? h = some ⟨1, v⟩)
    (hroom : 1 + options.share ≤ Heap.maxRefcount) :
    let made := value (.ofSettings settings) allowances options input
    let reports := Session.run ⟨made.heap, []⟩ (repeated (.retain h) options.share)
    begin allowances options read input = ⟨.ok h, made.heap.put h ⟨1 + options.share, v⟩,
      (Program.settings options read).log.map Event.record ++
        (made.log ++ reports.flatMap (told h))⟩ := by
  intro made reports
  have hloaded : (⟨(Program.settings options read).result, .ofSettings .standard,
      (Program.settings options read).log.map Event.record⟩ : Stage Settings).result =
    .ok settings := hsettings
  rw [begin, Stage.andThen_eq hloaded, Stage.andThen_eq hresult, (share_run hfind hroom).1]
  exact congrArg (fun log => Stage.mk _ _ (_ ++ (_ ++ log))) (List.append_nil _)

/-- The summary, which stands at the end of a run that does not fail. -/
def closing (stage : Stage Unit) : List Log.Record :=
  match stage.result with
  | .ok () => [(Notice.summary stage.heap.counters).record]
  | .error _ => []

theorem complete_eq (shown : Stage Unit) :
    complete shown = { shown with log := shown.log ++ closing shown } := by
  obtain ⟨result, heap, log⟩ := shown
  cases result with
  | ok => rfl
  | error fault => exact congrArg (Stage.mk _ _) (List.append_nil _).symm

/-- A run whose value has its owners takes all of them away. -/
theorem execute_of_shared {log : List Log.Record}
    (hbegun : begin allowances options read input = ⟨.ok h, s, log⟩)
    (hfind : s.find? h = some ⟨n + 1, v⟩) (device : Sink) :
    let reports := Session.run ⟨s, []⟩ (repeated (.release h) (n + 1))
    let run := execute allowances options read input device
    run.1.heap = s.vacate h ∧ run.1.log = log ++ (reports.flatMap (told h) ++ closing run.1) := by
  intro reports run
  have hshown := showAndRelease_of_live hfind options.template (Output.print device)
  have hrun : run = _ := execute_eq (congrArg Stage.result hbegun) device
  rw [hbegun, hshown, complete_eq] at hrun
  rw [hrun]
  exact ⟨rfl, rfl⟩

/-- A run that does not fail has made a value. -/
theorem made_of_execute {device : Sink}
    (hresult : (execute allowances options read input device).1.result = .ok ()) :
    ∃ settings h, (Program.settings options read).result = .ok settings ∧
      (value (.ofSettings settings) allowances options input).result = .ok h := by
  cases hbegin : (begin allowances options read input).result with
  | error fault =>
    cases hresult.symm.trans (execute_of_error hbegin device).1
  | ok g =>
    obtain ⟨settings, hsettings, hrest⟩ := Stage.of_andThen_ok hbegin
    obtain ⟨h, hmade, -⟩ := Stage.of_andThen_ok hrest
    exact ⟨settings, h, hsettings, hmade⟩

/-- What a run does with the value that it has made: it retains and releases it, and nothing else. -/
theorem execute_of_made (hsettings : (Program.settings options read).result = .ok settings)
    (hresult : (value (.ofSettings settings) allowances options input).result = .ok h)
    (hshare : options.share + 1 ≤ Heap.maxRefcount) (device : Sink) :
    let made := value (.ofSettings settings) allowances options input
    let script := repeated (.retain h) options.share ++ repeated (.release h) (options.share + 1)
    let reports := Session.run ⟨made.heap, []⟩ script
    let run := execute allowances options read input device
    ∃ v, made.heap.Holds h v ∧ run.1.heap = made.heap.vacate h ∧
      Session.leave ⟨made.heap, []⟩ script = ⟨made.heap.vacate h, []⟩ ∧
      reports.map Report.result =
        countup options.share ++ countdown v.kind (options.share + 1) ∧
      run.1.log = (Program.settings options read).log.map Event.record ++ made.log ++
        reports.flatMap (told h) ++ closing run.1 := by
  intro made script reports run
  obtain ⟨v, hholds⟩ := value_holds hresult
  have hroom : 1 + options.share ≤ Heap.maxRefcount := by omega
  have hbegun := begin_of_shared hsettings hresult hholds.find hroom
  obtain ⟨-, hretained, hcounts⟩ := share_run hholds.find hroom
  have hshared := Heap.find?_put ⟨options.share + 1, v⟩ hholds.find
  obtain ⟨-, hreleased, hends⟩ := releaseAll_run hshared
  rw [Nat.add_comm 1] at hbegun hretained
  obtain ⟨hheap, hlog⟩ := execute_of_shared hbegun hshared device
  -- The slot is vacated as it would be had the value never been shared.
  rw [Heap.vacate_put] at hheap hreleased
  have hreports : reports = _ := Session.run_append _ _ _
  rw [hretained] at hreports
  refine ⟨v, hholds, hheap, ?_, ?_, ?_⟩
  · rw [Session.leave_append, hretained, hreleased]
  · rw [hreports, List.map_append, hcounts, hends]
    rfl
  · rw [hreports, List.flatMap_append]
    simp only [List.append_assoc] at hlog ⊢
    exact hlog

/-- What becomes of the owners of a value. To show a value that can be reached and to release it is to
release it as often as it has owners: each release but the last leaves one owner less, the last one
destroys the value, and the result is that of the showing, whatever that is. A stale handle is left
alone. So a run that shares its value retains it as often as it is told, releases it once more than
that, and leaves no value behind. -/
theorem release_loop_law :
    (∀ s : Heap, s.Reachable →
      ∀ (h : Handle) (template : List Char) (write : List UInt8 → Delivery),
      let concluded := showAndRelease s h template write
      let showing := s.showBy h template write
      (∀ e, s.find? h = some e →
        let releases := repeated (.release h) e.refcount
        let reports := Session.run ⟨s, []⟩ releases
        1 ≤ e.refcount ∧ reports.map Report.result = countdown e.value.kind e.refcount ∧
        concluded = (⟨showing.result, (Session.leave ⟨s, []⟩ releases).heap,
          reports.flatMap (told h)⟩, showing.written) ∧
        s.Freed concluded.1.heap h) ∧
      (s.find? h = none →
        concluded = (⟨.error (.staleHandle h), s, [(Event.staleRelease h).record]⟩, []))) ∧
    ∀ (allowances : Allowances) (options : Options)
      (read : String → Except TransferFault (List UInt8)) (input : List Arrival) (device : Sink),
      options.share + 1 < 2 ^ 64 →
      let run := execute allowances options read input device
      (∀ settings h, (Program.settings options read).result = .ok settings →
        let made := value (.ofSettings settings) allowances options input
        made.result = .ok h →
        let script := repeated (.retain h) options.share ++ repeated (.release h) (options.share + 1)
        let reports := Session.run ⟨made.heap, []⟩ script
        ∃ v, made.heap.find? h = some ⟨1, v⟩ ∧
          reports.map Report.result =
            countup options.share ++ countdown v.kind (options.share + 1) ∧
          run.1.heap = (Session.leave ⟨made.heap, []⟩ script).heap ∧
          run.1.log = (Program.settings options read).log.map Event.record ++ made.log ++
            reports.flatMap (told h) ++ closing run.1) ∧
      (run.1.result = .ok () →
        run.1.heap.counters.live = 0 ∧ run.1.heap.counters.created = run.1.heap.counters.destroyed ∧
        ∀ g, run.1.heap.isLive g = false) := by
  constructor
  · intro s hs h template write concluded showing
    refine ⟨fun e hfind => ?_, fun hfind => showAndRelease_of_stale hfind template write⟩
    obtain ⟨-, howned, -⟩ := hs.sound.of_find? hfind
    obtain ⟨refcount, v⟩ := e
    obtain ⟨n, rfl⟩ : ∃ n, refcount = n + 1 := ⟨refcount - 1, by dsimp only at howned; omega⟩
    obtain ⟨-, hleave, hresults⟩ := releaseAll_run hfind
    have hconcluded : concluded = _ := showAndRelease_of_live hfind template write
    refine ⟨howned, hresults, ?_, ?_⟩
    · rw [hconcluded, hleave]
    · rw [hconcluded]
      exact hs.sound.freed_vacate hs.tallied hfind
  · intro allowances options read input device hshare run
    have hroom : options.share + 1 ≤ Heap.maxRefcount := by
      unfold Heap.maxRefcount
      omega
    constructor
    · intro settings h hsettings made hmade script reports
      obtain ⟨v, hholds, hheap, hleave, hresults, hlog⟩ :=
        execute_of_made hsettings hmade hroom device
      exact ⟨v, hholds.find, hresults, hheap.trans (congrArg Session.heap hleave).symm, hlog⟩
    · intro hresult
      obtain ⟨settings, h, hsettings, hmade⟩ := made_of_execute hresult
      obtain ⟨v, hholds, hheap, -⟩ := execute_of_made hsettings hmade hroom device
      have hleft := hholds.nothing_left
      rw [← hheap] at hleft
      exact hleft

/-- A value with three owners is gone although it could not be written, a handle that was never issued
is left alone, and a run that attaches two owners to its value takes three away. -/
theorem release_loop_of_three :
    let s := ((Session.ofSettings .standard).leave [(.ample, .createInteger 7),
      (.ample, .retain ⟨0, 0⟩), (.ample, .retain ⟨0, 0⟩)]).heap
    let write := (Sink.rejecting .brokenPipe).writeAll
    let concluded := showAndRelease s ⟨0, 0⟩ Options.defaultTemplate write
    let options : Options := ⟨Options.defaultTemplate, some 7, none, false, 2⟩
    let run := execute .ample options (fun _ => .error .noSuchFile) [] .accepting
    s.find? ⟨0, 0⟩ = some ⟨3, .integer 7⟩ ∧
      countdown .integer 3 = [.ok (.released (.retained 2)), .ok (.released (.retained 1)),
        .ok (.released (.destroyed .integer))] ∧
      concluded.1.result = .error (.transfer .brokenPipe) ∧ s.Freed concluded.1.heap ⟨0, 0⟩ ∧
      (showAndRelease s ⟨0, 1⟩ Options.defaultTemplate write).1.heap = s ∧
      (∃ reports : List Report, reports.map Report.result =
          [.ok (.count 2), .ok (.count 3)] ++ countdown .integer 3 ∧
        ∃ before after, run.1.log = before ++ reports.flatMap (told ⟨0, 0⟩) ++ after) ∧
      run.1.result = .ok () ∧ run.1.heap.counters.live = 0 ∧ run.1.heap.isLive ⟨0, 0⟩ = false := by
  intro s write concluded options run
  have hs : s.Reachable := ⟨_, _, rfl⟩
  have hfind : s.find? ⟨0, 0⟩ = some ⟨3, .integer 7⟩ := rfl
  have hstale : s.find? ⟨0, 1⟩ = none := rfl
  obtain ⟨hreleased, hruns⟩ := release_loop_law
  obtain ⟨hlive, -⟩ := hreleased s hs ⟨0, 0⟩ Options.defaultTemplate write
  obtain ⟨-, -, hconcluded, hfreed⟩ := hlive _ hfind
  obtain ⟨-, hnothing⟩ := hreleased s hs ⟨0, 1⟩ Options.defaultTemplate write
  have hend : run.1.result = .ok () :=
    (execute_of_begun (h := ⟨0, 0⟩) (n := 3) (v := .integer 7) rfl rfl .accepting).2
  obtain ⟨hmade, hempty⟩ :=
    hruns .ample options (fun _ => .error .noSuchFile) [] .accepting (by decide)
  obtain ⟨v, hfound, hanswers, -, hlog⟩ := hmade .standard ⟨0, 0⟩ rfl rfl
  obtain rfl : v = .integer 7 := congrArg Entry.value (Option.some.inj hfound).symm
  obtain ⟨hnone, -, hgone⟩ := hempty hend
  refine ⟨hfind, rfl, ?_, hfreed, ?_, ⟨_, hanswers, _, _, hlog⟩, hend, hnone, hgone _⟩
  · exact congrArg (fun concluded => concluded.1.result) hconcluded
  · exact congrArg (fun concluded => concluded.1.heap) (hnothing hstale)

end Program

end Command

end CountedHeap
