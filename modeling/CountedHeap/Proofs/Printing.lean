import CountedHeap.Proofs.Emission
import CountedHeap.Proofs.Placeholder
import CountedHeap.Proofs.Subject

/-! What the program prints: its template with the first placeholder filled, or nothing at all. The
output is made after everything that can fail but the writing itself. -/
namespace CountedHeap.Command

open Source Text

/-- Everything is at hand that the program needs but memory. -/
structure Ready (options : Options) (read : String → Except TransferFault (List UInt8))
    (input : List Arrival) : Prop where
  settings : ∃ settings, (Program.settings options read).result = .ok settings ∧
    settings.liveLimit ≠ some 0
  subject : ∃ text, Subject options input text

namespace Output

theorem tail_suffix (octets : List UInt8) : tail octets <:+ octets := by
  refine ⟨(octets.reverse.dropWhile (· ≠ newline)).reverse, ?_⟩
  rw [tail, ← List.reverse_append, List.takeWhile_append_dropWhile, List.reverse_reverse]

theorem lines_append_tail (octets : List UInt8) : lines octets ++ tail octets = octets := by
  have hdrop := List.suffix_iff_eq_drop.mp (tail_suffix octets)
  calc
    lines octets ++ tail octets
      = octets.take (octets.length - (tail octets).length) ++
          octets.drop (octets.length - (tail octets).length) := by rw [lines, ← hdrop]
    _ = octets := List.take_append_drop _ _

end Output

namespace Program

variable {allowances : Allowances} {options : Options}
  {read : String → Except TransferFault (List UInt8)} {input : List Arrival}

/-- What becomes of the run up to the output. -/
inductive Begun (allowances : Allowances) (options : Options)
    (read : String → Except TransferFault (List UInt8)) (input : List Arrival) : Prop
  | begun {h : Handle} {n : Nat} {v : Value}
      (hresult : (begin allowances options read input).result = .ok h)
      (hfind : (begin allowances options read input).heap.find? h = some ⟨n, v⟩)
      (hready : Ready options read input) (hsubject : Subject options input v.view.display) :
      Begun allowances options read input
  | notReady {fault : Fault} (hresult : (begin allowances options read input).result = .error fault)
      (hready : ¬Ready options read input) : Begun allowances options read input
  | refused {fault : Fault} (hresult : (begin allowances options read input).result = .error fault)
      (hrefused : fault.refused = true) : Begun allowances options read input
  | overshared {fault : Fault}
      (hresult : (begin allowances options read input).result = .error fault)
      (hshare : Heap.maxRefcount ≤ options.share) : Begun allowances options read input

/-- A run that gets its settings goes on as its value does. -/
theorem begin_of_settings (allowances : Allowances) (input : List Arrival) {settings : Settings}
    (hsettings : (Program.settings options read).result = .ok settings) :
    let made := (value (.ofSettings settings) allowances options input).andThen fun h s =>
      (share s h options.share).andThen fun _ s => (⟨.ok h, s, []⟩ : Stage Handle)
    (begin allowances options read input).result = made.result ∧
      (begin allowances options read input).heap = made.heap := by
  intro made
  have hloaded : (⟨(Program.settings options read).result, .ofSettings .standard,
      (Program.settings options read).log.map Event.record⟩ : Stage Settings).result =
    .ok settings := hsettings
  exact Stage.andThen_of_ok hloaded

theorem begin_of_unmade {settings : Settings}
    (hsettings : (Program.settings options read).result = .ok settings) {fault : Fault}
    (hfault : (value (.ofSettings settings) allowances options input).result = .error fault) :
    (begin allowances options read input).result = .error fault :=
  (begin_of_settings allowances input hsettings).1.trans (Stage.andThen_of_error hfault)

/-- A value that is made is shared, unless there would be too many owners. -/
theorem begin_of_made {settings : Settings}
    (hsettings : (Program.settings options read).result = .ok settings) {h : Handle} {v : Value}
    (hresult : (value (.ofSettings settings) allowances options input).result = .ok h)
    (hfind : (value (.ofSettings settings) allowances options input).heap.find? h = some ⟨1, v⟩) :
    ((begin allowances options read input).result = .ok h ∧
      (begin allowances options read input).heap.find? h = some ⟨1 + options.share, v⟩) ∨
    (Heap.maxRefcount ≤ options.share ∧
      (begin allowances options read input).result = .error (.refcountOverflow h)) := by
  obtain ⟨hbegin, hheap⟩ := begin_of_settings allowances input hsettings
  rw [(Stage.andThen_of_ok hresult).1] at hbegin
  rw [(Stage.andThen_of_ok hresult).2] at hheap
  obtain ⟨hshared, hlive⟩ | ⟨hmany, hfault⟩ := share_cases hfind options.share
  · rw [(Stage.andThen_of_ok hshared).1] at hbegin
    rw [(Stage.andThen_of_ok hshared).2] at hheap
    exact .inl ⟨hbegin, hheap ▸ hlive⟩
  · refine .inr ⟨?_, hbegin.trans (Stage.andThen_of_error hfault)⟩
    dsimp only at hmany
    omega

theorem not_ready_of_limit {settings : Settings}
    (hsettings : (Program.settings options read).result = .ok settings)
    (hlimit : settings.liveLimit = some 0) : ¬Ready options read input := by
  rintro ⟨⟨other, hother, hnot⟩, -⟩
  cases hsettings.symm.trans hother
  exact hnot hlimit

theorem begin_begun (allowances : Allowances) (options : Options)
    (read : String → Except TransferFault (List UInt8)) (input : List Arrival) :
    Begun allowances options read input := by
  cases hsettings : (Program.settings options read).result with
  | error fault =>
    have hresult : (begin allowances options read input).result = .error fault :=
      Stage.andThen_of_error hsettings
    refine .notReady hresult ?_
    rintro ⟨⟨settings, hok, -⟩, -⟩
    cases hsettings.symm.trans hok
  | ok settings =>
    cases value_made settings allowances options input with
    | forbidden hfault hlimit =>
      exact .notReady (begin_of_unmade hsettings hfault) (not_ready_of_limit hsettings hlimit)
    | refused hfault hrefused => exact .refused (begin_of_unmade hsettings hfault) hrefused
    | noLine hfault hnone =>
      refine .notReady (begin_of_unmade hsettings hfault) ?_
      rintro ⟨-, text, hsubject⟩
      exact hnone text hsubject
    | made hresult hfind hsubject hlimit =>
      obtain ⟨hbegin, hlive⟩ | ⟨hmany, hfault⟩ := begin_of_made hsettings hresult hfind
      · exact .begun hbegin hlive ⟨⟨settings, hsettings, hlimit⟩, _, hsubject⟩ hsubject
      · exact .overshared hfault hmany

/-- No memory is refused to a run that has storage enough for its line. -/
theorem begin_granted {settings : Settings}
    (hsettings : (Program.settings options read).result = .ok settings)
    (hcovers : allowances.Covers (storageNeeded settings (lead input).length)) :
    Granted (begin allowances options read input).result := by
  intro fault hfault
  cases value_made settings allowances options input with
  | made hresult hfind =>
    obtain ⟨hbegin, -⟩ | ⟨-, hover⟩ := begin_of_made hsettings hresult hfind
    · cases hfault.symm.trans hbegin
    · cases hfault.symm.trans hover
      rfl
  | forbidden hresult | refused hresult | noLine hresult =>
    cases hfault.symm.trans (begin_of_unmade hsettings hresult)
    exact value_granted hcovers _ hresult

theorem complete_result (shown : Stage Unit) : (complete shown).result = shown.result := by
  cases hresult : shown.result with
  | error fault => exact Stage.andThen_of_error hresult
  | ok => exact (Stage.andThen_of_ok hresult).1

/-- Once its value is there, a run shows it and takes its owners away. -/
theorem execute_eq {h : Handle} (hresult : (begin allowances options read input).result = .ok h)
    (device : Sink) :
    let begun := begin allowances options read input
    let shown := showAndRelease begun.heap h options.template (Output.print device)
    execute allowances options read input device =
      (begun.andThen fun _ _ => complete shown.1, shown.2) := by
  rw [execute]
  simp only [hresult]

/-- Once its value is there, a run comes to what the writing comes to. -/
theorem execute_of_begun {h : Handle} {n : Nat} {v : Value}
    (hresult : (begin allowances options read input).result = .ok h)
    (hfind : (begin allowances options read input).heap.find? h = some ⟨n, v⟩) (device : Sink) :
    let text := Template.render options.template [v.view.display]
    let delivery := Output.print device (octets text)
    let run := execute allowances options read input device
    run.2 = delivery.written ∧
      run.1.result = delivery.failure.elim (.ok ()) fun cause => .error (.transfer cause) := by
  intro text delivery run
  have hshow := Heap.showBy_of_live hfind options.template (Output.print device)
  have hrun : run = _ := execute_eq hresult device
  constructor
  · rw [hrun, showAndRelease, hshow]
  · rw [hrun, (Stage.andThen_of_ok hresult).1, complete_result, showAndRelease, hshow]
    exact conclude_of_live hfind _

theorem execute_of_error {fault : Fault}
    (hresult : (begin allowances options read input).result = .error fault) (device : Sink) :
    (execute allowances options read input device).1.result = .error fault ∧
      (execute allowances options read input device).2 = [] := by
  rw [execute]
  simp only [hresult, and_self]

/-- A run gets its value if everything is at hand and it does not ask for too many owners. -/
theorem begun_of_ready (hshare : options.share < Heap.maxRefcount)
    (hready : Ready options read input)
    (hgranted : Granted (begin allowances options read input).result) :
    ∃ h n v, (begin allowances options read input).result = .ok h ∧
      (begin allowances options read input).heap.find? h = some ⟨n, v⟩ ∧
      Subject options input v.view.display := by
  cases begin_begun allowances options read input with
  | begun hresult hfind _ hsubject => exact ⟨_, _, _, hresult, hfind, hsubject⟩
  | notReady _ hnot => exact absurd hready hnot
  | refused hresult hrefused =>
    cases hrefused.symm.trans (hgranted _ hresult)
  | overshared _ hmany => omega

/-- A run writes its text, or fails before that. -/
theorem execute_cases (allowances : Allowances) (options : Options)
    (read : String → Except TransferFault (List UInt8)) (input : List Arrival) (device : Sink) :
    let run := execute allowances options read input device
    (∃ text, Ready options read input ∧ Subject options input text ∧
      let delivery := Output.print device (octets (Template.render options.template [text]))
      run.2 = delivery.written ∧
        run.1.result = delivery.failure.elim (.ok ()) fun cause => .error (.transfer cause)) ∨
    ∃ fault, run.1.result = .error fault ∧ run.2 = [] := by
  intro run
  cases begin_begun allowances options read input with
  | begun hresult hfind hready hsubject =>
    obtain ⟨hwritten, hend⟩ := execute_of_begun hresult hfind device
    exact .inl ⟨_, hready, hsubject, hwritten, hend⟩
  | notReady hresult | refused hresult | overshared hresult =>
    obtain ⟨hend, hwritten⟩ := execute_of_error hresult device
    exact .inr ⟨_, hend, hwritten⟩

end Program

/-- A usable command line leaves what the run leaves, and its exit code tells whether the run
failed. -/
theorem Execution.ofArguments_run {arguments : List String} {options : Options}
    (hrun : Invocation.ofArguments (arguments.map String.toList) = .run options)
    (specification : String) (allowances : Allowances)
    (read : String → Except TransferFault (List UInt8)) (input : List Arrival) (device : Sink) :
    let run := Program.execute allowances options read input device
    let e := Execution.ofArguments arguments specification allowances read input device
    e.output = run.2 ∧ (run.1.result = .ok () → e.exit = 0) ∧
      ∀ fault, run.1.result = .error fault →
        e.exit = 1 ∧ (complaint fault).toList <:+ e.errors := by
  intro run e
  have hexecution : e = (ofStage (.ofSpecification specification) run.1 run.2).after
      (Filter.warnings specification) := by
    unfold e
    rw [ofArguments, hrun]
    rfl
  cases hresult : run.1.result with
  | ok =>
    rw [hexecution, ofStage, hresult]
    exact ⟨rfl, fun _ => rfl, nofun⟩
  | error fault =>
    rw [hexecution, ofStage, hresult]
    refine ⟨rfl, nofun, ?_⟩
    rintro _ ⟨⟩
    refine ⟨rfl, ?_⟩
    exact List.suffix_append_of_suffix (List.suffix_append _ _)

/-- What a run has printed that ends well. -/
theorem Execution.output_of_exit {arguments : List String} {options : Options}
    (hrun : Invocation.ofArguments (arguments.map String.toList) = .run options)
    {specification : String} {allowances : Allowances}
    {read : String → Except TransferFault (List UInt8)} {input : List Arrival} {device : Sink}
    (hexit : (ofArguments arguments specification allowances read input device).exit = 0) :
    ∃ text, Subject options input text ∧
      let delivery := Output.print device (octets (Template.render options.template [text]))
      delivery.failure = none ∧
        (ofArguments arguments specification allowances read input device).output =
          delivery.written := by
  obtain ⟨houtput, -, herror⟩ := ofArguments_run hrun specification allowances read input device
  obtain ⟨text, -, hsubject, hwritten, hend⟩ | ⟨fault, hend, -⟩ :=
    Program.execute_cases allowances options read input device
  · refine ⟨text, hsubject, ?_, houtput.trans hwritten⟩
    cases hfailure : (Output.print device
      (octets (Template.render options.template [text]))).failure with
    | none => rfl
    | some cause =>
      rw [hfailure] at hend
      cases hexit.symm.trans (herror _ hend).1
  · cases hexit.symm.trans (herror fault hend).1

/-- A run that has all it needs prints, and its exit code tells what it sees of the printing. -/
theorem Execution.of_ready {arguments : List String} {options : Options}
    (hrun : Invocation.ofArguments (arguments.map String.toList) = .run options)
    (hshare : options.share ≤ 0xFFFF_FFFF_FFFF_FFFE) (specification : String)
    {allowances : Allowances} {read : String → Except TransferFault (List UInt8)}
    {input : List Arrival} (hready : Ready options read input)
    (hgranted : Granted (Program.begin allowances options read input).result) :
    ∃ text, Subject options input text ∧ ∀ device,
      let delivery := Output.print device (octets (Template.render options.template [text]))
      let e := ofArguments arguments specification allowances read input device
      e.output = delivery.written ∧ (delivery.failure = none → e.exit = 0) ∧
        ∀ cause, delivery.failure = some cause →
          e.exit = 1 ∧ (complaint (.transfer cause)).toList <:+ e.errors := by
  have hroom : options.share < Heap.maxRefcount := Nat.lt_of_le_of_lt hshare (by decide)
  obtain ⟨h, n, v, hresult, hfind, hsubject⟩ := Program.begun_of_ready hroom hready hgranted
  refine ⟨_, hsubject, fun device => ?_⟩
  obtain ⟨houtput, hok, herror⟩ :=
    ofArguments_run hrun specification allowances read input device
  obtain ⟨hwritten, hend⟩ := Program.execute_of_begun hresult hfind device
  refine ⟨houtput.trans hwritten, fun hnone => ?_, fun cause hsome => ?_⟩
  · rw [hnone] at hend
    exact hok hend
  · rw [hsome] at hend
    exact herror _ hend

end CountedHeap.Command
