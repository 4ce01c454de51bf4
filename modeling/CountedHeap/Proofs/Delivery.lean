import CountedHeap.Proofs.Printing
import CountedHeap.Proofs.WriteLoop

/-! Which octets of the output reach its device, and what a run that ends well says about them. Lines
and a tail that fills the buffer go out while the program runs, so that their loss is told. A shorter
tail goes out when the program ends, and its loss is not told. -/
namespace CountedHeap

open Source Text

/-- A device that has room for so many octets, and then fails. -/
theorem Sink.writeAll_room (cause : TransferFault) (octets : List UInt8) :
    ∃ full : Sink,
      (⟨[.accept octets.length], some cause⟩ : Sink).writeAll octets = ⟨octets, none, full⟩ ∧
        ∀ more, (full.writeAll more).written = [] := by
  cases octets with
  | nil =>
    refine ⟨_, Sink.writeAll_nil _, fun more => ?_⟩
    cases more <;> rfl
  | cons b octets =>
    refine ⟨.rejecting cause, ?_, fun more => ?_⟩
    · simp [writeAll, deliver, rejecting]
    · cases more <;> rfl

namespace Command

namespace Output

/-- Nothing of the output waits for the end of the program. -/
def Unbuffered (octets : List UInt8) : Prop := tail octets = [] ∨ bufferSize ≤ (tail octets).length

instance (octets : List UInt8) : Decidable (Unbuffered octets) :=
  inferInstanceAs (Decidable (_ ∨ _))

theorem newline_not_mem_tail (octets : List UInt8) : newline ∉ tail octets := by
  rw [tail, List.mem_reverse]
  exact not_mem_takeWhile_ne newline octets.reverse

theorem tail_of_not_mem {octets : List UInt8} (hnone : newline ∉ octets) : tail octets = octets := by
  have hmirror : newline ∉ octets.reverse := mt List.mem_reverse.mp hnone
  rw [tail, takeWhile_ne_of_not_mem hmirror, List.reverse_reverse]

theorem lines_eq_nil_iff {octets : List UInt8} : lines octets = [] ↔ newline ∉ octets := by
  have hparts := lines_append_tail octets
  constructor
  · intro hlines
    rw [hlines, List.nil_append] at hparts
    exact hparts ▸ newline_not_mem_tail octets
  · intro hnone
    rw [tail_of_not_mem hnone] at hparts
    exact List.append_left_eq_self.mp hparts

theorem print_of_failure {device : Sink} {octets : List UInt8} {cause : TransferFault}
    (hfirst : (device.writeAll (lines octets)).failure = some cause) :
    print device octets = device.writeAll (lines octets) := by
  simp only [print, hfirst]

/-- Once the lines are there, all depends on the tail, but the program may not see it. -/
theorem print_of_lines {device : Sink} {octets : List UInt8}
    (hfirst : (device.writeAll (lines octets)).failure = none) :
    let last := (device.writeAll (lines octets)).sink.writeAll (tail octets)
    print device octets = ⟨lines octets ++ last.written,
      if bufferSize ≤ (tail octets).length then last.failure else none, last.sink⟩ := by
  have hlines := (device.writeAll_written (lines octets)).2 hfirst
  simp only [print, hfirst, hlines]

/-- The octets come from the front on. If the program sees no failure, the lines are all there, and
so is everything that does not wait for its end. -/
theorem print_written (device : Sink) (octets : List UInt8) :
    (print device octets).written <+: octets ∧
      ((print device octets).failure = none → lines octets <+: (print device octets).written ∧
        (Unbuffered octets → (print device octets).written = octets)) := by
  cases hfirst : (device.writeAll (lines octets)).failure with
  | some cause =>
    rw [print_of_failure hfirst]
    refine ⟨?_, fun hnone => ?_⟩
    · have hfront := (device.writeAll_written (lines octets)).1
      exact hfront.trans ⟨tail octets, lines_append_tail octets⟩
    · cases hfirst.symm.trans hnone
  | none =>
    obtain ⟨hfront, hall⟩ :=
      (device.writeAll (lines octets)).sink.writeAll_written (tail octets)
    rw [print_of_lines hfirst]
    refine ⟨?_, fun hnone => ⟨List.prefix_append _ _, fun hunbuffered => ?_⟩⟩
    · have hparts := (List.prefix_append_right_inj (lines octets)).mpr hfront
      rwa [lines_append_tail] at hparts
    · have htail : ((device.writeAll (lines octets)).sink.writeAll (tail octets)).written =
          tail octets := by
        obtain hempty | hfull := hunbuffered
        · rw [hempty, Sink.writeAll_nil]
        · exact hall ((if_pos hfull).symm.trans hnone)
      exact (congrArg (lines octets ++ ·) htail).trans (lines_append_tail octets)

/-- A device that takes nothing is noticed at a newline or when the buffer is full. -/
theorem print_rejecting (cause : TransferFault) (octets : List UInt8) :
    (print (.rejecting cause) octets).written = [] ∧
      (print (.rejecting cause) octets).failure =
        if newline ∈ octets ∨ bufferSize ≤ octets.length then some cause else none := by
  by_cases hmem : newline ∈ octets
  · have hlines : lines octets ≠ [] := fun hnone => lines_eq_nil_iff.mp hnone hmem
    obtain ⟨b, rest, hcons⟩ := List.exists_cons_of_ne_nil hlines
    have hfirst : (Sink.rejecting cause).writeAll (lines octets) =
        ⟨[], some cause, .rejecting cause⟩ := by
      rw [hcons, Sink.writeAll_rejecting]
    rw [print_of_failure (congrArg Delivery.failure hfirst), hfirst, if_pos (.inl hmem)]
    exact ⟨rfl, rfl⟩
  · have hlines : lines octets = [] := lines_eq_nil_iff.mpr hmem
    have hfirst : (Sink.rejecting cause).writeAll (lines octets) =
        ⟨[], none, .rejecting cause⟩ := by
      rw [hlines, Sink.writeAll_nil]
    rw [print_of_lines (congrArg Delivery.failure hfirst), hfirst, hlines, tail_of_not_mem hmem]
    cases octets with
    | nil => exact ⟨rfl, rfl⟩
    | cons b rest => simp [Sink.writeAll_rejecting, hmem]

/-- A device with room for the lines only is not noticed unless the tail fills the buffer. -/
theorem print_lines_only (cause : TransferFault) {octets : List UInt8}
    (hbuffered : ¬Unbuffered octets) :
    let device : Sink := ⟨[.accept (lines octets).length], some cause⟩
    (print device octets).written = lines octets ∧ (print device octets).failure = none := by
  intro device
  obtain ⟨full, hfirst, hnothing⟩ := Sink.writeAll_room cause (lines octets)
  rw [print_of_lines (congrArg Delivery.failure hfirst), hfirst,
    if_neg (not_or.mp hbuffered).2]
  exact ⟨by rw [hnothing, List.append_nil], rfl⟩

end Output

/-- A run that ends well has delivered its output from the front on, with all its lines, and the
whole of it if nothing waits for the program's end. Of any other output there is a device that loses
the tail although the run ends well. A device that takes nothing makes the run fail if the output has
a newline or fills the buffer; else the run ends well and nothing is delivered. -/
theorem delivery_law {arguments : List String} {options : Options}
    (hrun : Invocation.ofArguments (arguments.map String.toList) = .run options)
    (specification : String) (allowances : Allowances)
    (read : String → Except TransferFault (List UInt8)) (input : List Arrival) :
    let e := Execution.ofArguments arguments specification allowances read input
    (∀ device, (e device).exit = 0 → ∃ text output, Subject options input text ∧
      Template.Fills text options.template output ∧ (e device).output <+: octets output ∧
      Output.lines (octets output) <+: (e device).output ∧
      (Output.Unbuffered (octets output) → (e device).output = octets output)) ∧
    (options.share ≤ 0xFFFF_FFFF_FFFF_FFFE → Ready options read input →
      Granted (Program.begin allowances options read input).result →
      ∃ text output, Subject options input text ∧ Template.Fills text options.template output ∧
        ((∀ device, (e device).exit = 0 → (e device).output = octets output) ↔
          Output.Unbuffered (octets output)) ∧
        ∀ cause, (e (.rejecting cause)).output = [] ∧
          if Output.newline ∈ octets output ∨ Output.bufferSize ≤ (octets output).length then
            (e (.rejecting cause)).exit = 1 ∧
              (Execution.complaint (.transfer cause)).toList <:+ (e (.rejecting cause)).errors
          else (e (.rejecting cause)).exit = 0) := by
  intro e
  constructor
  · intro device hexit
    obtain ⟨text, hsubject, hnone, houtput⟩ := Execution.output_of_exit hrun hexit
    obtain ⟨hfront, hall⟩ :=
      Output.print_written device (octets (Template.render options.template [text]))
    obtain ⟨hlines, hwhole⟩ := hall hnone
    rw [← houtput] at hfront hlines hwhole
    exact ⟨text, _, hsubject, Template.fills_render _ _, hfront, hlines, hwhole⟩
  · intro hshare hready hgranted
    obtain ⟨text, hsubject, hprint⟩ :=
      Execution.of_ready hrun hshare specification hready hgranted
    refine ⟨text, _, hsubject, Template.fills_render _ _, ⟨?_, ?_⟩, ?_⟩
    · intro hwarrant
      by_contra hbuffered
      obtain ⟨hwritten, hnone⟩ := Output.print_lines_only .noSpace hbuffered
      obtain ⟨houtput, hok, -⟩ := hprint _
      have hlines := (houtput.trans hwritten).symm.trans (hwarrant _ (hok hnone))
      have hparts := Output.lines_append_tail (octets (Template.render options.template [text]))
      exact hbuffered (.inl (List.append_right_eq_self.mp (hparts.trans hlines.symm)))
    · intro hunbuffered device hexit
      obtain ⟨houtput, -, herror⟩ := hprint device
      obtain ⟨-, hall⟩ :=
        Output.print_written device (octets (Template.render options.template [text]))
      cases hfailure : (Output.print device
          (octets (Template.render options.template [text]))).failure with
      | none => exact houtput.trans ((hall hfailure).2 hunbuffered)
      | some cause => cases hexit.symm.trans (herror cause hfailure).1
    · intro cause
      obtain ⟨houtput, hok, herror⟩ := hprint (.rejecting cause)
      obtain ⟨hnothing, hfailure⟩ :=
        Output.print_rejecting cause (octets (Template.render options.template [text]))
      refine ⟨houtput.trans hnothing, ?_⟩
      split at hfailure
      · next hnoticed =>
        rw [if_pos hnoticed]
        exact herror cause hfailure
      · next hunnoticed =>
        rw [if_neg hunnoticed]
        exact hok hfailure

/-- An integer on a line of its own waits for nothing, so its loss is told. -/
theorem delivery_of_line :
    let arguments := ["-i", "12"]
    let options : Options := ⟨Options.defaultTemplate, some 12, none, false, 0⟩
    let read : String → Except TransferFault (List UInt8) := fun _ => .error .noSuchFile
    let e := Execution.ofArguments arguments "" (.steady .unbounded) read []
    Invocation.ofArguments (arguments.map String.toList) = .run options ∧
    (∀ device, (e device).exit = 0 → (e device).output = octets "12\n".toList) ∧
    (e (.rejecting .noSpace)).output = [] ∧ (e (.rejecting .noSpace)).exit = 1 ∧
    "error: I/O error: No space left on device (os error 28)\n".toList <:+
      (e (.rejecting .noSpace)).errors := by
  intro arguments options read e
  have hrun : Invocation.ofArguments (arguments.map String.toList) = .run options := by decide
  have hcanonical : Decimal.Canonical 12 "12".toList := Decimal.canonical_iff.mpr (by decide)
  have hinteger : Subject options [] "12".toList := .integer rfl hcanonical
  obtain ⟨-, hexact⟩ := delivery_law hrun "" (.steady .unbounded) read []
  have hready : Ready options read [] := ⟨⟨.standard, rfl, by decide⟩, _, hinteger⟩
  have hgranted : Granted (Program.begin (.steady .unbounded) options read []).result :=
    Program.begin_granted rfl (Allowances.covers_unbounded _)
  obtain ⟨text, output, hsubject, hfills, hwarrant, hrejecting⟩ :=
    hexact (by decide) hready hgranted
  have htext := hinteger.unique hsubject rfl fun _ => rfl
  have houtput : output = "12\n".toList := by
    rw [Template.fills_iff.mp hfills, htext]
    decide
  rw [houtput] at hwarrant hrejecting
  obtain ⟨hnothing, hfailure⟩ := hrejecting .noSpace
  rw [if_pos (by decide)] at hfailure
  exact ⟨hrun, hwarrant.mpr (by decide), hnothing, hfailure⟩

/-- Without a newline, an integer is lost on a device that takes nothing, and the run ends well. -/
theorem lost_tail :
    let template := "\x7b\x7d"
    let arguments := ["-t", template, "-i", "12", "--share", "0"]
    let options : Options := ⟨template.toList, some 12, none, false, 0⟩
    let read : String → Except TransferFault (List UInt8) := fun _ => .error .noSuchFile
    let e := Execution.ofArguments arguments "" (.steady .unbounded) read [] (.rejecting .noSpace)
    Invocation.ofArguments (arguments.map String.toList) = .run options ∧
    e.exit = 0 ∧ e.output = [] ∧
    ∀ text output, Subject options [] text → Template.Fills text options.template output →
      output = "12".toList := by
  intro template arguments options read e
  have hrun : Invocation.ofArguments (arguments.map String.toList) = .run options := by decide
  have hcanonical : Decimal.Canonical 12 "12".toList := Decimal.canonical_iff.mpr (by decide)
  have hinteger : Subject options [] "12".toList := .integer rfl hcanonical
  have hrender : Template.render template.toList ["12".toList] = "12".toList := by decide
  have hready : Ready options read [] := ⟨⟨.standard, rfl, by decide⟩, _, hinteger⟩
  have hgranted : Granted (Program.begin (.steady .unbounded) options read []).result :=
    Program.begin_granted rfl (Allowances.covers_unbounded _)
  obtain ⟨text, hsubject, hprint⟩ := Execution.of_ready hrun (by decide) "" hready hgranted
  have htext := hinteger.unique hsubject rfl fun _ => rfl
  obtain ⟨houtput, hok, -⟩ := hprint (.rejecting .noSpace)
  rw [htext, hrender] at houtput hok
  obtain ⟨hnothing, hfailure⟩ := Output.print_rejecting .noSpace (octets "12".toList)
  rw [if_neg (by decide)] at hfailure
  refine ⟨hrun, hok hfailure, houtput.trans hnothing, fun other output hother hfills => ?_⟩
  rw [Template.fills_iff.mp hfills, hinteger.unique hother rfl fun _ => rfl]
  exact hrender

end Command

end CountedHeap
