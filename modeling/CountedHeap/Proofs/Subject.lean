import CountedHeap.Proofs.Failure
import CountedHeap.Proofs.FirstLine
import CountedHeap.Proofs.Numeral
import CountedHeap.Proofs.Refusal
import CountedHeap.Proofs.Release
import CountedHeap.Proofs.Reserve

/-! What the program shows: an integer of the command line, or the first line of its input. The
value is made in a heap of its own, so that it is there unless the settings forbid all values,
memory is refused, or there is no line to read. -/
namespace CountedHeap

open Source Text

namespace Command

/-- The text that takes the first placeholder. -/
inductive Subject (options : Options) (input : List Arrival) : List Char → Prop
  | integer {n : Int} {text : List Char} (hinteger : options.integer = some n)
      (htext : Decimal.Canonical n text) : Subject options input text
  | line {line : List Char} (hinteger : options.integer = none) (hline : FirstLine input line) :
      Subject options input (line.filter (· ≠ terminator))

/-- The integer, or the part of the input before its first newline, decides what is shown. -/
theorem Subject.unique {options options' : Options} {input input' : List Arrival}
    {text text' : List Char} (hsubject : Subject options input text)
    (hsubject' : Subject options' input' text') (hinteger : options'.integer = options.integer)
    (hsame : options.integer = none →
      beforeNewline (lead input') = beforeNewline (lead input)) : text' = text := by
  cases hsubject with
  | integer hsome htext =>
    cases hsubject' with
    | integer hsome' htext' =>
      cases hsome'.symm.trans (hinteger.trans hsome)
      rw [Decimal.canonical_iff.mp htext, Decimal.canonical_iff.mp htext']
    | line hnone' => cases hnone'.symm.trans (hinteger.trans hsome)
  | line hnone hline =>
    cases hsubject' with
    | integer hsome' => cases hsome'.symm.trans (hinteger.trans hnone)
    | line _ hline' => rw [hline.unique hline' (hsame hnone)]

end Command

namespace Heap

theorem atLiveLimit_ofSettings {settings : Settings} :
    (ofSettings settings).atLiveLimit = false ↔ settings.liveLimit ≠ some 0 := by
  unfold atLiveLimit ofSettings
  cases settings.liveLimit <;> simp

/-- Below the limit, values are refused only where memory is. -/
theorem refused_of_insert {s : Heap} (hlength : s.slots.length < maxSlots) {allowance : Allowance}
    (hlimit : s.atLiveLimit = false) {value : Value} {fault : Fault}
    (hresult : (s.insert allowance value).result = .error fault) : fault.refused = true := by
  rw [insert_error_iff hlength, ← atLiveLimit_iff, hlimit] at hresult
  obtain ⟨hat, -⟩ | ⟨-, -, -, rfl⟩ := hresult
  · cases hat
  · rfl

theorem refused_of_createText {s : Heap} (hlength : s.slots.length < maxSlots)
    {allowance : Allowance} (hlimit : s.atLiveLimit = false) {fault : Fault}
    (hresult : (s.createText allowance).result = .error fault) : fault.refused = true := by
  rw [createText_error_iff hlength, ← atLiveLimit_iff, hlimit] at hresult
  obtain ⟨-, rfl⟩ | ⟨-, ⟨hat, -⟩ | ⟨-, -, -, rfl⟩⟩ := hresult
  · rfl
  · cases hat
  · rfl

/-- The only allocations that fail while a line is read are those that are refused. -/
theorem refused_of_readLine {s : Heap} (hs : s.Sound) {allowance : Allowance}
    {input : List Arrival} {shortage : Shortage} (hlimit : s.atLiveLimit = false)
    (hroom : s.free = [] → s.slots.length < maxSlots)
    (hresult : (s.readLine allowance input).result = .error (.allocation shortage)) :
    shortage.refused = true := by
  by_contra hrefused
  have hgranted : Granted (s.readLine allowance input).result := by
    intro fault hfault
    cases hresult.symm.trans hfault
    exact Bool.eq_false_iff.mpr hrefused
  have hgrants : s.Grants .unbounded (lead input).length :=
    ⟨hlimit, fun hfree => ⟨hroom hfree, .inr rfl⟩, rfl, fun _ _ => rfl⟩
  rw [readLine_of_granted hs hgranted] at hresult
  exact readLine_granted hs hgrants shortage hresult

/-- After a line, a heap that was empty has one vacant slot. -/
theorem readLine_ofSettings {settings : Settings} {allowance : Allowance} {line : Handle}
    (hcreated : ((ofSettings settings).createText allowance).result = .ok line)
    (input : List Arrival) :
    let t := ((ofSettings settings).readLine allowance input).heap
    t.Sound ∧ t.atLiveLimit = (ofSettings settings).atLiveLimit ∧ t.slots.length = 1 := by
  intro t
  have hs := sound_ofSettings settings
  obtain ⟨ht, -, hlimit, -⟩ := readLine_reserve hs hcreated input
  refine ⟨ht, hlimit, ?_⟩
  obtain ⟨old, new, hrun⟩ := readLine_of_created hs hcreated input
  have hheap : t = _ := hrun.heap
  rw [hheap, hrun.assembled]
  cases vacated_of_create hrun.created hs ⟨1, .text new⟩ with
  | again _ _ hfree | retired _ _ hfree => cases hfree
  | added _ _ hslots => rw [hslots]; rfl

end Heap

namespace Command

/-- Whatever is being done, the table may grow, and storage is granted up to a size. -/
structure Allowances.Covers (a : Allowances) (size : Nat) : Prop where
  line : a.line.Covers size
  creation : a.creation.Covers size
  append : a.append.Covers size

theorem Allowances.covers_unbounded (size : Nat) : (steady .unbounded).Covers size := by
  have hcovers : Allowance.unbounded.Covers size := ⟨rfl, fun _ _ => rfl⟩
  exact ⟨hcovers, hcovers, hcovers⟩

namespace Program

variable {settings : Settings} {allowance : Allowance} {allowances : Allowances}
  {options : Options} {input : List Arrival}

/-- What becomes of the value: it is made and holds the subject, or it is not made for one of three
reasons. -/
inductive Made (settings : Settings) (options : Options) (input : List Arrival)
    (stage : Stage Handle) : Prop
  | made {h : Handle} {v : Value} (hresult : stage.result = .ok h)
      (hfind : stage.heap.find? h = some ⟨1, v⟩) (hsubject : Subject options input v.view.display)
      (hlimit : settings.liveLimit ≠ some 0) : Made settings options input stage
  | forbidden {fault : Fault} (hresult : stage.result = .error fault)
      (hlimit : settings.liveLimit = some 0) : Made settings options input stage
  | refused {fault : Fault} (hresult : stage.result = .error fault)
      (hrefused : fault.refused = true) : Made settings options input stage
  | noLine {fault : Fault} (hresult : stage.result = .error fault)
      (hnone : ∀ text, ¬Subject options input text) : Made settings options input stage

theorem Made.congr {stage other : Stage Handle} (hmade : Made settings options input other)
    (hresult : stage.result = other.result) (hheap : stage.heap = other.heap) :
    Made settings options input stage := by
  cases hmade with
  | made hok hfind hsubject hlimit =>
    exact .made (hresult.trans hok) (hheap ▸ hfind) hsubject hlimit
  | forbidden hfault hlimit => exact .forbidden (hresult.trans hfault) hlimit
  | refused hfault hrefused => exact .refused (hresult.trans hfault) hrefused
  | noLine hfault hnone => exact .noLine (hresult.trans hfault) hnone

theorem length_ofSettings : (Heap.ofSettings settings).slots.length < Heap.maxSlots := by
  change 0 < Heap.maxSlots
  decide

theorem made_integer {n : Int} (hinteger : options.integer = some n) :
    Made settings options input
      (Stage.ofOutcome ((Heap.ofSettings settings).createInteger allowance n)) := by
  have hs := Heap.sound_ofSettings settings
  obtain ⟨hc, hresult⟩ | ⟨shortage, hrefused⟩ :=
    (Heap.ofSettings settings).insert_cases allowance (.integer n)
  · refine .made hresult (Heap.phase_eq_live_iff.mp (Heap.phase_created hc hs)) ?_ ?_
    · exact .integer hinteger (Decimal.canonical_ofInt n)
    · exact Heap.atLiveLimit_ofSettings.mp hc.limit_create
  · have hresult : ((Heap.ofSettings settings).insert allowance (.integer n)).result =
      .error (.allocation shortage) := congrArg Outcome.result hrefused
    by_cases hlimit : settings.liveLimit = some 0
    · exact .forbidden hresult hlimit
    · have hbelow := Heap.atLiveLimit_ofSettings.mpr hlimit
      exact .refused hresult (Heap.refused_of_insert length_ofSettings hbelow hresult)

/-- A text that was read is appended as it is. -/
theorem content_append?_of_clean {grant : Nat → Bool} {old new : Buffer} {text : List Char}
    (hclean : terminator ∉ text) (hempty : old.content = [])
    (happend : old.append? grant text = some new) : new.content = text := by
  obtain ⟨capacity, rfl, -⟩ := Buffer.append?_eq_some happend
  rw [Buffer.content_extend, hempty, List.nil_append]
  exact takeWhile_ne_of_not_mem hclean

/-- The stage that keeps a text in a value of its own. -/
def textValue (s : Heap) (allowances : Allowances) (text : List Char) : Stage Handle :=
  (Stage.ofOutcome (s.createText allowances.creation)).andThen fun h s =>
    (Stage.ofOutcome (s.append allowances.append h text)).andThen fun _ s => ⟨.ok h, s, []⟩

/-- A text is kept, or there is no storage for more of it, or its value is not made. -/
theorem textValue_cases {s : Heap} (hs : s.Sound) (allowances : Allowances) (text : List Char) :
    (∃ old new : Buffer, old.content = [] ∧ old.append? allowances.append.storage text = some new ∧
      (textValue s allowances text).result = .ok s.nextHandle ∧
      (textValue s allowances text).heap.find? s.nextHandle = some ⟨1, .text new⟩) ∨
    (∃ old : Buffer, old.content = [] ∧ old.append? allowances.append.storage text = none ∧
      (textValue s allowances text).result = .error (.allocation .moreText)) ∨
    ∃ shortage, (s.createText allowances.creation).result = .error (.allocation shortage) ∧
      (textValue s allowances text).result = .error (.allocation shortage) := by
  let created := s.createText allowances.creation
  obtain ⟨old, hempty, hc, hcreated⟩ | ⟨shortage, hrefused⟩ :=
    s.createText_cases allowances.creation
  · let appended := created.heap.append allowances.append s.nextHandle text
    have hfind := Heap.phase_eq_live_iff.mp (Heap.phase_created hc hs)
    have happend : appended = _ := Heap.append_of_find? allowances.append text hfind
    have hstage : (Stage.ofOutcome created).result = .ok s.nextHandle := hcreated
    cases hnew : old.append? allowances.append.storage text with
    | none =>
      rw [hnew] at happend
      have hfault : (Stage.ofOutcome appended).result = .error (.allocation .moreText) :=
        congrArg Outcome.result happend
      have hresult : (textValue s allowances text).result = .error (.allocation .moreText) :=
        (Stage.andThen_of_ok hstage).1.trans (Stage.andThen_of_error hfault)
      exact .inr (.inl ⟨old, hempty, hnew, hresult⟩)
    | some new =>
      rw [hnew] at happend
      have hdone : (Stage.ofOutcome appended).result = .ok () := congrArg Outcome.result happend
      have hheap : (Stage.ofOutcome appended).heap =
          created.heap.put s.nextHandle ⟨1, .text new⟩ := congrArg Outcome.heap happend
      refine .inl ⟨old, new, hempty, hnew, ?_, ?_⟩
      · exact (Stage.andThen_of_ok hstage).1.trans (Stage.andThen_of_ok hdone).1
      · have hkept : (textValue s allowances text).heap = (Stage.ofOutcome appended).heap :=
          (Stage.andThen_of_ok hstage).2.trans (Stage.andThen_of_ok hdone).2
        rw [hkept, hheap]
        exact Heap.find?_put _ hfind
  · have hresult : created.result = .error (.allocation shortage) :=
      congrArg Outcome.result hrefused
    have hstage : (Stage.ofOutcome created).result = _ := hresult
    exact .inr (.inr ⟨shortage, hresult, Stage.andThen_of_error hstage⟩)

theorem made_text (allowances : Allowances) {s : Heap} (hs : s.Sound)
    (hlength : s.slots.length < Heap.maxSlots) (hbelow : s.atLiveLimit = false)
    (hlimit : settings.liveLimit ≠ some 0) {text : List Char} (hclean : terminator ∉ text)
    (hsubject : Subject options input text) :
    Made settings options input (textValue s allowances text) := by
  obtain ⟨old, new, hempty, hnew, hresult, hfind⟩ | ⟨_, -, -, hresult⟩ |
    ⟨shortage, hcreate, hresult⟩ := textValue_cases hs allowances text
  · refine .made hresult hfind ?_ hlimit
    change Subject options input new.content
    rw [content_append?_of_clean hclean hempty hnew]
    exact hsubject
  · exact .refused hresult rfl
  · exact .refused hresult (Heap.refused_of_createText hlength hbelow hcreate)

theorem made_line (hinteger : options.integer = none) :
    Made settings options input (lineValue (.ofSettings settings) allowances input) := by
  have hs := Heap.sound_ofSettings settings
  have hfails : ∀ {fault : Fault},
      ((Heap.ofSettings settings).readLine allowances.line input).result = .error fault →
        (lineValue (.ofSettings settings) allowances input).result = .error fault :=
    fun hfault => Stage.andThen_of_error hfault
  by_cases hlimit : settings.liveLimit = some 0
  · -- No value may be alive, so not even a temporary text can be made.
    cases hresult : ((Heap.ofSettings settings).readLine allowances.line input).result with
    | error fault => exact .forbidden (hfails hresult) hlimit
    | ok text =>
      obtain ⟨_, -, hc, -⟩ | ⟨shortage, hrefused⟩ :=
        (Heap.ofSettings settings).createText_cases allowances.line
      · exact absurd hlimit (Heap.atLiveLimit_ofSettings.mp hc.limit_create)
      · rw [Heap.readLine_of_refused hrefused] at hresult
        cases hresult
  · have hbelow := Heap.atLiveLimit_ofSettings.mpr hlimit
    by_cases hallocation : ∃ shortage,
        ((Heap.ofSettings settings).readLine allowances.line input).result =
          .error (.allocation shortage)
    · obtain ⟨shortage, hresult⟩ := hallocation
      exact .refused (hfails hresult)
        (Heap.refused_of_readLine hs hbelow (fun _ => length_ofSettings) hresult)
    · have hgranted := not_exists.mp hallocation
      have hdecodes := Heap.readLine_decodes hs hgranted
      by_cases hfirst : ∃ line, FirstLine input line
      · obtain ⟨line, hline⟩ := hfirst
        have hresult := hdecodes.of_firstLine hline
        obtain ⟨_, -, hc, hcreated⟩ | ⟨shortage, hrefused⟩ :=
          (Heap.ofSettings settings).createText_cases allowances.line
        · obtain ⟨ht, hsame, hlength⟩ := Heap.readLine_ofSettings hcreated input
          have hclean : terminator ∉ line.filter (· ≠ terminator) := by simp
          have hmade := made_text allowances ht (hlength ▸ by decide)
            (hsame.trans hbelow) hlimit hclean (.line hinteger hline)
          exact hmade.congr (Stage.andThen_of_ok hresult).1 (Stage.andThen_of_ok hresult).2
        · rw [Heap.readLine_of_refused hrefused] at hresult
          cases hresult
      · obtain ⟨fault, hresult⟩ := hdecodes.of_no_line (not_exists.mp hfirst)
        refine .noLine (hfails hresult) ?_
        rintro _ (⟨hsome, -⟩ | ⟨-, hline⟩)
        · cases hinteger.symm.trans hsome
        · exact hfirst ⟨_, hline⟩

theorem value_made (settings : Settings) (allowances : Allowances) (options : Options)
    (input : List Arrival) :
    Made settings options input (value (.ofSettings settings) allowances options input) := by
  unfold value
  cases hinteger : options.integer with
  | some n => exact made_integer hinteger
  | none => exact made_line hinteger

/-! Making the value without a refusal. -/

/-- Storage enough for a line of so many octets and for the text that holds it. -/
def storageNeeded (settings : Settings) (octets : Nat) : Nat :=
  max (max settings.initialCapacity 1) (max (2 * (octets + 1)) 8)

/-- With the table free to grow and its first storage granted, a text is not refused for memory. -/
theorem granted_createText {s : Heap} (hlength : s.slots.length < Heap.maxSlots)
    (htable : allowance.table = true)
    (hinitial : allowance.storage (max s.settings.initialCapacity 1) = true) :
    Granted (s.createText allowance).result := by
  intro fault hresult
  rw [Heap.createText_error_iff hlength, hinitial, htable] at hresult
  obtain ⟨hfalse, -⟩ | ⟨-, ⟨-, rfl⟩ | ⟨-, -, hfalse, -⟩⟩ := hresult
  · cases hfalse
  · rfl
  · cases hfalse

theorem granted_text {s : Heap} (hs : s.Sound) (hlength : s.slots.length < Heap.maxSlots)
    (hsettings : s.settings = settings) {text : List Char} {octets : Nat}
    (hsize : Text.size text ≤ octets)
    (hcovers : allowances.Covers (storageNeeded settings octets)) :
    Granted (textValue s allowances text).result := by
  intro fault hfault
  obtain ⟨_, _, -, -, hresult, -⟩ | ⟨old, hempty, hrefused, -⟩ | ⟨shortage, hcreate, hresult⟩ :=
    textValue_cases hs allowances text
  · cases hresult.symm.trans hfault
  · have hnone : old.size = 0 := by rw [← old.size_content, hempty, size_nil]
    have hfits : old.size + Text.size text ≤ octets := by omega
    have hgrant : ∀ n ≤ max (2 * (octets + 1)) 8, allowances.append.storage n = true :=
      fun n hn => hcovers.append.storage n (hn.trans (Nat.le_max_right _ _))
    obtain ⟨new, hnew, -⟩ := Heap.append?_granted hfits hgrant
    cases hrefused.symm.trans hnew
  · cases hresult.symm.trans hfault
    have hinitial : allowances.creation.storage (max s.settings.initialCapacity 1) = true :=
      hcovers.creation.storage _ (hsettings ▸ Nat.le_max_left _ _)
    exact granted_createText hlength hcovers.creation.table hinitial _ hcreate

theorem granted_line
    (hcovers : allowances.Covers (storageNeeded settings (lead input).length)) :
    Granted (lineValue (.ofSettings settings) allowances input).result := by
  have hs := Heap.sound_ofSettings settings
  have hfails : ∀ {fault : Fault},
      ((Heap.ofSettings settings).readLine allowances.line input).result = .error fault →
        (lineValue (.ofSettings settings) allowances input).result = .error fault :=
    fun hfault => Stage.andThen_of_error hfault
  obtain ⟨_, -, hc, hcreated⟩ | ⟨shortage, hrefused⟩ :=
    (Heap.ofSettings settings).createText_cases allowances.line
  · have hbelow := hc.limit_create
    have hgrants : (Heap.ofSettings settings).Grants allowances.line (lead input).length :=
      ⟨hbelow, fun _ => ⟨length_ofSettings, .inr hcovers.line.table⟩,
        hcovers.line.storage _ (Nat.le_max_left _ _),
        fun n hn => hcovers.line.storage n (hn.trans (Nat.le_max_right _ _))⟩
    have hgranted := Heap.readLine_granted hs hgrants
    have hdecodes := Heap.readLine_decodes hs hgranted
    cases hresult : ((Heap.ofSettings settings).readLine allowances.line input).result with
    | error fault =>
      rw [hfails hresult]
      rintro _ ⟨⟩
      cases fault with
      | allocation shortage => exact absurd hresult (hgranted shortage)
      | _ => rfl
    | ok text =>
      obtain ⟨ht, -, hlength⟩ := Heap.readLine_ofSettings hcreated input
      obtain ⟨-, hsettings, -, -⟩ := Heap.readLine_reserve hs hcreated input
      have htext : Text.size text ≤ (lead input).length := by
        by_cases hfirst : ∃ line, FirstLine input line
        · obtain ⟨line, hline⟩ := hfirst
          cases hresult.symm.trans (hdecodes.of_firstLine hline)
          exact (size_filter_le _ line).trans hline.size_le
        · obtain ⟨fault, hfault⟩ := hdecodes.of_no_line (not_exists.mp hfirst)
          cases hresult.symm.trans hfault
      have hrest := granted_text ht (hlength ▸ by decide) hsettings htext hcovers
      intro fault hfault
      exact hrest fault ((Stage.andThen_of_ok hresult).1.symm.trans hfault)
  · have hresult : ((Heap.ofSettings settings).createText allowances.line).result =
      .error (.allocation shortage) := congrArg Outcome.result hrefused
    have hline := congrArg LineOutcome.result (Heap.readLine_of_refused hrefused input)
    rw [hfails hline]
    rintro fault ⟨⟩
    have hinitial : allowances.line.storage (max settings.initialCapacity 1) = true :=
      hcovers.line.storage _ (Nat.le_max_left _ _)
    exact granted_createText length_ofSettings hcovers.line.table hinitial _ hresult

theorem value_granted
    (hcovers : allowances.Covers (storageNeeded settings (lead input).length)) :
    Granted (value (.ofSettings settings) allowances options input).result := by
  unfold value
  cases options.integer with
  | none => exact granted_line hcovers
  | some n =>
    intro fault hresult
    have hinsert : ((Heap.ofSettings settings).insert allowances.creation (.integer n)).result =
      .error fault := hresult
    rw [Heap.insert_error_iff length_ofSettings, hcovers.creation.table] at hinsert
    obtain ⟨-, rfl⟩ | ⟨-, -, hfalse, -⟩ := hinsert
    · rfl
    · cases hfalse

end Program

end Command

end CountedHeap
