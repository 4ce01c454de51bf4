import CountedHeap.Command.Options
import CountedHeap.Proofs.Reserve
import CountedHeap.Template.Emit

/-! Lines that are written, each behind the other, and read back. Every call takes one line off the
input, its newline included, and nothing of the next. Past the last line there are empty ones. -/
namespace CountedHeap

open Source Text Command.Options

/-! Writing lines. -/

namespace Sink

/-- The sink never fails: every write takes something or is interrupted. -/
structure Willing (sink : Sink) : Prop where
  closed : sink.closed = none
  script : ∀ reply ∈ sink.script, reply = .interrupt ∨ ∃ n, reply = .accept (n + 1)

theorem deliver_of_willing {script : List Reply}
    (hscript : ∀ reply ∈ script, reply = .interrupt ∨ ∃ n, reply = .accept (n + 1))
    (octets : List UInt8) :
    ∃ later, later <:+ script ∧ deliver none script octets = ⟨octets, none, ⟨later, none⟩⟩ := by
  induction script generalizing octets with
  | nil => cases octets <;> exact ⟨[], List.suffix_refl _, rfl⟩
  | cons reply script ih =>
    have hrest := ih fun other hother => hscript other (List.mem_cons_of_mem _ hother)
    cases octets with
    | nil => exact ⟨reply :: script, List.suffix_refl _, rfl⟩
    | cons b octets =>
      obtain rfl | ⟨n, rfl⟩ := hscript reply List.mem_cons_self
      · obtain ⟨later, hlater, hdeliver⟩ := hrest (b :: octets)
        exact ⟨later, hlater.trans (List.suffix_cons _ _), hdeliver⟩
      · obtain ⟨later, hlater, hdeliver⟩ := hrest ((b :: octets).drop (n + 1))
        refine ⟨later, hlater.trans (List.suffix_cons _ _), ?_⟩
        rw [deliver, if_neg (Nat.succ_ne_zero n)]
        · simp only [hdeliver, List.take_append_drop]
        · exact List.cons_ne_nil _ _

/-- What is written to a sink that never fails arrives as a whole. -/
theorem Willing.writeAll {sink : Sink} (hsink : sink.Willing) (octets : List UInt8) :
    ∃ after : Sink, after.Willing ∧ sink.writeAll octets = ⟨octets, none, after⟩ := by
  obtain ⟨later, hlater, hdeliver⟩ := deliver_of_willing hsink.script octets
  refine ⟨⟨later, none⟩, ⟨rfl, ?_⟩, ?_⟩
  · intro reply hreply
    exact hsink.script reply (hlater.subset hreply)
  · rw [Sink.writeAll, hsink.closed, hdeliver]

end Sink

/-- Lines as they stand one behind the other. -/
def inLines (lines : List (List Char)) : List UInt8 :=
  lines.flatMap fun line => octets line ++ [newline]

theorem inLines_append (first second : List (List Char)) :
    inLines (first ++ second) = inLines first ++ inLines second := List.flatMap_append

/-- Lines that are written one after another to a sink, each given as it is or shown out of some
heap, and the octets that the sink takes. -/
inductive Written : Sink → List (List Char) → List UInt8 → Prop
  | nil (sink : Sink) : Written sink [] []
  | emitted {sink : Sink} {line : List Char} {lines : List (List Char)} {bytes : List UInt8}
      (hrest : Written (Template.emit defaultTemplate [line] sink).sink lines bytes) :
      Written sink (line :: lines) ((Template.emit defaultTemplate [line] sink).written ++ bytes)
  | shown {sink : Sink} {s : Heap} {h : Handle} {view : View} {lines : List (List Char)}
      {bytes : List UInt8} (hread : s.read h = .ok view)
      (hrest : Written (Template.emit defaultTemplate [view.display] sink).sink lines bytes) :
      Written sink (view.display :: lines) ((s.showTo h defaultTemplate sink).written ++ bytes)

/-- Whatever braces there are in a line, it is followed by a newline and nothing else. -/
theorem render_defaultTemplate (line : List Char) :
    Template.render defaultTemplate [line] = line ++ ['\n'] := rfl

theorem octets_line (line : List Char) :
    octets (Template.render defaultTemplate [line]) = octets line ++ [newline] := by
  rw [render_defaultTemplate, octets_append]
  rfl

theorem Written.bytes_eq {sink : Sink} {lines : List (List Char)} {bytes : List UInt8}
    (hwritten : Written sink lines bytes) (hsink : sink.Willing) : bytes = inLines lines := by
  induction hwritten with
  | nil => rfl
  | @emitted sink line lines bytes hrest ih =>
    obtain ⟨after, hafter, hwrite⟩ := hsink.writeAll (octets line ++ [newline])
    rw [← octets_line] at hwrite
    change Template.emit defaultTemplate [line] sink = _ at hwrite
    rw [hwrite] at ih ⊢
    rw [ih hafter, octets_line]
    rfl
  | @shown sink s h view lines bytes hread hrest ih =>
    obtain ⟨after, hafter, hwrite⟩ := hsink.writeAll (octets view.display ++ [newline])
    rw [← octets_line] at hwrite
    have hshown : (s.showTo h defaultTemplate sink).written =
        octets (Template.render defaultTemplate [view.display]) := by
      simp [Heap.showTo, Heap.showBy, Heap.display, hread, Except.map, hwrite]
    change Template.emit defaultTemplate [view.display] sink = _ at hwrite
    rw [hwrite] at ih
    rw [ih hafter, hshown, octets_line]
    rfl

/-! Reading them back. -/

/-- What comes are these lines and nothing else, with or without interruptions. -/
structure Carries (input : List Arrival) (lines : List (List Char)) : Prop where
  lead : lead input = inLines lines
  stop : stop input = none

/-- A line can be told from the next one, and no character of it is left out. -/
structure IsLine (line : List Char) : Prop where
  newline_not_mem : '\n' ∉ line
  terminator_not_mem : terminator ∉ line

theorem Source.Yields.lead {input rest : List Arrival} {bytes : List UInt8}
    (hyields : Yields input bytes rest) :
    lead input = bytes ++ lead rest ∧ stop rest = stop input := by
  induction hyields with
  | done => exact ⟨rfl, rfl⟩
  | octet _ ih => exact ⟨congrArg (_ :: ·) ih.1, ih.2⟩
  | interruption _ ih => exact ih

theorem IsLine.newline_not_mem_octets {line : List Char} (hline : IsLine line) :
    newline ∉ octets line := by
  rw [mem_octets_iff (by decide)]
  exact hline.newline_not_mem

theorem IsLine.filter_eq {line : List Char} (hline : IsLine line) :
    line.filter (· ≠ terminator) = line := by
  rw [List.filter_eq_self]
  intro c hc
  rw [decide_eq_true_eq]
  rintro rfl
  exact hline.terminator_not_mem hc

namespace Heap

variable {s : Heap} {allowance : Allowance} {input : List Arrival}

/-- A call takes the first line off the input, and its newline. -/
theorem readLine_first (hs : s.Sound) {line : List Char} {lines : List (List Char)}
    (hcarries : Carries input (line :: lines)) (hline : IsLine line)
    (hgranted : ∀ shortage, (s.readLine allowance input).result ≠ .error (.allocation shortage)) :
    (s.readLine allowance input).result = .ok line ∧
      Yields input (octets line ++ [newline]) (s.readLine allowance input).rest ∧
      Carries (s.readLine allowance input).rest lines := by
  have hlead : lead input = octets line ++ newline :: inLines lines := by
    rw [hcarries.lead]
    simp [inLines]
  obtain ⟨hresult, hyields⟩ :=
    (readLine_decodes hs hgranted).ended line _ hlead hline.newline_not_mem_octets
  obtain ⟨hrest, hstop⟩ := hyields.lead
  rw [hlead, List.append_assoc, List.append_cancel_left_eq] at hrest
  rw [hline.filter_eq] at hresult
  exact ⟨hresult, hyields, (List.cons.inj hrest).2.symm, hstop.trans hcarries.stop⟩

/-- Past the last line there is an empty one. -/
theorem readLine_past (hs : s.Sound) (hcarries : Carries input [])
    (hgranted : ∀ shortage, (s.readLine allowance input).result ≠ .error (.allocation shortage)) :
    (s.readLine allowance input).result = .ok [] ∧ (s.readLine allowance input).rest = [] :=
  (readLine_decodes hs hgranted).last [] hcarries.lead List.not_mem_nil hcarries.stop

end Heap

/-- Calls that read a line each. -/
def calls (allowances : List Allowance) : List (Allowance × Operation) :=
  allowances.map (·, .readLine)

/-- What a call reports that reads the line of this number, and what it leaves. -/
structure Reads (input : List Arrival) (lines : List (List Char)) (k : Nat) (r : Report) :
    Prop where
  result : r.result = .ok (.text (lines.getD k []))
  carries : Carries r.session.input (lines.drop (k + 1))
  yields : k < lines.length → Yields input (inLines (lines.take (k + 1))) r.session.input
  past : lines.length ≤ k → r.session.input = []

/-- The report of one call. -/
theorem reads_first {s : Session} (hs : s.heap.Sound) {lines : List (List Char)}
    (hcarries : Carries s.input lines) (hlines : ∀ line ∈ lines, IsLine line)
    {allowance : Allowance}
    (hgranted : ∀ shortage,
      (s.step allowance .readLine).result ≠ .error (.allocation shortage)) :
    Reads s.input lines 0 (s.step allowance .readLine) := by
  have hplain : ∀ shortage,
      (s.heap.readLine allowance s.input).result ≠ .error (.allocation shortage) := by
    intro shortage hresult
    apply hgranted shortage
    change (s.heap.readLine allowance s.input).result.map Answer.text = _
    rw [hresult]
    rfl
  have hreport : (s.step allowance .readLine).result =
    (s.heap.readLine allowance s.input).result.map Answer.text := rfl
  cases lines with
  | nil =>
    obtain ⟨hresult, hrest⟩ := Heap.readLine_past hs hcarries hplain
    have hinput : (s.step allowance .readLine).session.input = [] := hrest
    refine ⟨?_, ?_, nofun, fun _ => hinput⟩
    · rw [hreport, hresult]
      rfl
    · rw [hinput]
      exact ⟨rfl, rfl⟩
  | cons line lines =>
    obtain ⟨hresult, hyields, hrest⟩ :=
      Heap.readLine_first hs hcarries (hlines line List.mem_cons_self) hplain
    have hone : inLines ((line :: lines).take 1) = octets line ++ [newline] := by simp [inLines]
    rw [← hone] at hyields
    refine ⟨?_, hrest, fun _ => hyields, nofun⟩
    rw [hreport, hresult]
    rfl

/-- The reports of all calls, one line after another. -/
theorem reads_run {allowances : List Allowance} {s : Session} (hs : s.heap.Sound)
    {lines : List (List Char)} (hcarries : Carries s.input lines)
    (hlines : ∀ line ∈ lines, IsLine line)
    (hgranted : ∀ r ∈ s.run (calls allowances), ∀ shortage,
      r.result ≠ .error (.allocation shortage))
    {k : Nat} {r : Report} (hr : (s.run (calls allowances))[k]? = some r) :
    Reads s.input lines k r := by
  induction allowances generalizing s lines k with
  | nil => simp [calls, Session.run] at hr
  | cons allowance allowances ih =>
    change ∀ r ∈ s.step allowance .readLine ::
      (s.step allowance .readLine).session.run (calls allowances), _ at hgranted
    rw [List.forall_mem_cons] at hgranted
    obtain ⟨hfirst, hlater⟩ := hgranted
    have hreads := reads_first hs hcarries hlines hfirst
    cases k with
    | zero =>
      obtain rfl := Option.some.inj hr
      exact hreads
    | succ k =>
      have hsound := Session.sound_step hs allowance .readLine
      have hnext := ih hsound hreads.carries
        (fun line hline => hlines line (List.mem_of_mem_drop hline)) hlater hr
      refine ⟨?_, ?_, ?_, ?_⟩
      · rw [hnext.result]
        simp
      · have hcarried := hnext.carries
        rw [List.drop_drop] at hcarried
        rwa [show k + 1 + 1 = 0 + 1 + (k + 1) by omega]
      · intro hk
        have hlate := hnext.yields (by rw [List.length_drop]; omega)
        have hboth := (hreads.yields (by omega)).append hlate
        rw [← inLines_append, ← List.take_add] at hboth
        rwa [show k + 1 + 1 = 0 + 1 + (k + 1) by omega]
      · intro hk
        exact hnext.past (by rw [List.length_drop]; omega)

/-- The heap has room for one value more, as many times as there are calls, and memory is granted
for lines of so many octets. -/
structure Heap.Affords (s : Heap) (octets : Nat) (allowances : List Allowance) : Prop where
  limit : s.atLiveLimit = false
  reserve : allowances.length ≤ s.reserve
  covers : ∀ a ∈ allowances,
    a.Covers (max (max s.settings.initialCapacity 1) (max (2 * (octets + 1)) 8))

/-- Where memory is granted and the reserve lasts, no call is refused anything. -/
theorem run_granted {allowances : List Allowance} {s : Session} (hs : s.heap.Sound)
    {lines : List (List Char)} (hcarries : Carries s.input lines)
    (hlines : ∀ line ∈ lines, IsLine line)
    (haffords : s.heap.Affords (lead s.input).length allowances) :
    ∀ r ∈ s.run (calls allowances), ∀ shortage, r.result ≠ .error (.allocation shortage) := by
  induction allowances generalizing s lines with
  | nil => nofun
  | cons allowance allowances ih =>
    obtain ⟨hlimit, hreserve, hcovers⟩ := haffords
    rw [List.length_cons] at hreserve
    have hgrants : s.heap.Grants allowance (lead s.input).length :=
      hs.grants hlimit (by omega) (hcovers _ List.mem_cons_self) (by omega) (by omega)
    have hplain := Heap.readLine_granted hs hgrants
    have hfirst : ∀ shortage,
        (s.step allowance .readLine).result ≠ .error (.allocation shortage) := by
      intro shortage hresult
      change (s.heap.readLine allowance s.input).result.map Answer.text = _ at hresult
      cases hline : (s.heap.readLine allowance s.input).result with
      | error fault =>
        rw [hline] at hresult
        cases hresult
        exact hplain shortage hline
      | ok line =>
        rw [hline] at hresult
        cases hresult
    have hreads := reads_first hs hcarries hlines hfirst
    obtain ⟨line, hcreated⟩ := hgrants.createText
    obtain ⟨hsound, hsettings, hsame, hless⟩ := Heap.readLine_reserve hs hcreated s.input
    have hshort : (lead (s.step allowance .readLine).session.input).length ≤
        (lead s.input).length := by
      rw [hreads.carries.lead, hcarries.lead, ← lines.take_append_drop (0 + 1), inLines_append,
        List.take_append_drop, List.length_append]
      omega
    change ∀ r ∈ s.step allowance .readLine ::
      (s.step allowance .readLine).session.run (calls allowances), _
    rw [List.forall_mem_cons]
    refine ⟨hfirst, ih hsound hreads.carries
      (fun line hline => hlines line (List.mem_of_mem_drop hline)) ?_⟩
    refine ⟨hsame.trans hlimit, ?_, ?_⟩
    · change _ ≤ Heap.reserve (s.heap.readLine allowance s.input).heap
      omega
    · intro a ha
      have hbound := hcovers a (List.mem_cons_of_mem _ ha)
      refine ⟨hbound.table, ?_⟩
      intro n hn
      have hkept : (s.step allowance .readLine).session.heap.settings = s.heap.settings :=
        hsettings
      rw [hkept] at hn
      exact hbound.storage n (hn.trans (by omega))

/-! Octets that are made of lines. -/

/-- A text that ends with a newline is made of lines. -/
theorem exists_lines {text : List Char} (hlast : ∀ c ∈ text.getLast?, c = '\n')
    (hterminator : terminator ∉ text) :
    ∃ lines : List (List Char), (∀ line ∈ lines, IsLine line) ∧ octets text = inLines lines := by
  induction text with
  | nil => exact ⟨[], nofun, rfl⟩
  | cons c text ih =>
    rw [List.mem_cons, not_or] at hterminator
    have hrest : ∀ d ∈ text.getLast?, d = '\n' := by
      intro d hd
      apply hlast
      rw [List.getLast?_cons, Option.mem_def.mp hd]
      rfl
    obtain ⟨lines, hlines, htext⟩ := ih hrest hterminator.2
    by_cases hc : c = '\n'
    · refine ⟨[] :: lines, ?_, ?_⟩
      · rw [List.forall_mem_cons]
        exact ⟨⟨List.not_mem_nil, List.not_mem_nil⟩, hlines⟩
      · rw [octets_cons, htext, hc]
        rfl
    · cases lines with
      | nil =>
        -- Nothing follows, so the character would be the newline at the end.
        cases text with
        | nil => exact absurd (hlast c rfl) hc
        | cons d text => simp [inLines] at htext
      | cons line lines =>
        rw [List.forall_mem_cons] at hlines
        refine ⟨(c :: line) :: lines, ?_, ?_⟩
        · rw [List.forall_mem_cons]
          refine ⟨⟨?_, ?_⟩, hlines.2⟩
          · rw [List.mem_cons, not_or]
            exact ⟨Ne.symm hc, hlines.1.newline_not_mem⟩
          · rw [List.mem_cons, not_or]
            exact ⟨hterminator.1, hlines.1.terminator_not_mem⟩
        · rw [octets_cons, htext]
          simp [inLines]

/-- Octets that end with a newline and encode a text without terminators are made of lines. -/
theorem exists_inLines {bytes : List UInt8} (hutf8 : IsUtf8 bytes) (hzero : 0 ∉ bytes)
    (hlast : bytes.getLast? = some newline) :
    ∃ lines : List (List Char), (∀ line ∈ lines, IsLine line) ∧ bytes = inLines lines := by
  obtain ⟨text, rfl⟩ := hutf8
  rw [mem_octets_iff (by decide)] at hzero
  apply exists_lines _ hzero
  intro c hc
  obtain ⟨start, rfl⟩ := List.getLast?_eq_some_iff.mp hc
  have hmem : newline ∈ String.utf8EncodeChar c := by
    rw [octets_append, octets_cons, octets_nil, List.append_nil,
      List.getLast?_append_of_ne_nil _ String.utf8EncodeChar_ne_nil] at hlast
    exact List.mem_of_getLast? hlast
  exact (Decoder.mem_encode_iff (by decide)).mp hmem

theorem count_inLines {lines : List (List Char)} (hlines : ∀ line ∈ lines, IsLine line) :
    (inLines lines).count newline = lines.length := by
  induction lines with
  | nil => rfl
  | cons line lines ih =>
    rw [List.forall_mem_cons] at hlines
    have hnone : (octets line).count newline = 0 :=
      List.count_eq_zero.mpr hlines.1.newline_not_mem_octets
    have hcons : inLines (line :: lines) = octets line ++ [newline] ++ inLines lines := rfl
    rw [hcons, List.count_append, List.count_append, hnone, ih hlines.2, List.length_cons]
    simp [Nat.add_comm]

/-- The calls go on until the input is used up, and no further. -/
def UsesUp (s : Session) (script : List (Allowance × Operation)) : Prop :=
  (∀ m ∈ s.history script, lead m.before.input ≠ []) ∧ lead (s.leave script).input = []

theorem usesUp_iff {allowances : List Allowance} {s : Session} (hs : s.heap.Sound)
    {lines : List (List Char)} (hcarries : Carries s.input lines)
    (hlines : ∀ line ∈ lines, IsLine line)
    (hgranted : ∀ r ∈ s.run (calls allowances), ∀ shortage,
      r.result ≠ .error (.allocation shortage)) :
    UsesUp s (calls allowances) ↔ allowances.length = lines.length := by
  induction allowances generalizing s lines with
  | nil =>
    change (_ ∧ lead s.input = []) ↔ _
    rw [hcarries.lead]
    cases lines <;> simp [inLines, calls, Session.history]
  | cons allowance allowances ih =>
    change ∀ r ∈ s.step allowance .readLine ::
      (s.step allowance .readLine).session.run (calls allowances), _ at hgranted
    rw [List.forall_mem_cons] at hgranted
    have hreads := reads_first hs hcarries hlines hgranted.1
    have hrest := ih (Session.sound_step hs allowance .readLine) hreads.carries
      (fun line hline => hlines line (List.mem_of_mem_drop hline)) hgranted.2
    have hsplit : UsesUp s (calls (allowance :: allowances)) ↔
        lead s.input ≠ [] ∧ UsesUp (s.step allowance .readLine).session (calls allowances) := by
      simp [UsesUp, calls, Session.history, Session.leave, and_assoc]
    rw [hsplit, hrest, hcarries.lead]
    cases lines <;> simp [inLines]

theorem length_run (s : Session) (script : List (Allowance × Operation)) :
    (s.run script).length = script.length := by
  induction script generalizing s with
  | nil => rfl
  | cons step script ih => exact congrArg (· + 1) (ih _)

/-- As many calls as there are lines return them all. -/
theorem map_result_run {allowances : List Allowance} {s : Session} (hs : s.heap.Sound)
    {lines : List (List Char)} (hcarries : Carries s.input lines)
    (hlines : ∀ line ∈ lines, IsLine line)
    (hgranted : ∀ r ∈ s.run (calls allowances), ∀ shortage,
      r.result ≠ .error (.allocation shortage))
    (hlength : allowances.length = lines.length) :
    (s.run (calls allowances)).map Report.result = lines.map fun line => .ok (.text line) := by
  apply List.ext_getElem
  · simp [length_run, calls, hlength]
  · intro k hrun hline
    rw [List.length_map] at hrun hline
    have hreads := reads_run hs hcarries hlines hgranted (List.getElem?_eq_getElem hrun)
    rw [List.getElem_map, List.getElem_map, hreads.result]
    simp [List.getD_eq_getElem?_getD, hline]

/-- Lines that are written are read back one by one, by as many calls as the reserve of the heap has
room for. Octets that end with a newline and encode a text are made of the lines that are read until
they are used up. -/
theorem line_round_trip_law {s : Heap} (hs : s.Reachable) {input : List Arrival}
    (hstop : stop input = none) {allowances : List Allowance}
    (hgranted : s.Affords (lead input).length allowances ∨
      ∀ r ∈ (Session.mk s input).run (calls allowances), ∀ shortage,
        r.result ≠ .error (.allocation shortage)) :
    let reports := (Session.mk s input).run (calls allowances)
    (∀ sink lines, Sink.Willing sink → Written sink lines (lead input) →
      (∀ line ∈ lines, IsLine line) →
        ∀ k r, reports[k]? = some r → Reads input lines k r) ∧
    (IsUtf8 (lead input) → 0 ∉ lead input → (lead input).getLast? = some newline →
      (UsesUp ⟨s, input⟩ (calls allowances) ↔
        allowances.length = (lead input).count newline) ∧
      (UsesUp ⟨s, input⟩ (calls allowances) →
        ∃ lines : List (List Char),
          reports.map Report.result = lines.map (fun line => .ok (.text line)) ∧
            inLines lines = lead input)) := by
  intro reports
  have unrefused : ∀ lines, Carries input lines → (∀ line ∈ lines, IsLine line) →
      ∀ r ∈ reports, ∀ shortage, r.result ≠ .error (.allocation shortage) := by
    intro lines hcarries hlines
    obtain haffords | hplain := hgranted
    · exact run_granted hs.sound hcarries hlines haffords
    · exact hplain
  constructor
  · intro sink lines hsink hwritten hlines k r hr
    have hcarries : Carries input lines := ⟨hwritten.bytes_eq hsink, hstop⟩
    exact reads_run hs.sound hcarries hlines (unrefused lines hcarries hlines) hr
  · intro hutf8 hzero hlast
    obtain ⟨lines, hlines, hlead⟩ := exists_inLines hutf8 hzero hlast
    have hcarries : Carries input lines := ⟨hlead, hstop⟩
    have hplain := unrefused lines hcarries hlines
    have hused := usesUp_iff (s := ⟨s, input⟩) hs.sound hcarries hlines hplain
    constructor
    · rw [hused, hlead, count_inLines hlines]
    · intro husesUp
      exact ⟨lines, map_result_run hs.sound hcarries hlines hplain (hused.mp husesUp), hlead.symm⟩

/-- A line that looks like a placeholder, an integer out of a heap and an empty line, through a sink
that takes little at a time; and a call more than there are lines. -/
theorem line_round_trip_of_placeholder :
    let s := ((Session.ofSettings .standard).leave [(.ample, .createInteger (-7))]).heap
    let sink : Sink := ⟨[.interrupt, .accept 2, .accept 1, .interrupt], none⟩
    let lines := [['\x7b', '\x7d', 'é'], ['-', '7'], []]
    let input := .interruption :: (inLines lines).map .octet
    let reports := (Session.mk s input).run (calls (List.replicate 4 .ample))
    s.Reachable ∧ sink.Willing ∧ Written sink lines (lead input) ∧
      (∀ k r, reports[k]? = some r → Reads input lines k r) ∧
      reports.map Report.result =
        (lines ++ [[]]).map (fun line => .ok (.text line)) ∧
      UsesUp ⟨s, input⟩ (calls (List.replicate 3 .ample)) := by
  intro s sink lines input reports
  have hs : s.Reachable := ⟨_, _, rfl⟩
  have hsink : sink.Willing := ⟨rfl, by simp [sink]⟩
  have hread : s.read ⟨0, 0⟩ = .ok (.integer (-7)) := by decide
  have hwritten : Written sink lines _ := .emitted (.shown hread (.emitted (.nil _)))
  have hlead : lead input = inLines lines := by decide
  rw [hwritten.bytes_eq hsink, ← hlead] at hwritten
  have hlines : ∀ line ∈ lines, IsLine line := by
    simp only [lines, List.forall_mem_cons]
    exact ⟨⟨by decide, by decide⟩, ⟨by decide, by decide⟩, ⟨by decide, by decide⟩, nofun⟩
  have haffords : ∀ n ≤ 4, s.Affords (lead input).length (List.replicate n .ample) := by
    intro n hn
    refine ⟨rfl, ?_, ?_⟩
    · have hreserve : 4 ≤ s.reserve := by decide
      rw [List.length_replicate]
      omega
    · intro a ha
      obtain rfl := List.eq_of_mem_replicate ha
      refine ⟨rfl, ?_⟩
      intro size hsize
      have hlength : (lead input).length = 9 := by decide
      have hinitial : s.settings.initialCapacity = 1 := rfl
      rw [hlength, hinitial] at hsize
      exact decide_eq_true (by unfold Allowance.ceiling; omega)
  have hstop : stop input = none := by decide
  have hutf8 : IsUtf8 (lead input) := ⟨lines.flatMap (· ++ ['\n']), by decide⟩
  obtain ⟨hreads, -⟩ := line_round_trip_law hs hstop (.inl (haffords 4 (by decide)))
  obtain ⟨-, hused⟩ := line_round_trip_law hs hstop (.inl (haffords 3 (by decide)))
  refine ⟨hs, hsink, hwritten, ?_, by decide, ?_⟩
  · exact hreads sink lines hsink hwritten hlines
  · exact (hused hutf8 (by decide) (by decide)).1.mpr (by decide)

end CountedHeap
