import CountedHeap.Proofs.LineAssembly
import CountedHeap.Proofs.Step

/-! What a line is read as. The characters that come one by one, octet after octet, are those of the
whole line; where the line is no text, the reading stops at the first octet that shows it. Neither
interruptions nor the way in which the octets are cut into pieces make a difference. -/
namespace CountedHeap

open Source Text

namespace Heap

variable {s : Heap} {allowance : Allowance} {line : Handle}

/-- A line is what its assembly leaves in the temporary text. -/
theorem readLine_of_assembly (hs : s.Sound) {input rest : List Arrival} {new : Buffer}
    {result : Except Fault Nat} (hcreated : (s.createText allowance).result = .ok line)
    (hassembly : s.assembleLine allowance line input =
      ⟨result, (s.createText allowance).heap.put line ⟨1, .text new⟩, rest⟩) :
    (s.readLine allowance input).result = result.map (fun _ => new.content) ∧
      (s.readLine allowance input).rest = rest := by
  obtain ⟨old, written, hrun⟩ := readLine_of_created hs hcreated input
  have hfind := phase_eq_live_iff.mp (phase_created hrun.created hs)
  have hput := find?_put ⟨1, .text new⟩ hfind
  have hheap := (congrArg Assembly.heap hassembly).symm.trans hrun.assembled
  dsimp only at hheap
  rw [hheap, find?_put _ hfind] at hput
  obtain rfl : written = new := by simpa using hput
  rw [hrun.result, hrun.rest, hassembly]
  exact ⟨rfl, rfl⟩

/-- When nothing is refused, a line is read on from behind any text that begins it, and from behind
a part of one more character. -/
theorem readLine_begun (hs : s.Sound) {input : List Arrival}
    (hgranted : ∀ shortage, (s.readLine allowance input).result ≠ .error (.allocation shortage))
    {text : List Char} {start more : List UInt8} (hlead : lead input = octets text ++ start ++ more)
    (hline : newline ∉ octets text) (hstart : Decoder.read start = .incomplete) :
    ∃ middle, Yields input (octets text ++ start) middle ∧ lead middle = more ∧
      stop middle = stop input ∧ ∃ (t : Heap) (line : Handle), ∀ result rest,
        t.assemble allowance line ⟨start, size text⟩ middle = ⟨result, t, rest⟩ →
          (s.readLine allowance input).result = result.map (fun _ => text.filter (· ≠ terminator)) ∧
            (s.readLine allowance input).rest = rest := by
  obtain ⟨middle, hyields, hmore, hstop⟩ := exists_yields hlead
  refine ⟨middle, hyields, hmore, hstop, ?_⟩
  obtain ⟨_, -, -, hcreated⟩ | ⟨shortage, hrefused⟩ := s.createText_cases allowance
  · obtain ⟨old, written, hrun⟩ := readLine_of_created hs hcreated input
    have hfind := phase_eq_live_iff.mp (phase_created hrun.created hs)
    obtain ⟨between, htext, hpart⟩ := hyields.split
    obtain hfault | ⟨new, hcontent, heq⟩ := assemble_text allowance htext hline 0 hfind
    · have hresult := hrun.result
      rw [assembleLine, hfault] at hresult
      exact absurd hresult (hgranted _)
    · refine ⟨(s.createText allowance).heap.put s.nextHandle ⟨1, .text new⟩, s.nextHandle, ?_⟩
      intro result rest hrest
      rw [Nat.zero_add, assemble_gather hpart ⟨[], size text⟩ hstart] at heq
      have hline := readLine_of_assembly hs hcreated (heq.trans hrest)
      rwa [hcontent, hrun.empty, List.nil_append] at hline
  · rw [readLine_of_refused hrefused] at hgranted
    exact absurd rfl (hgranted shortage)

end Heap

/-! The five ways in which a line ends, told from the octets alone. -/

/-- The octets up to the first newline, the newline included. -/
def lineOf : List UInt8 → List UInt8
  | [] => []
  | b :: rest => if b = newline then [b] else b :: lineOf rest

theorem lineOf_begins (bytes : List UInt8) : lineOf bytes <+: bytes := by
  induction bytes with
  | nil => exact List.prefix_refl _
  | cons b bytes ih =>
    unfold lineOf
    split
    · exact ⟨bytes, rfl⟩
    · exact (List.prefix_cons_inj b).mpr ih

/-- Only the last octet of a line can be a newline. -/
theorem newline_not_mem {bytes part : List UInt8} {b : UInt8} (h : part ++ [b] <+: lineOf bytes) :
    newline ∉ part := by
  induction bytes generalizing part with
  | nil => simp [lineOf] at h
  | cons c bytes ih =>
    cases part with
    | nil => exact List.not_mem_nil
    | cons a part =>
      rw [lineOf] at h
      split at h
      · have hlength := h.length_le
        simp at hlength
      · next hc =>
        rw [List.cons_append, List.cons_prefix_cons] at h
        obtain ⟨rfl, hrest⟩ := h
        rw [List.mem_cons, not_or]
        exact ⟨Ne.symm hc, ih hrest⟩

/-- What a line comes to, told from the octets before the first failure, or before the end. -/
structure Decodes (input : List Arrival) (outcome : LineOutcome) : Prop where
  ended : ∀ text rest, lead input = octets text ++ newline :: rest → newline ∉ octets text →
    outcome.result = .ok (text.filter (· ≠ terminator)) ∧
      Yields input (octets text ++ [newline]) outcome.rest
  last : ∀ text, lead input = octets text → newline ∉ octets text → stop input = none →
    outcome.result = .ok (text.filter (· ≠ terminator)) ∧ outcome.rest = []
  invalid : ∀ part, part <+: lineOf (lead input) → ¬BeginsUtf8 part →
    ∃ n shortest, IsValidUpTo (lineOf (lead input)) n ∧
      outcome.result = .error (.invalidInput n) ∧ Yields input shortest outcome.rest ∧
      shortest <+: lineOf (lead input) ∧ ¬BeginsUtf8 shortest ∧
      ∀ other, other <+: lineOf (lead input) → ¬BeginsUtf8 other → shortest <+: other
  truncated : newline ∉ lead input → BeginsUtf8 (lead input) → ¬IsUtf8 (lead input) →
    stop input = none → ∃ n, IsValidUpTo (lead input) n ∧
      outcome.result = .error (.invalidInput n) ∧ outcome.rest = []
  failed : ∀ cause, newline ∉ lead input → BeginsUtf8 (lead input) → stop input = some cause →
    outcome.result = .error (.transfer cause) ∧
      ∃ n, Yields input (lead input)
        (List.replicate n .interruption ++ .failure cause :: outcome.rest)

namespace Heap

variable {s : Heap} {allowance : Allowance}

theorem readLine_decodes (hs : s.Sound) {input : List Arrival}
    (hgranted : ∀ shortage, (s.readLine allowance input).result ≠ .error (.allocation shortage)) :
    Decodes input (s.readLine allowance input) := by
  constructor
  · intro text rest hlead hline
    have hstart : lead input = octets text ++ [] ++ newline :: rest := by simpa using hlead
    obtain ⟨middle, hyields, hmore, -, t, line, hrun⟩ := readLine_begun hs hgranted hstart hline rfl
    obtain ⟨after, hnewline, -⟩ := exists_yields (show lead middle = [newline] ++ rest from hmore)
    obtain ⟨hresult, hrest⟩ := hrun _ _ (assemble_newline hnewline _)
    rw [List.append_nil] at hyields
    rw [hrest]
    exact ⟨hresult, hyields.append hnewline⟩
  · intro text hlead hline hstop
    have hstart : lead input = octets text ++ [] ++ [] := by simpa using hlead
    obtain ⟨middle, -, hmore, hnone, t, line, hrun⟩ := readLine_begun hs hgranted hstart hline rfl
    exact hrun _ _ (assemble_end hmore (hnone.trans hstop) _)
  · intro part hpart hbad
    obtain ⟨good, b, hline, hgood, hshort, hshortest⟩ := exists_shortest hpart hbad
    -- Before its last octet the part is a text and a beginning of one more character.
    obtain ⟨text, start, rfl, hstart⟩ := hgood.cases
    have hnewline := newline_not_mem hline
    rw [List.mem_append, not_or] at hnewline
    obtain ⟨more, hmore⟩ := hline.trans (lineOf_begins _)
    obtain ⟨middle, hyields, hlead, -, t, line, hrun⟩ :=
      readLine_begun hs hgranted (hmore.symm.trans (List.append_assoc _ _ _)) hnewline.1 hstart
    obtain ⟨after, hlast, -⟩ := exists_yields hlead
    have hread := read_of_not_begins (List.append_assoc _ _ _ ▸ hshort)
    obtain ⟨hresult, hrest⟩ := hrun _ _ (assemble_invalid hlast _ hread)
    have hupTo := (isValidUpTo_append text hstart).of_bad hline hshort
    rw [hrest]
    exact ⟨_, _, hupTo, hresult, hyields.append hlast, hline, hshort, hshortest⟩
  · intro hline hbegins hnot hstop
    obtain ⟨text, start, hlead, hstart⟩ := hbegins.cases
    have hne : start ≠ [] := by
      rintro rfl
      exact hnot ⟨text, by simpa using hlead.symm⟩
    rw [hlead, List.mem_append, not_or] at hline
    obtain ⟨middle, -, hmore, hnone, t, line, hrun⟩ :=
      readLine_begun hs hgranted (hlead.trans (List.append_nil _).symm) hline.1 hstart
    have hassemble : t.assemble allowance line ⟨start, size text⟩ middle = _ :=
      assemble_end hmore (hnone.trans hstop) _
    rw [finishLine, List.isEmpty_eq_false_iff.mpr hne] at hassemble
    rw [hlead]
    exact ⟨_, isValidUpTo_append text hstart, hrun _ _ hassemble⟩
  · intro cause hline hbegins hstop
    obtain ⟨text, start, hlead, hstart⟩ := hbegins.cases
    rw [hlead, List.mem_append, not_or] at hline
    obtain ⟨middle, hyields, hmore, hsome, t, line, hrun⟩ :=
      readLine_begun hs hgranted (hlead.trans (List.append_nil _).symm) hline.1 hstart
    obtain ⟨n, rest, rfl, hassemble⟩ := assemble_failure hmore (hsome.trans hstop)
    obtain ⟨hresult, hrest⟩ := hrun _ _ (hassemble _)
    rw [hrest, hlead]
    exact ⟨hresult, n, hyields⟩

/-- But for the input that is left, a line hangs on the octets before the first failure alone, and
on what that failure is. -/
theorem readLine_congr (s : Heap) (allowance : Allowance) {input other : List Arrival}
    (hlead : lead other = lead input) (hstop : stop other = stop input) :
    (s.readLine allowance other).result = (s.readLine allowance input).result ∧
      (s.readLine allowance other).heap = (s.readLine allowance input).heap ∧
      (s.readLine allowance other).log = (s.readLine allowance input).log := by
  cases hcreated : (s.createText allowance).result with
  | error fault => simp only [readLine, hcreated, and_self]
  | ok line =>
    have hinput := assemble_plain (s.createText allowance).heap allowance line ⟨[], 0⟩ input
    have hother := assemble_plain (s.createText allowance).heap allowance line ⟨[], 0⟩ other
    rw [hlead, hstop, hinput.1, hinput.2] at hother
    simp only [readLine, hcreated, hother, and_self]

/-! Reading without a refusal. -/

/-- The heap has a slot to give away, and storage is granted for a line of so many octets. -/
structure Grants (s : Heap) (allowance : Allowance) (octets : Nat) : Prop where
  limit : s.atLiveLimit = false
  slot : s.free = [] →
    s.slots.length < maxSlots ∧ (s.slots.length < s.room ∨ allowance.table = true)
  buffer : allowance.storage (max s.settings.initialCapacity 1) = true
  text : ∀ n ≤ max (2 * (octets + 1)) 8, allowance.storage n = true

theorem Grants.createText {octets : Nat} (hgrants : s.Grants allowance octets) :
    ∃ line, (s.createText allowance).result = .ok line := by
  rw [Heap.createText, Buffer.ofCapacity?, if_pos hgrants.buffer]
  dsimp only
  rw [insert, if_neg (by rw [hgrants.limit]; nofun)]
  split
  · exact ⟨_, rfl⟩
  · next hfree =>
    obtain ⟨hlength, hroom⟩ := hgrants.slot hfree
    rw [if_neg (Nat.not_le_of_lt hlength), if_pos (by simpa using hroom)]
    exact ⟨_, rfl⟩

theorem readLine_granted (hs : s.Sound) {input : List Arrival}
    (hgrants : s.Grants allowance (lead input).length) (shortage : Shortage) :
    (s.readLine allowance input).result ≠ .error (.allocation shortage) := by
  obtain ⟨line, hcreated⟩ := hgrants.createText
  obtain ⟨old, new, hrun⟩ := readLine_of_created hs hcreated input
  have hfind := phase_eq_live_iff.mp (phase_created hrun.created hs)
  have hsize : old.size = 0 := by rw [← old.size_content, hrun.empty, size_nil]
  have hassembly := assemble_granted hgrants.text input ⟨[], 0⟩ hfind (by simp [hsize]) shortage
  rw [hrun.result]
  intro hresult
  apply hassembly
  change (s.assembleLine allowance line input).result = _
  cases hline : (s.assembleLine allowance line input).result with
  | error fault => simpa [hline, Except.map] using hresult
  | ok count =>
    rw [hline] at hresult
    cases hresult

end Heap

/-- The reading of lines. Unless something is refused, a line comes to what its octets encode, or
else fails where they stop encoding a text. How they are cut into pieces and where reading is
interrupted makes no difference. -/
theorem line_decoding_law {s : Heap} (hs : s.Reachable) (allowance : Allowance)
    (script : List Piece) :
    let input := arrivals script
    let outcome := s.readLine allowance input
    (s.Grants allowance (lead input).length →
      ∀ shortage, outcome.result ≠ .error (.allocation shortage)) ∧
    ((∀ shortage, outcome.result ≠ .error (.allocation shortage)) → Decodes input outcome) ∧
    ∀ other, lead (arrivals other) = lead input → stop (arrivals other) = stop input →
      (s.readLine allowance (arrivals other)).result = outcome.result ∧
        (s.readLine allowance (arrivals other)).heap = outcome.heap ∧
        (s.readLine allowance (arrivals other)).log = outcome.log := by
  refine ⟨?_, ?_, ?_⟩
  · intro hgrants shortage
    exact Heap.readLine_granted hs.sound hgrants shortage
  · intro hgranted
    exact Heap.readLine_decodes hs.sound hgranted
  · intro other hlead hstop
    exact s.readLine_congr allowance hlead hstop

/-- A character that is cut in two, with an interruption between. -/
theorem line_of_cut_character :
    let s := Heap.ofSettings .standard
    let input := arrivals [.data [0x68, 0xC3], .interrupt, .data [0xA9, 0x0A, 0x78]]
    s.Reachable ∧ s.Grants .ample (lead input).length ∧ Decodes input (s.readLine .ample input) ∧
      (s.readLine .ample input).result = .ok ['h', 'é'] ∧
      (s.readLine .ample input).rest = [.octet 0x78] := by
  intro s input
  have hs : s.Reachable := ⟨.standard, [], rfl⟩
  have hgrants : s.Grants .ample (lead input).length := by
    refine ⟨rfl, fun _ => ⟨by decide, .inr rfl⟩, by decide, ?_⟩
    intro n hn
    have hlength : (lead input).length = 5 := rfl
    rw [hlength] at hn
    exact decide_eq_true (by unfold Allowance.ceiling; omega)
  obtain ⟨hgranted, hdecodes, -⟩ := line_decoding_law hs .ample
    [.data [0x68, 0xC3], .interrupt, .data [0xA9, 0x0A, 0x78]]
  obtain ⟨hresult, -⟩ := (hdecodes (hgranted hgrants)).ended ['h', 'é'] [0x78] rfl (by decide)
  exact ⟨hs, hgrants, hdecodes (hgranted hgrants), hresult, by decide⟩

end CountedHeap
