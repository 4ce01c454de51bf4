import CountedHeap.Proofs.LineDecoding
import Mathlib.Data.List.TakeWhile

/-! The first line of an input, and when reading it succeeds. A line is read as soon as it is there
and encodes a text; whatever comes behind its newline does not count. -/
namespace CountedHeap

open Source Text

/-- What stands before a mark holds no mark. -/
theorem not_mem_takeWhile_ne {α : Type} [DecidableEq α] (mark : α) (l : List α) :
    mark ∉ l.takeWhile (· ≠ mark) := by
  intro hmem
  simpa using List.mem_takeWhile_imp hmem

/-- Without a mark, all stands before it. -/
theorem takeWhile_ne_of_not_mem {α : Type} [DecidableEq α] {mark : α} {l : List α}
    (hnone : mark ∉ l) : l.takeWhile (· ≠ mark) = l := by
  rw [List.takeWhile_eq_self_iff]
  intro a ha
  rw [decide_eq_true_eq]
  rintro rfl
  exact hnone ha

/-- The octets before the first newline, or all of them if there is none. -/
def beforeNewline (bytes : List UInt8) : List UInt8 := bytes.takeWhile (· ≠ newline)

/-- The text that stands before the first newline or, if there is none, before the end. -/
structure FirstLine (input : List Arrival) (line : List Char) : Prop where
  octets : octets line = beforeNewline (lead input)
  ended : newline ∈ lead input ∨ stop input = none

theorem octets_eq_nil_iff {text : List Char} : octets text = [] ↔ text = [] := by
  cases text <;> simp [String.utf8EncodeChar_ne_nil]

/-- No two texts have one encoding. -/
theorem octets_injective {a b : List Char} (h : octets a = octets b) : a = b := by
  induction a generalizing b with
  | nil => exact (octets_eq_nil_iff.mp h.symm).symm
  | cons c a ih =>
    cases b with
    | nil => exact octets_eq_nil_iff.mp h
    | cons d b =>
      rw [octets_cons, octets_cons] at h
      have hc : String.utf8EncodeChar c <+: String.utf8EncodeChar d ++ octets b :=
        h ▸ List.prefix_append _ _
      have hchars : c = d := by
        obtain hcd | hdc := List.prefix_or_prefix_of_prefix hc (List.prefix_append _ _)
        · exact prefix_free hcd
        · exact (prefix_free hdc).symm
      subst hchars
      rw [ih (List.append_cancel_left h)]

theorem size_filter_le (p : Char → Bool) (text : List Char) :
    size (text.filter p) ≤ size text := by
  induction text with
  | nil => exact Nat.le_refl _
  | cons c text ih =>
    rw [List.filter_cons]
    split <;> simp only [size_cons] <;> omega

/-- Inputs that are alike up to the first newline have the same first line. -/
theorem FirstLine.unique {input other : List Arrival} {line : List Char} {another : List Char}
    (hline : FirstLine input line) (hanother : FirstLine other another)
    (hsame : beforeNewline (lead other) = beforeNewline (lead input)) : another = line :=
  octets_injective (hanother.octets.trans (hsame.trans hline.octets.symm))

theorem FirstLine.size_le {input : List Arrival} {line : List Char} (hline : FirstLine input line) :
    size line ≤ (lead input).length := by
  rw [← length_octets, hline.octets]
  exact (List.takeWhile_prefix _).length_le

theorem newline_not_mem_beforeNewline (bytes : List UInt8) : newline ∉ beforeNewline bytes :=
  not_mem_takeWhile_ne newline bytes

theorem beforeNewline_of_not_mem {bytes : List UInt8} (hnone : newline ∉ bytes) :
    beforeNewline bytes = bytes :=
  takeWhile_ne_of_not_mem hnone

theorem exists_beforeNewline {bytes : List UInt8} (hmem : newline ∈ bytes) :
    ∃ rest, bytes = beforeNewline bytes ++ newline :: rest := by
  induction bytes with
  | nil => cases hmem
  | cons b bytes ih =>
    by_cases hb : b = newline
    · exact ⟨bytes, by simp [beforeNewline, hb]⟩
    · obtain ⟨rest, hrest⟩ := ih (List.mem_of_ne_of_mem (Ne.symm hb) hmem)
      refine ⟨rest, ?_⟩
      rw [beforeNewline, List.takeWhile_cons_of_pos (by simpa using hb)]
      exact congrArg (b :: ·) hrest

theorem lineOf_append {bytes : List UInt8} (hnone : newline ∉ bytes) (rest : List UInt8) :
    lineOf (bytes ++ newline :: rest) = bytes ++ [newline] := by
  induction bytes with
  | nil => simp [lineOf]
  | cons b bytes ih =>
    rw [List.mem_cons, not_or] at hnone
    rw [List.cons_append, lineOf, if_neg (Ne.symm hnone.1), ih hnone.2]
    rfl

theorem lineOf_of_not_mem {bytes : List UInt8} (hnone : newline ∉ bytes) :
    lineOf bytes = bytes := by
  induction bytes with
  | nil => rfl
  | cons b bytes ih =>
    rw [List.mem_cons, not_or] at hnone
    rw [lineOf, if_neg (Ne.symm hnone.1), ih hnone.2]

/-- A newline cuts a text between two characters. -/
theorem isUtf8_of_newline {text : List Char} {bytes rest : List UInt8}
    (h : octets text = bytes ++ newline :: rest) : IsUtf8 bytes := by
  induction text generalizing bytes with
  | nil => simp at h
  | cons c text ih =>
    rw [octets_cons, List.append_eq_append_iff] at h
    obtain ⟨more, rfl, htext⟩ | ⟨more, hchar, hrest⟩ := h
    · obtain ⟨start, rfl⟩ := ih htext
      exact ⟨c :: start, rfl⟩
    · cases more with
      | nil => exact ⟨[c], by simpa using hchar⟩
      | cons b more =>
        obtain ⟨rfl, -⟩ := List.cons.inj hrest
        have hmem : newline ∈ String.utf8EncodeChar c := by simp [hchar]
        obtain rfl := (Decoder.mem_encode_iff (by decide)).mp hmem
        have hlength := congrArg List.length hchar
        rw [List.length_append, List.length_cons] at hlength
        change 1 = _ at hlength
        obtain rfl : bytes = [] := List.eq_nil_of_length_eq_zero (by omega)
        exact ⟨[], rfl⟩

theorem not_beginsUtf8_of_newline {bytes : List UInt8} (hnot : ¬IsUtf8 bytes) :
    ¬BeginsUtf8 (bytes ++ [newline]) := by
  rintro ⟨text, rest, htext⟩
  rw [List.append_assoc] at htext
  exact hnot (isUtf8_of_newline htext.symm)

/-- The first line is what is read, but for the characters U+0000 in it. -/
theorem Decodes.of_firstLine {input : List Arrival} {outcome : LineOutcome}
    (hdecodes : Decodes input outcome) {line : List Char} (hline : FirstLine input line) :
    outcome.result = .ok (line.filter (· ≠ terminator)) := by
  have hnone : newline ∉ octets line := by
    rw [hline.octets]
    exact newline_not_mem_beforeNewline _
  by_cases hmem : newline ∈ lead input
  · obtain ⟨rest, hrest⟩ := exists_beforeNewline hmem
    rw [← hline.octets] at hrest
    exact (hdecodes.ended line rest hrest hnone).1
  · have hlead := hline.octets
    rw [beforeNewline_of_not_mem hmem] at hlead
    exact (hdecodes.last line hlead.symm hnone (hline.ended.resolve_left hmem)).1

/-- Where there is no first line, the reading fails. -/
theorem Decodes.of_no_line {input : List Arrival} {outcome : LineOutcome}
    (hdecodes : Decodes input outcome) (hnone : ∀ line, ¬FirstLine input line) :
    ∃ fault, outcome.result = .error fault := by
  by_cases hmem : newline ∈ lead input
  · obtain ⟨rest, hrest⟩ := exists_beforeNewline hmem
    have hnot : ¬IsUtf8 (beforeNewline (lead input)) := by
      rintro ⟨line, hline⟩
      exact hnone line ⟨hline, .inl hmem⟩
    have hlineOf : lineOf (lead input) = beforeNewline (lead input) ++ [newline] := by
      rw [hrest, lineOf_append (newline_not_mem_beforeNewline _), ← hrest]
    obtain ⟨n, _, -, hresult, -⟩ :=
      hdecodes.invalid _ (hlineOf ▸ List.prefix_refl _) (not_beginsUtf8_of_newline hnot)
    exact ⟨_, hresult⟩
  · by_cases hbegins : BeginsUtf8 (lead input)
    · cases hstop : stop input with
      | none =>
        have hnot : ¬IsUtf8 (lead input) := by
          rintro ⟨line, hline⟩
          exact hnone line ⟨hline.trans (beforeNewline_of_not_mem hmem).symm, .inr hstop⟩
        obtain ⟨n, -, hresult, -⟩ := hdecodes.truncated hmem hbegins hnot hstop
        exact ⟨_, hresult⟩
      | some cause => exact ⟨_, (hdecodes.failed cause hmem hbegins hstop).1⟩
    · have hpart : lead input <+: lineOf (lead input) := by rw [lineOf_of_not_mem hmem]
      obtain ⟨n, _, -, hresult, -⟩ := hdecodes.invalid _ hpart hbegins
      exact ⟨_, hresult⟩

end CountedHeap
