import CountedHeap.Proofs.Spelling
import CountedHeap.Settings.Statement

/-! What the parts of a settings document are scanned to, whatever stands behind them: line ends to
LF, blanks and comments to nothing, each word to one token. -/
namespace CountedHeap.Settings

open Text.Decimal

/-- The same text with LF at the end of each line, be it LF or CRLF. -/
inductive Evens : List Char → List Char → Prop
  | nil : Evens [] []
  | lineEnd {text even : List Char} (h : Evens text even) :
      Evens ('\r' :: '\n' :: text) ('\n' :: even)
  | char {c : Char} {text even : List Char} (hc : c ≠ '\r') (h : Evens text even) :
      Evens (c :: text) (c :: even)

/-- Blanks. -/
def Gap (text : List Char) : Prop := ∀ c ∈ text, Token.isBlank c = true

theorem evens_self {text : List Char} (h : '\r' ∉ text) : Evens text text := by
  induction text with
  | nil => exact .nil
  | cons c text ih =>
    rw [List.mem_cons, not_or] at h
    exact .char (Ne.symm h.1) (ih h.2)

theorem gap_nil : Gap [] := nofun

theorem gap_blank : Gap [' '] := List.forall_mem_singleton.mpr rfl

/-- The end of a line or of the document. -/
def AtEnd (rest : List Char) : Prop := ∀ c ∈ rest.head?, c = '\n'

/-- What may stand behind a statement on its line: blanks, and perhaps a comment. -/
inductive Trailer : List Char → Prop
  | gap {gap : List Char} (hgap : Gap gap) : Trailer gap
  | comment {gap comment : List Char} (hgap : Gap gap)
      (hplain : ∀ c ∈ comment, Token.isPlain c = true) : Trailer (gap ++ '#' :: comment)

/-- The characters of bare keys and of numerals. -/
def isWordly (c : Char) : Bool := Statement.isBare c || c == '+'

theorem isWordly_of_isBare {c : Char} (h : Statement.isBare c = true) : isWordly c = true := by
  rw [isWordly, h, Bool.true_or]

theorem isWordly_of_digit? {base d : Nat} {c : Char} (h : digit? base c = some d) :
    isWordly c = true := by
  have hcases : ('0' ≤ c ∧ c ≤ '9') ∨ ('a' ≤ c ∧ c ≤ 'f') ∨ ('A' ≤ c ∧ c ≤ 'F') := by
    by_contra hnone
    rw [not_or, not_or] at hnone
    simp [digit?, hnone] at h
  have halphanum : c.isAlphanum = (decide ('A' ≤ c ∧ c ≤ 'Z') ||
      (decide ('a' ≤ c) && decide (c ≤ 'z')) || (decide ('0' ≤ c) && decide (c ≤ '9'))) := rfl
  have htrue : c.isAlphanum = true := by
    have hlower : 'f' ≤ 'z' := by decide
    have hupper : 'F' ≤ 'Z' := by decide
    obtain ⟨hlow, hhigh⟩ | ⟨hlow, hhigh⟩ | ⟨hlow, hhigh⟩ := hcases
    · simp [halphanum, hlow, hhigh]
    · simp [halphanum, hlow, Char.le_trans hhigh hlower]
    · simp [halphanum, hlow, Char.le_trans hhigh hupper]
  exact isWordly_of_isBare (by rw [Statement.isBare, htrue, Bool.true_or, Bool.true_or])

theorem isWordly_of_continueNat? {base v n : Nat} {text : List Char}
    (h : continueNat? base v text = some n) : ∀ c ∈ text, isWordly c = true := by
  induction text generalizing v with
  | nil => nofun
  | cons c text ih =>
    rw [continueNat?] at h
    cases hdigit : digit? base c with
    | none => simp [hdigit] at h
    | some d =>
      rw [hdigit] at h
      exact List.forall_mem_cons.mpr ⟨isWordly_of_digit? hdigit, ih h⟩

namespace Numeral

theorem Row.wordly {base n : Nat} {text : List Char} (h : Row base n text) :
    ∀ c ∈ text, isWordly c = true := by
  intro c hc
  by_cases hunderscore : c = '_'
  · rw [hunderscore]
    rfl
  · have hworth := h.worth
    rw [toNat?_of_ne_nil] at hworth
    · exact isWordly_of_continueNat? hworth c (List.mem_filter.mpr ⟨hc, decide_eq_true hunderscore⟩)
    · exact List.ne_nil_of_mem (List.mem_filter.mpr ⟨hc, decide_eq_true hunderscore⟩)

/-- Numerals are words. -/
theorem Spells.wordly {n : Nat} {text : List Char} (h : Spells n text) :
    text ≠ [] ∧ ∀ c ∈ text, isWordly c = true := by
  cases h with
  | decimal hrow => exact ⟨hrow.ne_nil, hrow.wordly⟩
  | positive hrow => exact ⟨List.cons_ne_nil _ _, List.forall_mem_cons.mpr ⟨rfl, hrow.wordly⟩⟩
  | negative hrow => exact ⟨List.cons_ne_nil _ _, List.forall_mem_cons.mpr ⟨rfl, hrow.wordly⟩⟩
  | hexadecimal hrow | octal hrow | binary hrow =>
    exact ⟨List.cons_ne_nil _ _,
      List.forall_mem_cons.mpr ⟨rfl, List.forall_mem_cons.mpr ⟨rfl, hrow.wordly⟩⟩⟩

end Numeral

namespace Token

/-- A document is read as one whose lines all end with LF. -/
theorem lineEnds?_eq_some_iff {text even : List Char} :
    lineEnds? text = some even ↔ Evens text even := by
  constructor
  · intro h
    fun_induction lineEnds? text generalizing even with
    | case1 rest ih =>
      obtain ⟨even, hrest, rfl⟩ := Option.map_eq_some_iff.mp h
      exact .lineEnd (ih hrest)
    | case2 => cases h
    | case3 c rest _ hreturn ih =>
      obtain ⟨even, hrest, rfl⟩ := Option.map_eq_some_iff.mp h
      exact .char hreturn (ih hrest)
    | case4 =>
      obtain rfl := Option.some.inj h
      exact .nil
  · intro h
    induction h with
    | nil => rfl
    | lineEnd _ ih => rw [lineEnds?, ih, Option.map_some]
    | @char c text even hc _ ih =>
      rw [lineEnds?, ih, Option.map_some]
      · rintro _ rfl
        exact absurd rfl hc
      · exact hc

/-! One character at a time. -/

theorem scan_cons {mode next : Mode} {c : Char} {tokens : List Token}
    (hstep : step mode c = some (next, tokens)) (rest : List Char) :
    scan mode (c :: rest) = (scan next rest).map (tokens ++ ·) := by
  rw [scan, hstep]

theorem scan_silent {mode next : Mode} {c : Char} (hstep : step mode c = some (next, []))
    (rest : List Char) : scan mode (c :: rest) = scan next rest := by
  rw [scan_cons hstep]
  simp

theorem scan_start (c : Char) (rest : List Char) :
    scan .gap (c :: rest) = (scan (start c).1 rest).map ((start c).2 ++ ·) := by
  have hstep : step .gap c = some (start c) := rfl
  exact scan_cons hstep rest

theorem scan_start_silent {mode : Mode} {c : Char} (hstart : start c = (mode, []))
    (rest : List Char) : scan .gap (c :: rest) = scan mode rest := by
  rw [scan_start, hstart]
  simp

/-- What the first character leads to, when the whole can be scanned. -/
theorem exists_step_of_scan {mode : Mode} {c : Char} {rest : List Char} {tokens : List Token}
    (h : scan mode (c :: rest) = some tokens) :
    ∃ next first others, step mode c = some (next, first) ∧ scan next rest = some others ∧
      tokens = first ++ others := by
  rw [scan] at h
  cases hstep : step mode c with
  | none => simp [hstep] at h
  | some outcome =>
    obtain ⟨next, first⟩ := outcome
    rw [hstep] at h
    obtain ⟨others, hrest, rfl⟩ := Option.map_eq_some_iff.mp h
    exact ⟨next, first, others, rfl, hrest, rfl⟩

/-! Blanks, comments and the ends of lines. -/

theorem space_or_tab {c : Char} (hc : isBlank c = true) : c = ' ' ∨ c = '\t' := by
  simpa [isBlank] using hc

theorem start_blank {c : Char} (hc : isBlank c = true) : start c = (.gap, []) := by
  obtain rfl | rfl := space_or_tab hc
  · rfl
  · rfl

theorem scan_gap {gap : List Char} (hgap : Gap gap) (rest : List Char) :
    scan .gap (gap ++ rest) = scan .gap rest := by
  induction gap with
  | nil => rfl
  | cons c gap ih =>
    rw [List.cons_append, scan_start_silent (start_blank (hgap c List.mem_cons_self))]
    exact ih fun d hd => hgap d (List.mem_cons_of_mem _ hd)

theorem scan_lineEnd (rest : List Char) :
    scan .gap ('\n' :: rest) = (scan .gap rest).map (Token.lineEnd :: ·) :=
  scan_start '\n' rest

theorem scan_comment {comment rest : List Char} (hplain : ∀ c ∈ comment, isPlain c = true)
    (hrest : AtEnd rest) : scan .comment (comment ++ rest) = scan .gap rest := by
  induction comment with
  | nil =>
    cases rest with
    | nil => rfl
    | cons c rest =>
      obtain rfl : c = '\n' := hrest c rfl
      have hstep : step .comment '\n' = some (.gap, [.lineEnd]) := rfl
      rw [List.nil_append, scan_lineEnd, scan_cons hstep]
      rfl
  | cons c comment ih =>
    have hc := hplain c List.mem_cons_self
    have hstep : step .comment c = some (.comment, []) := by
      have hne : c ≠ '\n' := by
        rintro rfl
        cases hc
      simp [step, hne, hc]
    rw [List.cons_append, scan_silent hstep]
    exact ih fun d hd => hplain d (List.mem_cons_of_mem _ hd)

theorem scan_trailer {trailer rest : List Char} (h : Trailer trailer) (hrest : AtEnd rest) :
    scan .gap (trailer ++ rest) = scan .gap rest := by
  cases h with
  | gap hgap => exact scan_gap hgap rest
  | comment hgap hplain =>
    rw [List.append_assoc, scan_gap hgap, List.cons_append, scan_start_silent rfl,
      scan_comment hplain hrest]

/-! Words. -/

theorem ne_of_isWordly {c d : Char} (hc : isWordly c = true) (hd : isWordly d = false) : c ≠ d := by
  rintro rfl
  rw [hc] at hd
  cases hd

theorem punctuation?_wordly {c : Char} (hc : isWordly c = true) : punctuation? c = none := by
  unfold punctuation?
  split <;> first | rfl | cases hc

theorem endsWord_wordly {c : Char} (hc : isWordly c = true) : endsWord c = false := by
  have hspace := ne_of_isWordly hc (d := ' ') rfl
  have htab := ne_of_isWordly hc (d := '\t') rfl
  have hmark := ne_of_isWordly hc (d := '#') rfl
  simp [endsWord, punctuation?_wordly hc, isBlank, hspace, htab, hmark]

theorem start_wordly {c : Char} (hc : isWordly c = true) : start c = (.word [c], []) := by
  have hspace := ne_of_isWordly hc (d := ' ') rfl
  have htab := ne_of_isWordly hc (d := '\t') rfl
  have hmark := ne_of_isWordly hc (d := '#') rfl
  have hbasic := ne_of_isWordly hc (d := Quote.basic.mark) rfl
  have hliteral := ne_of_isWordly hc (d := Quote.literal.mark) rfl
  simp [start, punctuation?_wordly hc, isBlank, hspace, htab, hmark, hbasic, hliteral]

/-- A word goes on to the next character that ends it. -/
theorem scan_word {word : List Char} (hword : ∀ c ∈ word, isWordly c = true) (back : List Char)
    {rest : List Char} (hrest : ∀ c ∈ rest.head?, endsWord c = true) :
    scan (.word back) (word ++ rest) =
      (scan .gap rest).map (Token.word (back.reverse ++ word) :: ·) := by
  induction word generalizing back with
  | nil =>
    rw [List.nil_append, List.append_nil]
    cases rest with
    | nil => rfl
    | cons c rest =>
      have hc : endsWord c = true := hrest c rfl
      have hstep : step (.word back) c =
          some ((start c).1, Token.word back.reverse :: (start c).2) := by simp [step, hc]
      rw [scan_cons hstep, scan_start, Option.map_map]
      rfl
  | cons c word ih =>
    have hc := hword c List.mem_cons_self
    have hstep : step (.word back) c = some (.word (c :: back), []) := by
      simp [step, endsWord_wordly hc]
    rw [List.cons_append, scan_silent hstep, ih (fun d hd => hword d (List.mem_cons_of_mem _ hd))]
    simp

theorem scan_first_word {word rest : List Char} (hne : word ≠ [])
    (hword : ∀ c ∈ word, isWordly c = true) (hrest : ∀ c ∈ rest.head?, endsWord c = true) :
    scan .gap (word ++ rest) = (scan .gap rest).map (Token.word word :: ·) := by
  obtain ⟨c, word, rfl⟩ := List.exists_cons_of_ne_nil hne
  rw [List.cons_append, scan_start_silent (start_wordly (hword c List.mem_cons_self))]
  exact scan_word (fun d hd => hword d (List.mem_cons_of_mem _ hd)) [c] hrest

/-- Wherever a word ends that has begun, it is the first token of what is scanned. -/
theorem exists_of_scan_word {back text : List Char} {tokens : List Token}
    (h : scan (.word back) text = some tokens) :
    ∃ word rest others, text = word ++ rest ∧ tokens = .word (back.reverse ++ word) :: others ∧
      scan .gap rest = some others := by
  induction text generalizing back with
  | nil =>
    obtain rfl := Option.some.inj h
    exact ⟨[], [], [], rfl, by rw [List.append_nil], rfl⟩
  | cons c text ih =>
    cases hc : endsWord c with
    | true =>
      have hstep : step (.word back) c =
          some ((start c).1, Token.word back.reverse :: (start c).2) := by simp [step, hc]
      rw [scan_cons hstep, Option.map_eq_some_iff] at h
      obtain ⟨others, hothers, rfl⟩ := h
      refine ⟨[], c :: text, (start c).2 ++ others, rfl, by rw [List.append_nil]; rfl, ?_⟩
      rw [scan_start, hothers, Option.map_some]
    | false =>
      have hstep : step (.word back) c = some (.word (c :: back), []) := by simp [step, hc]
      rw [scan_silent hstep] at h
      obtain ⟨word, rest, others, rfl, rfl, hrest⟩ := ih h
      exact ⟨c :: word, rest, others, rfl, by simp, hrest⟩

/-- A comment leaves nothing but the end of its line. -/
theorem head?_of_scan_comment {text : List Char} {tokens : List Token}
    (h : scan .comment text = some tokens) : ∀ token ∈ tokens.head?, token = .lineEnd := by
  induction text with
  | nil =>
    obtain rfl := Option.some.inj h
    nofun
  | cons c text ih =>
    obtain ⟨next, first, others, hstep, hrest, rfl⟩ := exists_step_of_scan h
    simp only [step] at hstep
    split at hstep
    · cases hstep
      simp
    · split at hstep
      · cases hstep
        exact ih hrest
      · cases hstep

end Token

end CountedHeap.Settings
