import CountedHeap.Proofs.Numeral
import CountedHeap.Settings.Numeral
import Mathlib.Data.List.Infix

/-! The numerals of a settings document, told by what is written and not by how it is read: the
digits in a row are worth a number, and each underscore stands between two of them. -/
namespace CountedHeap.Settings.Numeral

open Text.Decimal

/-- No underscore stands at the end or beside another one. -/
def Spaced (text : List Char) : Prop :=
  text.getLast? ≠ some '_' ∧ ¬['_', '_'] <:+: text

/-- Digits of this worth in a row, with underscores between them here and there. -/
structure Row (base n : Nat) (text : List Char) : Prop where
  worth : toNat? base (text.filter (· ≠ '_')) = some n
  head : text.head? ≠ some '_'
  spaced : Spaced text

/-- Decimal digits, of which the first is a zero only if there is no other. -/
structure DecimalRow (n : Nat) (text : List Char) : Prop extends Row 10 n text where
  zero : text.head? = some '0' → text = ['0']

/-- The spellings of a number. -/
inductive Spells : Nat → List Char → Prop
  | decimal {n : Nat} {text : List Char} (hrow : DecimalRow n text) : Spells n text
  | positive {n : Nat} {text : List Char} (hrow : DecimalRow n text) : Spells n ('+' :: text)
  | negative {text : List Char} (hrow : DecimalRow 0 text) : Spells 0 ('-' :: text)
  | hexadecimal {n : Nat} {text : List Char} (hrow : Row 16 n text) : Spells n ('0' :: 'x' :: text)
  | octal {n : Nat} {text : List Char} (hrow : Row 8 n text) : Spells n ('0' :: 'o' :: text)
  | binary {n : Nat} {text : List Char} (hrow : Row 2 n text) : Spells n ('0' :: 'b' :: text)

/-! Rows of digits. -/

@[simp] theorem digit?_underscore (base : Nat) : digit? base '_' = none := rfl

theorem ne_underscore_of_digit? {base d : Nat} {c : Char} (h : digit? base c = some d) :
    c ≠ '_' := by
  rintro rfl
  cases h

theorem spaced_cons {c : Char} (hc : c ≠ '_') {rest : List Char} :
    Spaced (c :: rest) ↔ Spaced rest := by
  unfold Spaced
  rw [List.infix_cons_iff, List.cons_prefix_cons]
  cases rest with
  | nil => simp [hc, hc.symm]
  | cons d rest => simp [List.getLast?_cons_cons, hc.symm]

theorem spaced_underscore_cons {c : Char} (hc : c ≠ '_') {rest : List Char} :
    Spaced ('_' :: c :: rest) ↔ Spaced rest := by
  refine Iff.trans ?_ (spaced_cons hc)
  have hpair : ['_', '_'] <:+: '_' :: c :: rest ↔
      ['_', '_'] <+: '_' :: c :: rest ∨ ['_', '_'] <:+: c :: rest := List.infix_cons_iff
  unfold Spaced
  rw [List.getLast?_cons_cons, hpair]
  simp [List.cons_prefix_cons, hc.symm]

theorem filter_cons {c : Char} (hc : c ≠ '_') (rest : List Char) :
    (c :: rest).filter (· ≠ '_') = c :: rest.filter (· ≠ '_') :=
  List.filter_cons_of_pos (by simpa using hc)

theorem continue?_eq_some_iff {base v n : Nat} {text : List Char} :
    continue? base v text = some n ↔
      continueNat? base v (text.filter (· ≠ '_')) = some n ∧ Spaced text := by
  fun_induction continue? base v text with
  | case1 v => simp [continueNat?, Spaced]
  | case2 v c rest ih =>
    have hfilter : ('_' :: c :: rest).filter (· ≠ '_') = (c :: rest).filter (· ≠ '_') := rfl
    rw [hfilter]
    cases hdigit : digit? base c with
    | none =>
      simp only [Option.bind_none, reduceCtorEq, false_iff, not_and]
      intro hvalue hspaced
      by_cases hc : c = '_'
      · subst hc
        exact hspaced.2 ⟨[], rest, rfl⟩
      · rw [filter_cons hc, continueNat?, hdigit] at hvalue
        cases hvalue
    | some d =>
      have hc := ne_underscore_of_digit? hdigit
      rw [filter_cons hc, continueNat?, hdigit, spaced_underscore_cons hc]
      exact ih d
  | case3 v c rest hnot ih =>
    cases hdigit : digit? base c with
    | none =>
      simp only [Option.bind_none, reduceCtorEq, false_iff, not_and]
      intro hvalue hspaced
      by_cases hc : c = '_'
      · cases rest with
        | nil => exact hspaced.1 (by rw [hc]; rfl)
        | cons d rest => exact hnot d rest hc rfl
      · rw [filter_cons hc, continueNat?, hdigit] at hvalue
        cases hvalue
    | some d =>
      have hc := ne_underscore_of_digit? hdigit
      rw [filter_cons hc, continueNat?, hdigit, spaced_cons hc]
      exact ih d

theorem digits?_eq_some_iff {base n : Nat} {text : List Char} :
    digits? base text = some n ↔ Row base n text := by
  have hrow : Row base n text ↔ toNat? base (text.filter (· ≠ '_')) = some n ∧
      text.head? ≠ some '_' ∧ Spaced text :=
    ⟨fun h => ⟨h.worth, h.head, h.spaced⟩, fun h => ⟨h.1, h.2.1, h.2.2⟩⟩
  rw [hrow]
  cases text with
  | nil => simp [digits?, toNat?]
  | cons c rest =>
    by_cases hc : c = '_'
    · subst hc
      simp [digits?]
    · have hhead : (c :: rest).head? ≠ some '_' := by simpa using hc
      rw [and_iff_right hhead, spaced_cons hc, filter_cons hc, toNat?, digits?]
      · rw [continueNat?]
        cases digit? base c with
        | none => simp
        | some d =>
          simp only [Option.bind_some, Nat.zero_mul, Nat.zero_add]
          exact continue?_eq_some_iff
      · exact List.cons_ne_nil _ _

theorem Row.exists_digit {base n : Nat} {c : Char} {rest : List Char} (h : Row base n (c :: rest)) :
    ∃ d, digit? base c = some d := by
  have hvalue := digits?_eq_some_iff.mpr h
  rw [digits?, Option.bind_eq_some_iff] at hvalue
  obtain ⟨d, hd, -⟩ := hvalue
  exact ⟨d, hd⟩

theorem decimal?_eq_some_iff {n : Nat} {text : List Char} :
    decimal? text = some n ↔ DecimalRow n text := by
  have hrow : DecimalRow n text ↔ digits? 10 text = some n ∧
      (text.head? = some '0' → text = ['0']) := by
    rw [digits?_eq_some_iff]
    exact ⟨fun h => ⟨h.toRow, h.zero⟩, fun ⟨h, hzero⟩ => ⟨h, hzero⟩⟩
  rw [hrow]
  unfold decimal?
  split
  · have hzero : digits? 10 ['0'] = some 0 := rfl
    simp [hzero]
  · next rest hnot =>
    simp only [reduceCtorEq, List.head?_cons, List.cons.injEq, true_and, false_iff, not_and]
    exact fun _ hrest => hnot (hrest trivial)
  · next hnot =>
    rw [iff_self_and]
    intro _ hhead
    obtain ⟨rest, rfl⟩ := List.head?_eq_some_iff.mp hhead
    exact absurd rfl (hnot rest)

theorem Row.ne_nil {base n : Nat} {text : List Char} (h : Row base n text) : text ≠ [] := by
  rintro rfl
  cases h.worth

/-- The head of a decimal row is a digit. -/
theorem DecimalRow.head_ne {n : Nat} {c : Char} {rest : List Char} (h : DecimalRow n (c :: rest)) :
    c ≠ '+' ∧ c ≠ '-' := by
  obtain ⟨d, hd⟩ := h.exists_digit
  constructor
  · rintro rfl
    cases hd
  · rintro rfl
    cases hd

/-- A numeral has a value if it spells one. -/
theorem value?_eq_some_iff {text : List Char} {n : Nat} : value? text = some n ↔ Spells n text := by
  -- A mark behind a zero, and a sign, are read as such before anything else.
  have hzero : ∀ {m c rest}, ¬DecimalRow m ('0' :: c :: rest) := by
    intro m c rest h
    cases h.zero rfl
  unfold value?
  split
  · rw [digits?_eq_some_iff]
    refine ⟨.hexadecimal, fun h => ?_⟩
    cases h with
    | decimal hrow => exact absurd hrow hzero
    | hexadecimal hrow => exact hrow
  · rw [digits?_eq_some_iff]
    refine ⟨.octal, fun h => ?_⟩
    cases h with
    | decimal hrow => exact absurd hrow hzero
    | octal hrow => exact hrow
  · rw [digits?_eq_some_iff]
    refine ⟨.binary, fun h => ?_⟩
    cases h with
    | decimal hrow => exact absurd hrow hzero
    | binary hrow => exact hrow
  · rw [decimal?_eq_some_iff]
    refine ⟨.positive, fun h => ?_⟩
    cases h with
    | decimal hrow => exact absurd rfl hrow.head_ne.1
    | positive hrow => exact hrow
  · rw [Option.filter_eq_some_iff, decimal?_eq_some_iff, decide_eq_true_eq]
    constructor
    · rintro ⟨hrow, rfl⟩
      exact .negative hrow
    · intro h
      cases h with
      | decimal hrow => exact absurd rfl hrow.head_ne.2
      | negative hrow => exact ⟨hrow, rfl⟩
  · next hhex hoct hbin hplus hminus =>
    rw [decimal?_eq_some_iff]
    refine ⟨.decimal, fun h => ?_⟩
    cases h with
    | decimal hrow => exact hrow
    | positive => exact absurd rfl (hplus _)
    | negative => exact absurd rfl (hminus _)
    | hexadecimal => exact absurd rfl (hhex _)
    | octal => exact absurd rfl (hoct _)
    | binary => exact absurd rfl (hbin _)

theorem read?_eq_some_iff {text : List Char} {n : Nat} :
    read? text = some n ↔ Spells n text ∧ n < bound := by
  rw [read?, Option.filter_eq_some_iff, value?_eq_some_iff, decide_eq_true_eq]

/-- A numeral without underscores and needless zeros. -/
theorem spells_ofNat (n : Nat) : Spells n (ofNat n) := by
  have hplain := plain_ofNat n
  have hmem : '_' ∉ ofNat n := fun hmem => by cases hplain.isDigit _ hmem
  have hfilter : (ofNat n).filter (· ≠ '_') = ofNat n := by
    rw [List.filter_eq_self]
    intro c hc
    rw [decide_eq_true_eq]
    rintro rfl
    exact hmem hc
  refine .decimal ⟨⟨?_, ?_, ?_, ?_⟩, hplain.head⟩
  · rw [hfilter, toNat?_ofNat]
  · exact fun hhead => hmem (List.mem_of_mem_head? hhead)
  · exact fun hlast => hmem (List.mem_of_mem_getLast? hlast)
  · exact fun hpair => hmem (hpair.subset List.mem_cons_self)

end CountedHeap.Settings.Numeral
