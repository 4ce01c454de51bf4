import CountedHeap.Text.Decimal

/-! How an integer is written: by its canonical numeral, of which there is one for each integer. -/
namespace CountedHeap.Text.Decimal

/-- A row of digits that does not start with a needless zero. -/
structure Plain (digits : List Char) : Prop where
  ne_nil : digits ≠ []
  isDigit : ∀ c ∈ digits, c.isDigit = true
  head : digits.head? = some '0' → digits = ['0']

/-- The plain digits of an integer, behind a minus sign if it is negative. -/
def Canonical (n : Int) (text : List Char) : Prop :=
  ∃ digits, Plain digits ∧ toNat? 10 digits = some n.natAbs ∧
    text = if n < 0 then '-' :: digits else digits

theorem digit?_digitChar {d : Nat} (hd : d < 10) : digit? 10 d.digitChar = some d := by
  revert d
  decide

theorem continueNat?_append (base value : Nat) (first second : List Char) :
    continueNat? base value (first ++ second) =
      (continueNat? base value first).bind fun v => continueNat? base v second := by
  induction first generalizing value with
  | nil => rfl
  | cons c first ih =>
    rw [List.cons_append, continueNat?, continueNat?]
    cases digit? base c with
    | none => rfl
    | some d => exact ih _

theorem toNat?_of_ne_nil {base : Nat} {text : List Char} (hne : text ≠ []) :
    toNat? base text = continueNat? base 0 text := by
  cases text with
  | nil => exact absurd rfl hne
  | cons c text => rfl

theorem continueNat?_ofNat (n : Nat) : continueNat? 10 0 (ofNat n) = some n := by
  unfold ofNat
  induction n using Nat.base_induction 10 (by decide) with
  | single d hd =>
    rw [Nat.toDigits_of_lt_base hd, continueNat?, digit?_digitChar hd]
    simp [continueNat?]
  | digit m d hd hm ih =>
    rw [← Nat.toDigits_append_toDigits (by decide) hm hd, continueNat?_append, ih,
      Nat.toDigits_of_lt_base hd, Option.bind_some, continueNat?, digit?_digitChar hd]
    simp [continueNat?, Nat.mul_comm]

theorem toNat?_ofNat (n : Nat) : toNat? 10 (ofNat n) = some n := by
  have hne : ofNat n ≠ [] := Nat.toDigits_ne_nil
  rw [toNat?_of_ne_nil hne, continueNat?_ofNat]

theorem plain_ofNat (n : Nat) : Plain (ofNat n) := by
  refine ⟨Nat.toDigits_ne_nil, ?_, ?_⟩
  · intro c hc
    exact Nat.isDigit_of_mem_toDigits (by decide) (by decide) hc
  unfold ofNat
  induction n using Nat.base_induction 10 (by decide) with
  | single d hd =>
    rw [Nat.toDigits_of_lt_base hd]
    intro hhead
    exact congrArg (fun c => [c]) (Option.some.inj hhead)
  | digit m d hd hm ih =>
    intro hhead
    rw [← Nat.toDigits_append_toDigits (by decide) hm hd, List.head?_append,
      List.head?_eq_some_head Nat.toDigits_ne_nil, Option.some_or,
      ← List.head?_eq_some_head] at hhead
    -- The digits before the last one would be a lone zero, but they are those of a positive number.
    have hzero := continueNat?_ofNat m
    rw [ofNat, ih hhead] at hzero
    have hvalue : 0 = m := Option.some.inj hzero
    omega

theorem canonical_ofInt (n : Int) : Canonical n (ofInt n) := by
  cases n with
  | ofNat n => exact ⟨ofNat n, plain_ofNat n, toNat?_ofNat n, by simp [ofInt]⟩
  | negSucc n =>
    refine ⟨ofNat (n + 1), plain_ofNat _, toNat?_ofNat _, ?_⟩
    rw [if_pos (Int.negSucc_lt_zero n)]
    rfl

/-- The digits that are read are the digits that are written. -/
theorem digit?_eq_some {c : Char} {d : Nat} (h : digit? 10 c = some d) :
    d < 10 ∧ c = d.digitChar := by
  unfold digit? at h
  rw [Option.filter_eq_some_iff] at h
  obtain ⟨hvalue, hd⟩ := h
  have hd : d < 10 := of_decide_eq_true hd
  refine ⟨hd, ?_⟩
  apply Char.toNat_inj.mp
  rw [Nat.toNat_digitChar_of_lt_ten hd]
  split at hvalue
  · next hc =>
    have hlow : 48 ≤ c.toNat := hc.1
    have hvalue : c.toNat - 48 = d := Option.some.inj hvalue
    omega
  · split at hvalue
    · have hvalue : c.toNat - 97 + 10 = d := Option.some.inj hvalue
      omega
    · split at hvalue
      · have hvalue : c.toNat - 65 + 10 = d := Option.some.inj hvalue
        omega
      · cases hvalue

theorem toDigits_append_of_continueNat? {v n : Nat} {digits : List Char} (hv : 0 < v)
    (h : continueNat? 10 v digits = some n) :
    Nat.toDigits 10 v ++ digits = Nat.toDigits 10 n := by
  induction digits generalizing v with
  | nil =>
    obtain rfl := Option.some.inj h
    exact List.append_nil _
  | cons c digits ih =>
    rw [continueNat?] at h
    cases hdigit : digit? 10 c with
    | none => simp [hdigit] at h
    | some d =>
      obtain ⟨hd, rfl⟩ := digit?_eq_some hdigit
      rw [hdigit] at h
      have hrest := ih (by omega) h
      rw [Nat.mul_comm, ← Nat.toDigits_append_toDigits (by decide) hv hd,
        Nat.toDigits_of_lt_base hd, List.append_assoc] at hrest
      exact hrest

/-- No other plain row of digits is read as this number. -/
theorem Plain.eq_ofNat {digits : List Char} (hplain : Plain digits) {n : Nat}
    (h : toNat? 10 digits = some n) : digits = ofNat n := by
  obtain ⟨hne, -, hhead⟩ := hplain
  cases digits with
  | nil => exact absurd rfl hne
  | cons c digits =>
    rw [toNat?_of_ne_nil hne, continueNat?] at h
    cases hdigit : digit? 10 c with
    | none => simp [hdigit] at h
    | some d =>
      obtain ⟨hd, rfl⟩ := digit?_eq_some hdigit
      rw [hdigit] at h
      dsimp only at h
      rw [Nat.zero_mul, Nat.zero_add] at h
      obtain rfl | hpos := Nat.eq_zero_or_pos d
      · obtain ⟨-, rfl⟩ := List.cons.inj (hhead rfl)
        obtain rfl := Option.some.inj h
        rfl
      · have hdigits := toDigits_append_of_continueNat? hpos h
        rwa [Nat.toDigits_of_lt_base hd] at hdigits

theorem canonical_iff {n : Int} {text : List Char} : Canonical n text ↔ text = ofInt n := by
  constructor
  · rintro ⟨digits, hplain, hvalue, rfl⟩
    rw [hplain.eq_ofNat hvalue]
    cases n with
    | ofNat n => simp [ofInt]
    | negSucc n =>
      rw [if_pos (Int.negSucc_lt_zero n)]
      rfl
  · rintro rfl
    exact canonical_ofInt n

end CountedHeap.Text.Decimal
