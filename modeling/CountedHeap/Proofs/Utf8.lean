import CountedHeap.Text.Decoder
import CountedHeap.Text.Octets
import Mathlib.Data.List.Infix

/-! The decoder against the encoding. Gathered octets are complete when they encode a character, and
incomplete when they are a proper part of the encoding of one; all others are invalid. -/
namespace CountedHeap.Text.Decoder

/-! The conditions on octets, as conditions on numbers. -/

theorem width_eq (a : UInt8) :
    width a =
      if a.toNat < 0x80 then 1
      else if a.toNat < 0xC2 then 0
      else if a.toNat < 0xE0 then 2
      else if a.toNat < 0xF0 then 3
      else if a.toNat < 0xF5 then 4
      else 0 := by
  simp only [width, UInt8.lt_iff_toNat_lt]
  rfl

theorem isContinuation_iff {b : UInt8} :
    isContinuation b = true ↔ 0x80 ≤ b.toNat ∧ b.toNat < 0xC0 := by
  simp [isContinuation, UInt8.lt_iff_toNat_lt, UInt8.le_iff_toNat_le]

theorem mayFollow_iff {a b : UInt8} :
    mayFollow a b = true ↔ (0x80 ≤ b.toNat ∧ b.toNat < 0xC0) ∧ (a.toNat = 0xE0 → 0xA0 ≤ b.toNat) ∧
      (a.toNat = 0xED → b.toNat < 0xA0) ∧ (a.toNat = 0xF0 → 0x90 ≤ b.toNat) ∧
        (a.toNat = 0xF4 → b.toNat < 0x90) := by
  simp [mayFollow, isContinuation_iff, UInt8.lt_iff_toNat_lt, UInt8.le_iff_toNat_le,
    ← UInt8.toNat_inj, imp_iff_not_or, and_assoc]

theorem width_cases (a : UInt8) :
    (width a = 0 ∧ (0x80 ≤ a.toNat ∧ a.toNat < 0xC2 ∨ 0xF5 ≤ a.toNat)) ∨
      (width a = 1 ∧ a.toNat < 0x80) ∨
      (width a = 2 ∧ 0xC2 ≤ a.toNat ∧ a.toNat < 0xE0) ∨
      (width a = 3 ∧ 0xE0 ≤ a.toNat ∧ a.toNat < 0xF0) ∨
      (width a = 4 ∧ 0xF0 ≤ a.toNat ∧ a.toNat < 0xF5) := by
  rw [width_eq]
  split_ifs <;> omega

theorem exists_mayFollow (a : UInt8) : ∃ b, mayFollow a b = true := by
  by_cases hlow : a.toNat = 0xE0 ∨ a.toNat = 0xF0
  · refine ⟨0xA0, mayFollow_iff.mpr ?_⟩
    change (_ ≤ 0xA0 ∧ 0xA0 < _) ∧ (_ → _ ≤ 0xA0) ∧ (_ → 0xA0 < _) ∧ (_ → _ ≤ 0xA0) ∧ (_ → 0xA0 < _)
    omega
  · refine ⟨0x80, mayFollow_iff.mpr ?_⟩
    change (_ ≤ 0x80 ∧ 0x80 < _) ∧ (_ → _ ≤ 0x80) ∧ (_ → 0x80 < _) ∧ (_ → _ ≤ 0x80) ∧ (_ → 0x80 < _)
    omega

/-! The decoder on one octet, two, three and four: what they must be in order not to be invalid, and
what they are read as then. -/

theorem valid_single {a : UInt8} (h : read [a] ≠ .invalid) : 1 ≤ width a := by
  rw [read] at h
  by_contra hw
  rw [Nat.lt_one_iff.mp (Nat.lt_of_not_le hw)] at h
  exact h rfl

theorem valid_pair {a b : UInt8} (h : read [a, b] ≠ .invalid) :
    2 ≤ width a ∧ mayFollow a b = true := by
  rw [read] at h
  split at h
  · exact absurd rfl h
  · next hab =>
    simp only [Bool.or_eq_true, decide_eq_true_eq, Bool.not_eq_true', not_or,
      Bool.not_eq_false] at hab
    exact ⟨Nat.le_of_not_lt hab.1, hab.2⟩

theorem valid_triple {a b c : UInt8} (h : read [a, b, c] ≠ .invalid) :
    3 ≤ width a ∧ mayFollow a b = true ∧ isContinuation c = true := by
  rw [read] at h
  split at h
  · exact absurd rfl h
  · next habc =>
    simp only [Bool.or_eq_true, decide_eq_true_eq, Bool.not_eq_true', not_or,
      Bool.not_eq_false] at habc
    exact ⟨Nat.le_of_not_lt habc.1.1, habc.1.2, habc.2⟩

theorem valid_quadruple {a b c d : UInt8} (h : read [a, b, c, d] ≠ .invalid) :
    4 ≤ width a ∧ mayFollow a b = true ∧ isContinuation c = true ∧ isContinuation d = true := by
  rw [read] at h
  split at h
  · exact absurd rfl h
  · next habcd =>
    simp only [Bool.or_eq_true, decide_eq_true_eq, Bool.not_eq_true', not_or,
      Bool.not_eq_false] at habcd
    exact ⟨Nat.le_of_not_lt habcd.1.1.1, habcd.1.1.2, habcd.1.2, habcd.2⟩

theorem read_single {a : UInt8} (hw : 1 ≤ width a) :
    read [a] = if width a = 1 then .complete (Char.ofNat a.toNat) else .incomplete := by
  rw [read]
  split
  · omega
  · next h => rw [if_pos h]
  · next h => rw [if_neg h]

theorem read_pair {a b : UInt8} (hw : 2 ≤ width a) (hb : mayFollow a b = true) :
    read [a, b] =
      if width a = 2 then .complete (Char.ofNat (a.toNat % 32 * 64 + payload b))
      else .incomplete := by
  rw [read, decide_eq_false (Nat.not_lt_of_le hw), hb]
  rfl

theorem read_triple {a b c : UInt8} (hw : 3 ≤ width a) (hb : mayFollow a b = true)
    (hc : isContinuation c = true) :
    read [a, b, c] =
      if width a = 3 then
        .complete (Char.ofNat ((a.toNat % 16 * 64 + payload b) * 64 + payload c))
      else .incomplete := by
  rw [read, decide_eq_false (Nat.not_lt_of_le hw), hb, hc]
  rfl

theorem read_quadruple {a b c d : UInt8} (hw : 4 ≤ width a) (hb : mayFollow a b = true)
    (hc : isContinuation c = true) (hd : isContinuation d = true) :
    read [a, b, c, d] =
      .complete
        (Char.ofNat (((a.toNat % 8 * 64 + payload b) * 64 + payload c) * 64 + payload d)) := by
  rw [read, decide_eq_false (Nat.not_lt_of_le hw), hb, hc, hd]
  rfl

/-- Incomplete octets can be completed. -/
theorem exists_complete {g : List UInt8} (h : read g = .incomplete) :
    ∃ more c, more ≠ [] ∧ read (g ++ more) = .complete c := by
  have htail : isContinuation 0x80 = true := rfl
  have hvalid : read g ≠ .invalid := by
    rw [h]
    nofun
  match g with
  | [] => exact ⟨[0x41], 'A', List.cons_ne_nil _ _, rfl⟩
  | [a] =>
    have hw := valid_single hvalid
    have hne : width a ≠ 1 := by
      intro hone
      rw [read_single hw, if_pos hone] at h
      cases h
    obtain ⟨b, hb⟩ := exists_mayFollow a
    obtain hw | hw | hw : width a = 2 ∨ width a = 3 ∨ width a = 4 := by
      have := width_cases a
      omega
    · exact ⟨[b], _, List.cons_ne_nil _ _, (read_pair hw.ge hb).trans (if_pos hw)⟩
    · exact ⟨[b, 0x80], _, List.cons_ne_nil _ _, (read_triple hw.ge hb htail).trans (if_pos hw)⟩
    · exact ⟨[b, 0x80, 0x80], _, List.cons_ne_nil _ _, read_quadruple hw.ge hb htail htail⟩
  | [a, b] =>
    obtain ⟨hw, hb⟩ := valid_pair hvalid
    have hne : width a ≠ 2 := by
      intro htwo
      rw [read_pair hw hb, if_pos htwo] at h
      cases h
    obtain hw | hw : width a = 3 ∨ width a = 4 := by
      have := width_cases a
      omega
    · exact ⟨[0x80], _, List.cons_ne_nil _ _, (read_triple hw.ge hb htail).trans (if_pos hw)⟩
    · exact ⟨[0x80, 0x80], _, List.cons_ne_nil _ _, read_quadruple hw.ge hb htail htail⟩
  | [a, b, c] =>
    obtain ⟨hw, hb, hc⟩ := valid_triple hvalid
    have hne : width a ≠ 3 := by
      intro hthree
      rw [read_triple hw hb hc, if_pos hthree] at h
      cases h
    exact ⟨[0x80], _, List.cons_ne_nil _ _, read_quadruple (by omega) hb hc htail⟩
  | [a, b, c, d] =>
    obtain ⟨hw, hb, hc, hd⟩ := valid_quadruple hvalid
    rw [read_quadruple hw hb hc hd] at h
    cases h
  | _ :: _ :: _ :: _ :: _ :: _ => cases h

/-! The encoding, as a function of the number of a character. -/

theorem toNat_val_ofNat {v : Nat} (hv : v.isValidChar) : (Char.ofNat v).val.toNat = v := by
  rw [Char.ofNat, dif_pos hv]
  rfl

theorem encode_eq (c : Char) :
    String.utf8EncodeChar c =
      if c.val.toNat < 0x80 then [UInt8.ofNat c.val.toNat]
      else if c.val.toNat < 0x800 then
        [UInt8.ofNat (c.val.toNat / 64 + 0xC0), UInt8.ofNat (c.val.toNat % 64 + 0x80)]
      else if c.val.toNat < 0x10000 then
        [UInt8.ofNat (c.val.toNat / 4096 + 0xE0), UInt8.ofNat (c.val.toNat / 64 % 64 + 0x80),
          UInt8.ofNat (c.val.toNat % 64 + 0x80)]
      else
        [UInt8.ofNat (c.val.toNat / 262144 + 0xF0), UInt8.ofNat (c.val.toNat / 4096 % 64 + 0x80),
          UInt8.ofNat (c.val.toNat / 64 % 64 + 0x80), UInt8.ofNat (c.val.toNat % 64 + 0x80)] := by
  have hvalid : c.val.toNat.isValidChar := c.valid
  unfold Nat.isValidChar at hvalid
  unfold String.utf8EncodeChar
  generalize c.val.toNat = v at hvalid
  dsimp only
  by_cases h1 : v < 0x80
  · rw [if_pos (by omega), if_pos h1]
  rw [if_neg (by omega), if_neg h1]
  by_cases h2 : v < 0x800
  · rw [if_pos (by omega), if_pos h2, Nat.mod_eq_of_lt (by omega)]
  rw [if_neg (by omega), if_neg h2]
  by_cases h3 : v < 0x10000
  · rw [if_pos (by omega), if_pos h3, Nat.mod_eq_of_lt (by omega)]
  rw [if_neg (by omega), if_neg h3, Nat.mod_eq_of_lt (by omega)]

/-- An octet is told by its number. -/
theorem ofNat_eq {a : UInt8} {v : Nat} (h : v = a.toNat) : UInt8.ofNat v = a := by
  rw [h, UInt8.ofNat_toNat]

theorem encode_of_complete {g : List UInt8} {c : Char} (h : read g = .complete c) :
    String.utf8EncodeChar c = g := by
  have hvalid : read g ≠ .invalid := by
    rw [h]
    nofun
  match g with
  | [] => cases h
  | [a] =>
    have hw := valid_single hvalid
    have ha := width_cases a
    rw [read_single hw] at h
    split at h
    · obtain rfl := Reading.complete.inj h
      rw [encode_eq, toNat_val_ofNat (.inl (by omega)), if_pos (by omega), UInt8.ofNat_toNat]
    · cases h
  | [a, b] =>
    obtain ⟨hw, hb⟩ := valid_pair hvalid
    have ha := width_cases a
    rw [read_pair hw hb] at h
    rw [mayFollow_iff] at hb
    split at h
    · obtain rfl := Reading.complete.inj h
      rw [payload, encode_eq, toNat_val_ofNat (.inl (by omega)), if_neg (by omega),
        if_pos (by omega), ofNat_eq (a := a) (by omega), ofNat_eq (a := b) (by omega)]
    · cases h
  | [a, b, d] =>
    obtain ⟨hw, hb, hd⟩ := valid_triple hvalid
    have ha := width_cases a
    rw [read_triple hw hb hd] at h
    rw [mayFollow_iff] at hb
    rw [isContinuation_iff] at hd
    split at h
    · have hnumber : ((a.toNat % 16 * 64 + payload b) * 64 + payload d).isValidChar := by
        unfold Nat.isValidChar payload
        omega
      obtain rfl := Reading.complete.inj h
      rw [encode_eq, toNat_val_ofNat hnumber, payload, payload, if_neg (by omega),
        if_neg (by omega), if_pos (by omega), ofNat_eq (a := a) (by omega),
        ofNat_eq (a := b) (by omega), ofNat_eq (a := d) (by omega)]
    · cases h
  | [a, b, d, e] =>
    obtain ⟨hw, hb, hd, he⟩ := valid_quadruple hvalid
    have ha := width_cases a
    rw [read_quadruple hw hb hd he] at h
    rw [mayFollow_iff] at hb
    rw [isContinuation_iff] at hd he
    have hnumber : (((a.toNat % 8 * 64 + payload b) * 64 + payload d) * 64 +
        payload e).isValidChar := by
      unfold Nat.isValidChar payload
      omega
    obtain rfl := Reading.complete.inj h
    rw [encode_eq, toNat_val_ofNat hnumber, payload, payload, payload, if_neg (by omega),
      if_neg (by omega), if_neg (by omega), ofNat_eq (a := a) (by omega),
      ofNat_eq (a := b) (by omega), ofNat_eq (a := d) (by omega), ofNat_eq (a := e) (by omega)]
  | _ :: _ :: _ :: _ :: _ :: _ => cases h

theorem toNat_ofNat_of_lt {v : Nat} (h : v < 256) : (UInt8.ofNat v).toNat = v :=
  UInt8.toNat_ofNat_of_lt' h

/-! The four lengths of encodings are read back. -/

theorem complete_one {v : Nat} {a : UInt8} (ha : a.toNat = v) (hv : v < 0x80) :
    read [a] = .complete (Char.ofNat v) := by
  have hw : width a = 1 := by
    have := width_cases a
    omega
  rw [read_single hw.ge, if_pos hw, ha]

theorem complete_two {v : Nat} {a b : UInt8} (ha : a.toNat = v / 64 + 0xC0)
    (hb : b.toNat = v % 64 + 0x80) (hlow : 0x80 ≤ v) (hv : v < 0x800) :
    read [a, b] = .complete (Char.ofNat v) := by
  have hw : width a = 2 := by
    have := width_cases a
    omega
  have hfollow : mayFollow a b = true := mayFollow_iff.mpr (by omega)
  have hnumber : a.toNat % 32 * 64 + payload b = v := by
    unfold payload
    omega
  rw [read_pair hw.ge hfollow, if_pos hw, hnumber]

theorem complete_three {v : Nat} {a b c : UInt8} (ha : a.toNat = v / 4096 + 0xE0)
    (hb : b.toNat = v / 64 % 64 + 0x80) (hc : c.toNat = v % 64 + 0x80) (hlow : 0x800 ≤ v)
    (hv : v < 0x10000) (hvalid : v < 0xD800 ∨ 0xDFFF < v) :
    read [a, b, c] = .complete (Char.ofNat v) := by
  have hw : width a = 3 := by
    have := width_cases a
    omega
  have hfollow : mayFollow a b = true := mayFollow_iff.mpr (by omega)
  have hlast : isContinuation c = true := isContinuation_iff.mpr (by omega)
  have hnumber : (a.toNat % 16 * 64 + payload b) * 64 + payload c = v := by
    unfold payload
    omega
  rw [read_triple hw.ge hfollow hlast, if_pos hw, hnumber]

theorem complete_four {v : Nat} {a b c d : UInt8} (ha : a.toNat = v / 262144 + 0xF0)
    (hb : b.toNat = v / 4096 % 64 + 0x80) (hc : c.toNat = v / 64 % 64 + 0x80)
    (hd : d.toNat = v % 64 + 0x80) (hlow : 0x10000 ≤ v) (hv : v < 0x110000) :
    read [a, b, c, d] = .complete (Char.ofNat v) := by
  have hw : width a = 4 := by
    have := width_cases a
    omega
  have hfollow : mayFollow a b = true := mayFollow_iff.mpr (by omega)
  have hthird : isContinuation c = true := isContinuation_iff.mpr (by omega)
  have hlast : isContinuation d = true := isContinuation_iff.mpr (by omega)
  have hnumber : ((a.toNat % 8 * 64 + payload b) * 64 + payload c) * 64 + payload d = v := by
    unfold payload
    omega
  rw [read_quadruple hw.ge hfollow hthird hlast, hnumber]

/-- The decoder reads back every encoding. -/
theorem read_encode (c : Char) : read (String.utf8EncodeChar c) = .complete c := by
  have hvalid : c.val.toNat.isValidChar := c.valid
  unfold Nat.isValidChar at hvalid
  have hc : Char.ofNat c.val.toNat = c := Char.ofNat_toNat c
  rw [encode_eq]
  generalize c.val.toNat = v at hvalid hc
  subst hc
  have hoctet := fun n => toNat_ofNat_of_lt (v := n)
  by_cases h1 : v < 0x80
  · rw [if_pos h1]
    exact complete_one (hoctet _ (by omega)) h1
  rw [if_neg h1]
  by_cases h2 : v < 0x800
  · rw [if_pos h2]
    exact complete_two (hoctet _ (by omega)) (hoctet _ (by omega)) (by omega) h2
  rw [if_neg h2]
  by_cases h3 : v < 0x10000
  · rw [if_pos h3]
    exact complete_three (hoctet _ (by omega)) (hoctet _ (by omega)) (hoctet _ (by omega))
      (by omega) h3 (by omega)
  · rw [if_neg h3]
    exact complete_four (hoctet _ (by omega)) (hoctet _ (by omega)) (hoctet _ (by omega))
      (hoctet _ (by omega)) (by omega) (by omega)

/-- The decoder is the inverse of the encoding. -/
theorem read_eq_complete_iff {g : List UInt8} {c : Char} :
    read g = .complete c ↔ g = String.utf8EncodeChar c := by
  constructor
  · intro h
    exact (encode_of_complete h).symm
  · rintro rfl
    exact read_encode c

/-! The decoder on parts of encodings. -/

theorem incomplete_of_snoc {g : List UInt8} {b : UInt8} (h : read (g ++ [b]) ≠ .invalid) :
    read g = .incomplete := by
  match g with
  | [] => rfl
  | [a] =>
    obtain ⟨hw, -⟩ := valid_pair h
    rw [read_single (by omega), if_neg (by omega)]
  | [a, c] =>
    obtain ⟨hw, hc, -⟩ := valid_triple h
    rw [read_pair (by omega) hc, if_neg (by omega)]
  | [a, c, d] =>
    obtain ⟨hw, hc, hd, -⟩ := valid_quadruple h
    rw [read_triple (by omega) hc hd, if_neg (by omega)]
  | _ :: _ :: _ :: _ :: _ => exact absurd (by simp [read]) h

theorem incomplete_of_append {g more : List UInt8} (h : read (g ++ more) ≠ .invalid)
    (hmore : more ≠ []) : read g = .incomplete := by
  induction more generalizing g with
  | nil => exact absurd rfl hmore
  | cons b more ih =>
    apply incomplete_of_snoc (b := b)
    cases more with
    | nil => exact h
    | cons =>
      rw [ih (by simpa using h) (by simp)]
      nofun

theorem incomplete_of_longer {g more : List UInt8} (h : read (g ++ more) = .incomplete) :
    read g = .incomplete := by
  by_cases hmore : more = []
  · rwa [hmore, List.append_nil] at h
  · exact incomplete_of_append (by rw [h]; nofun) hmore

/-- Incomplete octets are a proper part of the encoding of a character. -/
theorem read_eq_incomplete_iff {g : List UInt8} :
    read g = .incomplete ↔ ∃ c more, more ≠ [] ∧ String.utf8EncodeChar c = g ++ more := by
  constructor
  · intro h
    obtain ⟨more, c, hmore, hread⟩ := exists_complete h
    exact ⟨c, more, hmore, encode_of_complete hread⟩
  · rintro ⟨c, more, hmore, heq⟩
    refine incomplete_of_append ?_ hmore
    rw [← heq, read_encode]
    nofun

/-- An octet below 0x80 stands for the character of its number, and for nothing else. -/
theorem mem_encode_iff {b : UInt8} (hb : b.toNat < 0x80) {c : Char} :
    b ∈ String.utf8EncodeChar c ↔ c = Char.ofNat b.toNat := by
  have hvalue : (Char.ofNat b.toNat).val.toNat = b.toNat := toNat_val_ofNat (.inl (by omega))
  constructor
  · intro hmem
    have hnumber : ∀ v, b = UInt8.ofNat v → v % 256 = b.toNat := by
      rintro v rfl
      simp
    have hvalid : c.val.toNat.isValidChar := c.valid
    unfold Nat.isValidChar at hvalid
    rw [encode_eq] at hmem
    split at hmem
    · next hone =>
      have hval := hnumber _ (List.mem_singleton.mp hmem)
      apply Char.ext
      apply UInt32.toNat_inj.mp
      rw [hvalue]
      omega
    · -- All octets of a longer encoding have their highest bit set.
      exfalso
      split at hmem
      · simp only [List.mem_cons, List.not_mem_nil, or_false] at hmem
        rcases hmem with h | h <;> have := hnumber _ h <;> omega
      · split at hmem
        · simp only [List.mem_cons, List.not_mem_nil, or_false] at hmem
          rcases hmem with h | h | h <;> have := hnumber _ h <;> omega
        · simp only [List.mem_cons, List.not_mem_nil, or_false] at hmem
          rcases hmem with h | h | h | h <;> have := hnumber _ h <;> omega
  · rintro rfl
    rw [encode_eq, hvalue, if_pos hb, UInt8.ofNat_toNat]
    exact List.mem_singleton_self b

end CountedHeap.Text.Decoder

namespace CountedHeap.Text

open Decoder

/-- The octets encode a text. -/
def IsUtf8 (bytes : List UInt8) : Prop := ∃ text, octets text = bytes

/-- The octets are the beginning of the encoding of a text. -/
def BeginsUtf8 (bytes : List UInt8) : Prop := ∃ text, bytes <+: octets text

/-- The size of the longest text whose encoding stands at the beginning of these octets. -/
def IsValidUpTo (bytes : List UInt8) (n : Nat) : Prop :=
  (∃ text, octets text <+: bytes ∧ size text = n) ∧ ∀ text, octets text <+: bytes → size text ≤ n

/-- No encoding of a character begins that of another. -/
theorem prefix_free {c d : Char} (h : String.utf8EncodeChar c <+: String.utf8EncodeChar d) :
    c = d := by
  obtain ⟨more, heq⟩ := h
  by_cases hmore : more = []
  · rw [hmore, List.append_nil] at heq
    have hread := read_encode d
    rw [← heq, read_encode] at hread
    exact Reading.complete.inj hread
  · have hread := read_eq_incomplete_iff.mpr ⟨d, more, hmore, heq.symm⟩
    rw [read_encode] at hread
    cases hread

/-- Incomplete octets do not hold the encoding of a character. -/
theorem not_encode_begins {start : List UInt8} (hstart : read start = .incomplete) (c : Char) :
    ¬String.utf8EncodeChar c <+: start := by
  rintro ⟨more, rfl⟩
  have hread := incomplete_of_longer hstart
  rw [read_encode] at hread
  cases hread

/-- What begins a text is a text and a part of one more character. -/
theorem BeginsUtf8.cases {bytes : List UInt8} (h : BeginsUtf8 bytes) :
    ∃ text start, bytes = octets text ++ start ∧ read start = .incomplete := by
  obtain ⟨whole, hprefix⟩ := h
  induction whole generalizing bytes with
  | nil => exact ⟨[], bytes, rfl, by rw [List.prefix_nil.mp hprefix]; rfl⟩
  | cons c whole ih =>
    obtain ⟨more, heq⟩ | ⟨rest, rfl⟩ :=
      List.prefix_or_prefix_of_prefix hprefix (List.prefix_append (String.utf8EncodeChar c) _)
    · -- The octets end within the first character, or with it.
      by_cases hmore : more = []
      · refine ⟨[c], [], ?_, rfl⟩
        simpa [hmore] using heq
      · exact ⟨[], bytes, rfl, read_eq_incomplete_iff.mpr ⟨c, more, hmore, heq.symm⟩⟩
    · rw [octets_cons, List.prefix_append_right_inj] at hprefix
      obtain ⟨text, start, rfl, hstart⟩ := ih hprefix
      exact ⟨c :: text, start, by simp, hstart⟩

theorem beginsUtf8_append {text : List Char} {start : List UInt8}
    (hstart : read start = .incomplete) : BeginsUtf8 (octets text ++ start) := by
  obtain ⟨c, more, -, heq⟩ := read_eq_incomplete_iff.mp hstart
  refine ⟨text ++ [c], more, ?_⟩
  simp [heq]

theorem IsUtf8.begins {bytes : List UInt8} (h : IsUtf8 bytes) : BeginsUtf8 bytes := by
  obtain ⟨text, rfl⟩ := h
  exact ⟨text, List.prefix_refl _⟩

/-- Where a text cannot go on, the decoder stops. -/
theorem read_of_not_begins {text : List Char} {start : List UInt8}
    (h : ¬BeginsUtf8 (octets text ++ start)) : read start = .invalid := by
  cases hread : read start with
  | invalid => rfl
  | incomplete => exact absurd (beginsUtf8_append hread) h
  | complete c =>
    obtain rfl := read_eq_complete_iff.mp hread
    exact absurd (IsUtf8.begins ⟨text ++ [c], by simp⟩) h

/-- The text before an incomplete character is the longest there is. -/
theorem isValidUpTo_append (text : List Char) {start : List UInt8}
    (hstart : read start = .incomplete) : IsValidUpTo (octets text ++ start) (size text) := by
  refine ⟨⟨text, List.prefix_append _ _, rfl⟩, ?_⟩
  intro other hother
  induction text generalizing other with
  | nil =>
    cases other with
    | nil => exact Nat.le_refl _
    | cons c other =>
      exact absurd ((List.prefix_append _ _).trans hother) (not_encode_begins hstart c)
  | cons d text ih =>
    cases other with
    | nil => exact Nat.zero_le _
    | cons c other =>
      -- No encoding begins another, so the two texts have their first character in common.
      rw [octets_cons, octets_cons, List.append_assoc] at hother
      have hchars : c = d := by
        have hc := (List.prefix_append _ _).trans hother
        obtain h | h := List.prefix_or_prefix_of_prefix hc (List.prefix_append _ _)
        · exact prefix_free h
        · exact (prefix_free h).symm
      subst hchars
      have hrest := ih other ((List.prefix_append_right_inj _).mp hother)
      simp only [size_cons]
      omega

theorem BeginsUtf8.mono {part bytes : List UInt8} (h : BeginsUtf8 bytes) (hpart : part <+: bytes) :
    BeginsUtf8 part := by
  obtain ⟨text, htext⟩ := h
  exact ⟨text, hpart.trans htext⟩

/-- Octets that do not begin a text have a shortest part that does not. -/
theorem exists_shortest {bytes part : List UInt8} (hpart : part <+: bytes)
    (hbad : ¬BeginsUtf8 part) :
    ∃ good b, good ++ [b] <+: bytes ∧ BeginsUtf8 good ∧ ¬BeginsUtf8 (good ++ [b]) ∧
      ∀ other, other <+: bytes → ¬BeginsUtf8 other → good ++ [b] <+: other := by
  induction part using List.reverseRecOn with
  | nil => exact absurd (IsUtf8.begins ⟨[], rfl⟩) hbad
  | append_singleton good b ih =>
    by_cases hgood : BeginsUtf8 good
    · refine ⟨good, b, hpart, hgood, hbad, ?_⟩
      intro other hother hbad'
      obtain h | h := List.prefix_or_prefix_of_prefix hpart hother
      · exact h
      · obtain rfl | h := List.prefix_concat_iff.mp h
        · exact List.prefix_refl _
        · exact absurd (hgood.mono h) hbad'
    · exact ih ((List.prefix_append good [b]).trans hpart) hgood

/-- Where a text cannot go on, all its parts lie before. -/
theorem IsValidUpTo.of_bad {bytes good : List UInt8} {b : UInt8} {n : Nat} (h : IsValidUpTo good n)
    (hbytes : good ++ [b] <+: bytes) (hbad : ¬BeginsUtf8 (good ++ [b])) : IsValidUpTo bytes n := by
  obtain ⟨⟨text, htext, hsize⟩, hlongest⟩ := h
  refine ⟨⟨text, htext.trans ((List.prefix_append good [b]).trans hbytes), hsize⟩, ?_⟩
  intro other hother
  obtain h | h := List.prefix_or_prefix_of_prefix hother hbytes
  · obtain heq | h := List.prefix_concat_iff.mp h
    · exact absurd (IsUtf8.begins ⟨other, heq⟩) hbad
    · exact hlongest other h
  · exact absurd ⟨other, h⟩ hbad

theorem mem_octets_iff {b : UInt8} (hb : b.toNat < 0x80) {text : List Char} :
    b ∈ octets text ↔ Char.ofNat b.toNat ∈ text := by
  simp [octets, Decoder.mem_encode_iff hb]

end CountedHeap.Text
