/-! Decimal numerals: how a number is written, and which spellings of a number are read. -/
namespace CountedHeap.Text.Decimal

/-- The digits of a natural number, without leading zeros. -/
def ofNat (n : Nat) : List Char := Nat.toDigits 10 n

/-- An integer is its digits, behind a minus sign when it is negative. -/
def ofInt : Int → List Char
  | .ofNat n => ofNat n
  | .negSucc n => '-' :: ofNat (n + 1)

/-- The value of a digit in a base of at most sixteen; letters count in either case. -/
def digit? (base : Nat) (c : Char) : Option Nat :=
  let value :=
    if '0' ≤ c ∧ c ≤ '9' then some (c.toNat - '0'.toNat)
    else if 'a' ≤ c ∧ c ≤ 'f' then some (c.toNat - 'a'.toNat + 10)
    else if 'A' ≤ c ∧ c ≤ 'F' then some (c.toNat - 'A'.toNat + 10)
    else none
  value.filter (· < base)

/-- Reads digits after those already worth `value`. -/
def continueNat? (base value : Nat) : List Char → Option Nat
  | [] => some value
  | c :: rest =>
    match digit? base c with
    | some d => continueNat? base (value * base + d) rest
    | none => none

/-- A nonempty row of digits; leading zeros are allowed. -/
def toNat? (base : Nat) : List Char → Option Nat
  | [] => none
  | text => continueNat? base 0 text

/-- Digits behind an optional plus sign. -/
def toUnsigned? : List Char → Option Nat
  | '+' :: text => toNat? 10 text
  | text => toNat? 10 text

/-- Digits behind an optional sign. -/
def toInt? : List Char → Option Int
  | '-' :: text => (toNat? 10 text).map fun n => -(n : Int)
  | text => (toUnsigned? text).map Int.ofNat

end CountedHeap.Text.Decimal
