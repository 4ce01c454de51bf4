import CountedHeap.Text.Decimal

/-!
Numerals of a settings document: decimal with an optional sign and without leading zeros, or
hexadecimal, octal or binary behind a mark. An underscore may stand between two digits. The
numbers are those of 64 bits, so zero is the only one that may carry a minus sign. -/
namespace CountedHeap.Settings.Numeral

/-- Numbers are below this bound. -/
def bound : Nat := 0x1_0000_0000_0000_0000

/-- Reads digits after those already worth `value`. -/
def continue? (base value : Nat) : List Char → Option Nat
  | [] => some value
  | '_' :: c :: rest => (Text.Decimal.digit? base c).bind fun d => continue? base (value * base + d) rest
  | c :: rest => (Text.Decimal.digit? base c).bind fun d => continue? base (value * base + d) rest

/-- A row of digits, perhaps with underscores between them. -/
def digits? (base : Nat) : List Char → Option Nat
  | [] => none
  | c :: rest => (Text.Decimal.digit? base c).bind fun d => continue? base d rest

/-- A row of decimal digits that does not start with a needless zero. -/
def decimal? : List Char → Option Nat
  | ['0'] => some 0
  | '0' :: _ => none
  | text => digits? 10 text

/-- The value of a numeral of any spelling. -/
def value? : List Char → Option Nat
  | '0' :: 'x' :: text => digits? 16 text
  | '0' :: 'o' :: text => digits? 8 text
  | '0' :: 'b' :: text => digits? 2 text
  | '+' :: text => decimal? text
  | '-' :: text => (decimal? text).filter (· = 0)
  | text => decimal? text

/-- The value of a numeral, when it is in range. -/
def read? (text : List Char) : Option Nat := (value? text).filter (· < bound)

end CountedHeap.Settings.Numeral
