/-!
UTF-8 octet by octet. The octets gathered so far are a whole character, the beginning of one, or
neither; a text is read by gathering until a character is whole. -/
namespace CountedHeap.Text.Decoder

/-- What the octets gathered for one character amount to. -/
inductive Reading where
  | complete (c : Char)
  | incomplete
  | invalid
deriving DecidableEq, Repr

/-- The number of octets of a character that starts with this octet; zero if none does. -/
def width (lead : UInt8) : Nat :=
  if lead < 0x80 then 1
  else if lead < 0xC2 then 0
  else if lead < 0xE0 then 2
  else if lead < 0xF0 then 3
  else if lead < 0xF5 then 4
  else 0

def isContinuation (b : UInt8) : Bool := 0x80 ≤ b && b < 0xC0

/-- The second octet is bounded further where the first one alone would admit an overlong form,
a surrogate, or a number beyond the last character. -/
def mayFollow (lead b : UInt8) : Bool :=
  isContinuation b && !(lead == 0xE0 && b < 0xA0) && !(lead == 0xED && 0xA0 ≤ b) &&
    !(lead == 0xF0 && b < 0x90) && !(lead == 0xF4 && 0x90 ≤ b)

/-- The low six bits of an octet. -/
def payload (b : UInt8) : Nat := b.toNat % 64

/-- What the octets gathered since the last whole character amount to. -/
def read : List UInt8 → Reading
  | [] => .incomplete
  | [a] =>
    match width a with
    | 0 => .invalid
    | 1 => .complete (Char.ofNat a.toNat)
    | _ => .incomplete
  | [a, b] =>
    if width a < 2 || !mayFollow a b then .invalid
    else if width a = 2 then .complete (Char.ofNat (a.toNat % 32 * 64 + payload b))
    else .incomplete
  | [a, b, c] =>
    if width a < 3 || !mayFollow a b || !isContinuation c then .invalid
    else if width a = 3 then
      .complete (Char.ofNat ((a.toNat % 16 * 64 + payload b) * 64 + payload c))
    else .incomplete
  | [a, b, c, d] =>
    if width a < 4 || !mayFollow a b || !isContinuation c || !isContinuation d then .invalid
    else .complete
      (Char.ofNat (((a.toNat % 8 * 64 + payload b) * 64 + payload c) * 64 + payload d))
  | _ => .invalid

/-- An overlong form, a surrogate, and a number beyond the last character are refused as soon as
their second octet shows. -/
example : read [0xE0, 0x9F] = .invalid ∧ read [0xED, 0xA0] = .invalid ∧
    read [0xF4, 0x90] = .invalid := by decide

example : read [0xE2, 0x82] = .incomplete ∧ read [0xE2, 0x82, 0xAC] = .complete '€' := by decide

/-- Reads a text, some octets of whose first character are already gathered. -/
def decodeFrom? (gathered : List UInt8) : List UInt8 → Option (List Char)
  | [] => if gathered.isEmpty then some [] else none
  | b :: rest =>
    match read (gathered ++ [b]) with
    | .complete c => (decodeFrom? [] rest).map (c :: ·)
    | .incomplete => decodeFrom? (gathered ++ [b]) rest
    | .invalid => none

/-- The text whose encoding is given, if there is one. -/
def decode? (octets : List UInt8) : Option (List Char) := decodeFrom? [] octets

end CountedHeap.Text.Decoder
