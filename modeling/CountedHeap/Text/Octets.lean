/-! Text is a list of characters. Its octets are the UTF-8 encoding, its size is their number,
and both turn concatenation into the sum of the parts. -/
namespace CountedHeap.Text

/-- The UTF-8 encoding of a text. -/
def octets (text : List Char) : List UInt8 := text.flatMap String.utf8EncodeChar

/-- The number of octets of a text. -/
def size (text : List Char) : Nat := text.foldr (fun c n => c.utf8Size + n) 0

@[simp] theorem octets_nil : octets [] = [] := rfl

@[simp] theorem octets_cons (c : Char) (text : List Char) :
    octets (c :: text) = String.utf8EncodeChar c ++ octets text := rfl

@[simp] theorem octets_append (left right : List Char) :
    octets (left ++ right) = octets left ++ octets right := by
  simp [octets]

@[simp] theorem size_nil : size [] = 0 := rfl

@[simp] theorem size_cons (c : Char) (text : List Char) :
    size (c :: text) = c.utf8Size + size text := rfl

@[simp] theorem size_append (left right : List Char) :
    size (left ++ right) = size left + size right := by
  induction left with
  | nil => simp
  | cons c left ih => simp [ih, Nat.add_assoc]

@[simp] theorem size_reverse (text : List Char) : size text.reverse = size text := by
  induction text with
  | nil => rfl
  | cons c text ih => simp [ih, Nat.add_comm]

@[simp] theorem length_octets (text : List Char) : (octets text).length = size text := by
  induction text with
  | nil => rfl
  | cons c text ih => simp [ih]

end CountedHeap.Text
