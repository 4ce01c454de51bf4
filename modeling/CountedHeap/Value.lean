import CountedHeap.Text.Buffer
import CountedHeap.Text.Decimal

/-! A value is an integer or a growable text. A view is what can be read of it: the integer, or
the content of the text. -/
namespace CountedHeap

inductive Kind where
  | integer
  | text
deriving DecidableEq, Repr

def Kind.name : Kind → String
  | .integer => "integer"
  | .text => "text"

inductive Value where
  | integer (n : Int)
  | text (buffer : Text.Buffer)
deriving DecidableEq, Repr

inductive View where
  | integer (n : Int)
  | text (content : List Char)
deriving DecidableEq, Repr

namespace View

def kind : View → Kind
  | integer _ => .integer
  | text _ => .text

def integer? : View → Option Int
  | integer n => some n
  | text _ => none

def text? : View → Option (List Char)
  | integer _ => none
  | text content => some content

/-- The text that stands for a value: a decimal numeral, or the content itself. -/
def display : View → List Char
  | integer n => Text.Decimal.ofInt n
  | text content => content

end View

namespace Value

def kind : Value → Kind
  | integer _ => .integer
  | text _ => .text

def view : Value → View
  | integer n => .integer n
  | text buffer => .text buffer.content

end Value

end CountedHeap
