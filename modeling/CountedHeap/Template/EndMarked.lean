import CountedHeap.Template.Basic
import CountedHeap.Text.Decimal

/-! Argument lists that carry their own end: the greatest 64-bit integer ends a list of integers,
and a missing text ends a list of texts. Only what stands before the mark is filled in. -/
namespace CountedHeap.Template

/-- The integer that ends a list of integers. -/
def integerMark : Int := 0x7FFF_FFFF_FFFF_FFFF

/-- The integers before the first mark. -/
def integersBeforeMark (arguments : List Int) : List Int :=
  arguments.takeWhile (· ≠ integerMark)

/-- The texts before the first missing one. -/
def textsBeforeMark : List (Option (List Char)) → List (List Char)
  | some text :: rest => text :: textsBeforeMark rest
  | _ => []

def renderIntegers (template : List Char) (arguments : List Int) : List Char :=
  render template ((integersBeforeMark arguments).map Text.Decimal.ofInt)

def renderTexts (template : List Char) (arguments : List (Option (List Char))) : List Char :=
  render template (textsBeforeMark arguments)

end CountedHeap.Template
