import CountedHeap.Text.Decimal
import CountedHeap.Text.Growth

/-! How a heap is set up: the growth policy and initial storage of its texts, and how many values
may be alive at once. -/
namespace CountedHeap

structure Settings where
  growth : Text.Growth
  initialCapacity : Nat
  liveLimit : Option Nat
deriving DecidableEq, Repr

namespace Settings

/-- Exact fit, room for the terminator alone, and no limit. -/
def standard : Settings := ⟨.exactFit, 1, none⟩

instance : Inhabited Settings := ⟨standard⟩

/-- The form of the settings in the log. -/
def render (s : Settings) : String :=
  let limit :=
    match s.liveLimit with
    | none => "None"
    | some n => s!"Some({n})"
  "HeapConfig \x7b growth: " ++ s.growth.label ++
    s!", initial_text_capacity: {s.initialCapacity}, max_live_values: " ++ limit ++ " \x7d"

end Settings

end CountedHeap
