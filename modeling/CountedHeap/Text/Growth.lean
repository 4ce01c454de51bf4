/-! How the storage of a text grows: to just the size that is needed, or geometrically. -/
namespace CountedHeap.Text

inductive Growth where
  | exactFit
  | amortized
deriving DecidableEq, Repr, Inhabited

namespace Growth

/-- The name of a policy in configurations and answers. -/
def name : Growth → String
  | exactFit => "exact-fit"
  | amortized => "amortized"

/-- The name of a policy in the log. -/
def label : Growth → String
  | exactFit => "ExactFit"
  | amortized => "Amortized"

def ofName? (text : String) : Option Growth :=
  if text = exactFit.name then some exactFit
  else if text = amortized.name then some amortized
  else none

theorem ofName?_name (growth : Growth) : ofName? growth.name = some growth := by
  cases growth <;> decide

theorem name_of_ofName? {text : String} {growth : Growth} (h : ofName? text = some growth) :
    growth.name = text := by
  unfold ofName? at h
  split at h
  · cases h; symm; assumption
  · split at h
    · cases h; symm; assumption
    · cases h

/-- The storage asked for when `needed` octets do not fit into the present capacity. -/
def request (growth : Growth) (capacity needed : Nat) : Nat :=
  match growth with
  | exactFit => needed
  | amortized => max (2 * capacity) (max needed 8)

theorem needed_le_request (growth : Growth) (capacity needed : Nat) :
    needed ≤ growth.request capacity needed := by
  cases growth <;> simp only [request] <;> omega

end Growth

end CountedHeap.Text
