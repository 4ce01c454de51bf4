/-! What the memory grants during one operation: which sizes of text storage, and whether the
table of slots may grow. -/
namespace CountedHeap

structure Allowance where
  storage : Nat → Bool
  table : Bool

namespace Allowance

/-- No storage beyond this many octets is ever granted. -/
def ceiling : Nat := 0x1000_0000_0000_0000

/-- Everything below the ceiling is granted. -/
def ample : Allowance := ⟨fun size => size ≤ ceiling, true⟩

/-- Storage up to a limit is granted, and the table may not grow. -/
def limited (limit : Nat) : Allowance := ⟨fun size => size ≤ min limit ceiling, false⟩

end Allowance

end CountedHeap
