/-! A handle names one value by its slot and the slot's generation at the value's creation.
Handles are ordered by slot and then by generation, and are written as #0v0. -/
namespace CountedHeap

@[ext] structure Handle where
  index : Nat
  generation : Nat
deriving DecidableEq, Repr, Inhabited

namespace Handle

def render (h : Handle) : String := s!"#{h.index}v{h.generation}"

/-- By slot, and by generation within a slot. -/
def order (a b : Handle) : Ordering :=
  (compare a.index b.index).then (compare a.generation b.generation)

end Handle

end CountedHeap
