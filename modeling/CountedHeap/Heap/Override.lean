import CountedHeap.Heap.Basic

/-! Writing the hidden parts of a heap directly, to bring it into states that no ordinary run
reaches in reasonable time. -/
namespace CountedHeap.Heap

/-- Writes the generation of a slot; the result tells whether there is such a slot. -/
def overrideGeneration (s : Heap) (index generation : Nat) : Bool × Heap :=
  (index < s.slots.length,
    { s with slots := s.slots.modify index fun slot => { slot with generation := generation } })

/-- Writes the number of owners of a live value. -/
def overrideRefcount (s : Heap) (h : Handle) (refcount : Nat) : Outcome Unit :=
  match s.find? h with
  | some e => ⟨.ok (), s.put h { e with refcount := refcount }, []⟩
  | none => s.refuse (.staleHandle h)

end CountedHeap.Heap
