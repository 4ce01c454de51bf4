import CountedHeap.Heap.Ownership

/-! What changing the entry of a live handle does to the handle itself. -/
namespace CountedHeap.Heap

/-- How many owners a handle's value has; none if it is stale. -/
def owners (s : Heap) (h : Handle) : Nat :=
  match s.find? h with
  | some e => e.refcount
  | none => 0

theorem find?_put_same (s : Heap) (h : Handle) (e : Entry) (hlive : (s.find? h).isSome) :
    (s.put h e).find? h = some e := by
  unfold find? at hlive
  unfold find? put
  simp only [List.getElem?_modify, if_true]
  cases hs : s.slots[h.index]? with
  | none => simp [hs] at hlive
  | some slot =>
    by_cases hg : slot.generation = h.generation
    · simp [hg]
    · simp [hs, hg] at hlive

theorem find?_put_other (s : Heap) {h other : Handle} (e : Entry) (hne : other.index ≠ h.index) :
    (s.put h e).find? other = s.find? other := by
  unfold find? put
  simp only [List.getElem?_modify, if_neg (Ne.symm hne)]
  cases s.slots[other.index]? <;> rfl

/-- A release that leaves owners leaves one less. -/
theorem owners_release_lt {s : Heap} {h : Handle} {n : Nat}
    (hr : (s.release h).result = .ok (.retained n)) :
    owners (s.release h).heap h < owners s h := by
  unfold release at hr ⊢
  cases he : s.find? h with
  | none => simp [he] at hr
  | some e =>
    by_cases hn : 1 < e.refcount
    · simp only [hn, if_true]
      have hput := find?_put_same s h { e with refcount := e.refcount - 1 } (by simp [he])
      simp only [owners, hput, he]
      omega
    · simp [he, hn] at hr

end CountedHeap.Heap
