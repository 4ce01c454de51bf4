import CountedHeap.Heap.Ownership
import CountedHeap.Proofs.Phase

/-! Elementary changes of a heap. Whatever an operation does is made up of five of them: a value is
created, gains an owner, loses one but not its last, is destroyed, or has its text written. Each
keeps a sound heap sound and moves the one handle that it is about; all other handles stay in
their phase. -/
namespace CountedHeap

inductive Change where
  | create (h : Handle) (value : Value)
  | retain (h : Handle)
  | release (h : Handle)
  | destroy (h : Handle)
  | write (h : Handle) (buffer : Text.Buffer)
deriving DecidableEq, Repr

namespace Change

/-- The handle that a change is about. -/
def handle : Change → Handle
  | create h _ => h
  | retain h => h
  | release h => h
  | destroy h => h
  | write h _ => h

end Change

namespace Heap

/-- The changes that a heap admits, and the heap that each leaves. -/
inductive Changes : Heap → Change → Heap → Prop
  | reuse {s : Heap} {index : Nat} {free : List Nat} (value : Value)
      (hlimit : s.atLiveLimit = false) (hfree : s.free = index :: free) :
      Changes s (.create s.nextHandle value) (s.occupy index free value)
  | extend {s : Heap} (value : Value) (hlimit : s.atLiveLimit = false) (hfree : s.free = [])
      (hlength : s.slots.length < maxSlots) :
      Changes s (.create s.nextHandle value) (s.extend value)
  | retain {s : Heap} {h : Handle} {e : Entry} (hfind : s.find? h = some e)
      (hlt : e.refcount < maxRefcount) :
      Changes s (.retain h) (s.put h { e with refcount := e.refcount + 1 })
  | release {s : Heap} {h : Handle} {e : Entry} (hfind : s.find? h = some e)
      (hlt : 1 < e.refcount) :
      Changes s (.release h) (s.put h { e with refcount := e.refcount - 1 })
  | destroy {s : Heap} {h : Handle} {e : Entry} (hfind : s.find? h = some e)
      (hle : e.refcount ≤ 1) : Changes s (.destroy h) (s.vacate h)
  | write {s : Heap} {h : Handle} {n : Nat} {old : Text.Buffer} (buffer : Text.Buffer)
      (hfind : s.find? h = some ⟨n, .text old⟩) :
      Changes s (.write h buffer) (s.put h ⟨n, .text buffer⟩)

/-- Changes one after another. -/
inductive Path : Heap → List Change → Heap → Prop
  | nil (s : Heap) : Path s [] s
  | cons {s t u : Heap} {c : Change} {changes : List Change} (hfirst : Changes s c t)
      (hrest : Path t changes u) : Path s (c :: changes) u

theorem Changes.path {s t : Heap} {c : Change} (hc : Changes s c t) : Path s [c] t :=
  .cons hc (.nil t)

theorem Path.eq_of_nil {s t : Heap} (hpath : Path s [] t) : t = s := by
  cases hpath
  rfl

theorem Path.changes {s t : Heap} {c : Change} (hpath : Path s [c] t) : Changes s c t := by
  obtain _ | ⟨hfirst, hrest⟩ := hpath
  cases hrest
  exact hfirst

/-! The table after each way of changing it. -/

theorem getElem?_put (s : Heap) (h : Handle) (e : Entry) (i : Nat) :
    (s.put h e).slots[i]? =
      if h.index = i then s.slots[i]?.map fun slot => { slot with entry := some e }
      else s.slots[i]? := by
  simp only [put, List.getElem?_modify]
  split <;> simp

theorem getElem?_occupy (s : Heap) (index : Nat) (free : List Nat) (value : Value) (i : Nat) :
    (s.occupy index free value).slots[i]? =
      if index = i then s.slots[i]?.map fun slot => { slot with entry := some ⟨1, value⟩ }
      else s.slots[i]? := by
  simp only [occupy, List.getElem?_modify]
  split <;> simp

theorem getElem?_snoc (slots : List Slot) (slot : Slot) (i : Nat) :
    (slots ++ [slot])[i]? = if slots.length = i then some slot else slots[i]? := by
  split
  · next h => simp [← h]
  · next h =>
    rcases Nat.lt_or_gt_of_ne h with hlt | hgt
    · rw [List.getElem?_eq_none (by simp; omega), List.getElem?_eq_none (by omega)]
    · rw [List.getElem?_append_left hgt]

theorem getElem?_extend (s : Heap) (value : Value) (i : Nat) :
    (s.extend value).slots[i]? =
      if s.slots.length = i then some ⟨0, some ⟨1, value⟩⟩ else s.slots[i]? :=
  getElem?_snoc s.slots _ i

theorem getElem?_vacate (s : Heap) (h : Handle) (i : Nat) :
    (s.vacate h).slots[i]? =
      if h.index = i then s.slots[i]?.map fun _ => vacant h else s.slots[i]? := by
  simp only [vacate, List.getElem?_modify]
  split <;> simp

/-! What a change does to its own slot, and to the others. -/

theorem nextHandle_of_free {s : Heap} {index : Nat} {free : List Nat}
    (hfree : s.free = index :: free) :
    s.nextHandle = ⟨index, s.generation index⟩ := by
  rw [nextHandle, hfree]

theorem nextHandle_of_no_free {s : Heap} (hfree : s.free = []) :
    s.nextHandle = ⟨s.slots.length, 0⟩ := by
  rw [nextHandle, hfree]

/-- A change reaches one slot only. -/
theorem Changes.other_slot {s t : Heap} {c : Change} (hc : Changes s c t) {i : Nat}
    (hi : c.handle.index ≠ i) : t.slots[i]? = s.slots[i]? ∧ (i ∈ t.free ↔ i ∈ s.free) := by
  cases hc with
  | @reuse index free value _ hfree =>
    rw [Change.handle, nextHandle_of_free hfree] at hi
    constructor
    · rw [getElem?_occupy, if_neg hi]
    · simp [occupy, hfree, Ne.symm hi]
  | extend value _ hfree =>
    rw [Change.handle, nextHandle_of_no_free hfree] at hi
    constructor
    · rw [getElem?_extend, if_neg hi]
    · rfl
  | retain | release | write =>
    constructor
    · rw [getElem?_put]
      exact if_neg hi
    · rfl
  | @destroy h =>
    constructor
    · rw [getElem?_vacate]
      exact if_neg hi
    · change h.index ≠ i at hi
      simp only [vacate]
      split
      · rfl
      · simp [Ne.symm hi]

/-- The handle that comes next is unborn. -/
theorem Sound.phase_nextHandle {s : Heap} (hs : s.Sound) : s.phase s.nextHandle = .unborn := by
  cases hfree : s.free with
  | nil =>
    rw [nextHandle_of_no_free hfree]
    exact phase_of_no_slot (List.getElem?_eq_none (Nat.le_refl _))
  | cons index free =>
    obtain ⟨g, -, hslot⟩ := hs.vacant_of_free (i := index) (by simp [hfree])
    have hg : s.generation index = g + 1 := by simp [generation, hslot]
    rw [nextHandle_of_free hfree, hg, phase_eq hslot]
    simp [Slot.phase, hfree]

theorem getElem?_put_same {s : Heap} {h : Handle} {old : Entry} (e : Entry)
    (hfind : s.find? h = some old) :
    (s.put h e).slots[h.index]? = some ⟨h.generation, some e⟩ := by
  rw [getElem?_put, if_pos rfl, find?_eq_some_iff.mp hfind]
  rfl

theorem getElem?_vacate_same {s : Heap} {h : Handle} {e : Entry} (hfind : s.find? h = some e) :
    (s.vacate h).slots[h.index]? = some (vacant h) := by
  rw [getElem?_vacate, if_pos rfl, find?_eq_some_iff.mp hfind]
  rfl

theorem free_vacate (s : Heap) (h : Handle) :
    (s.vacate h).free = if exhausted h then s.free else h.index :: s.free := rfl

/-- An occupied slot is not on the free list. -/
theorem Sound.of_find? {s : Heap} (hs : s.Sound) {h : Handle} {e : Entry}
    (hfind : s.find? h = some e) :
    h.generation ≤ lastGeneration ∧ 1 ≤ e.refcount ∧ h.index ∉ s.free :=
  (hs.fits _ _ (find?_eq_some_iff.mp hfind)).of_occupied

/-- A live handle has no successor in its slot if its generation is the last. -/
theorem Sound.exhausted_iff {s : Heap} (hs : s.Sound) {h : Handle} {e : Entry}
    (hfind : s.find? h = some e) : exhausted h = true ↔ h.generation = lastGeneration := by
  obtain ⟨hle, -⟩ := hs.of_find? hfind
  rw [exhausted, decide_eq_true_eq]
  omega

/-- Two slots of one generation look alike to handles of other generations. -/
theorem phase_eq_of_generation_eq {s t : Heap} {h : Handle} {a b : Slot}
    (ha : s.slots[h.index]? = some a) (hb : t.slots[h.index]? = some b)
    (hgeneration : b.generation = a.generation) (hne : h.generation ≠ a.generation) :
    t.phase h = s.phase h := by
  rw [phase_eq ha, phase_eq hb, Slot.phase_of_ne _ hne, Slot.phase_of_ne _ (by omega), hgeneration]

/-- A live value may be changed as long as it keeps an owner. -/
theorem Sound.put {s : Heap} (hs : s.Sound) {h : Handle} {old e : Entry}
    (hfind : s.find? h = some old) (howned : 1 ≤ e.refcount) : (s.put h e).Sound := by
  obtain ⟨hle, -, hfree⟩ := hs.of_find? hfind
  have hother : ∀ j, h.index ≠ j →
      (s.put h e).slots[j]? = s.slots[j]? ∧ (j ∈ (s.put h e).free ↔ j ∈ s.free) := by
    intro j hj
    rw [getElem?_put, if_neg hj]
    exact ⟨rfl, Iff.rfl⟩
  apply hs.of_slot _ hother (getElem?_put_same e hfind)
  · exact .occupied hle howned hfree
  · exact hs.nodup_free
  · simpa [Heap.put] using hs.length_le

/-- Every change keeps a sound heap sound. -/
theorem Changes.sound {s t : Heap} {c : Change} (hc : Changes s c t) (hs : s.Sound) : t.Sound := by
  have hother := fun j (hj : c.handle.index ≠ j) => hc.other_slot hj
  cases hc with
  | @reuse index free value _ hfree =>
    obtain ⟨g, hle, hslot⟩ := hs.vacant_of_free (i := index) (by simp [hfree])
    have hnodup : index ∉ free ∧ free.Nodup := by simpa [hfree] using hs.nodup_free
    rw [Change.handle, nextHandle_of_free hfree] at hother
    apply hs.of_slot ⟨g + 1, some ⟨1, value⟩⟩ hother
    · rw [getElem?_occupy, if_pos rfl, hslot]
      rfl
    · exact .occupied hle (Nat.le_refl 1) hnodup.1
    · exact hnodup.2
    · simpa [occupy] using hs.length_le
  | extend value _ hfree hlength =>
    rw [Change.handle, nextHandle_of_no_free hfree] at hother
    apply hs.of_slot ⟨0, some ⟨1, value⟩⟩ hother
    · rw [getElem?_extend, if_pos rfl]
    · exact .occupied (Nat.zero_le _) (Nat.le_refl 1) (by simp [Heap.extend, hfree])
    · exact hs.nodup_free
    · simpa [Heap.extend] using Nat.succ_le_of_lt hlength
  | retain hfind => exact hs.put hfind (Nat.le_add_left 1 _)
  | release hfind hlt => exact hs.put hfind (Nat.le_sub_of_add_le hlt)
  | @destroy h e hfind hle =>
    obtain ⟨hle, howned, hfree⟩ := hs.of_find? hfind
    apply hs.of_slot _ hother (getElem?_vacate_same hfind)
    · rw [free_vacate]
      unfold vacant
      by_cases hlast : exhausted h = true
      · have heq : h.generation = lastGeneration :=
          Nat.le_antisymm hle (of_decide_eq_true hlast)
        rw [if_pos hlast, if_pos hlast, heq]
        exact .retired hfree
      · have hlt : h.generation < lastGeneration :=
          Nat.lt_of_not_le fun h' => hlast (decide_eq_true h')
        rw [if_neg hlast, if_neg hlast]
        exact .free hlt List.mem_cons_self
    · rw [free_vacate]
      split
      · exact hs.nodup_free
      · exact List.nodup_cons.mpr ⟨hfree, hs.nodup_free⟩
    · simpa [vacate] using hs.length_le
  | write _ hfind => exact hs.put hfind (hs.of_find? hfind).2.1

theorem phase_put_same {s : Heap} {h : Handle} {old : Entry} (e : Entry)
    (hfind : s.find? h = some old) : (s.put h e).phase h = .live e := by
  rw [phase_eq_live_iff, find?_eq_some_iff]
  exact getElem?_put_same e hfind

/-- The slot that a new value takes is new, or vacant and on the free list. -/
theorem slot_before_create {s t : Heap} {h : Handle} {value : Value}
    (hc : Changes s (.create h value) t) (hs : s.Sound) :
    (s.slots[h.index]? = none ∧ h = ⟨s.slots.length, 0⟩ ∧ s.free = []) ∨
      (s.slots[h.index]? = some ⟨h.generation, none⟩ ∧ 0 < h.generation ∧
        s.free = h.index :: t.free) := by
  cases hc with
  | @reuse index free value _ hfree =>
    obtain ⟨g, -, hslot⟩ := hs.vacant_of_free (i := index) (by simp [hfree])
    have hg : s.generation index = g + 1 := by rw [generation, hslot]
    right
    rw [nextHandle_of_free hfree, hg]
    exact ⟨hslot, Nat.succ_pos g, hfree⟩
  | extend value _ hfree =>
    left
    rw [nextHandle_of_no_free hfree]
    exact ⟨List.getElem?_eq_none (Nat.le_refl _), rfl, hfree⟩

theorem Changes.free_create {s t : Heap} {h : Handle} {value : Value}
    (hc : Changes s (.create h value) t) : t.free = s.free.tail := by
  cases hc with
  | reuse value hlimit hfree =>
    rw [hfree]
    rfl
  | extend value hlimit hfree =>
    change s.free = s.free.tail
    rw [hfree]
    rfl

theorem Changes.counters_create {s t : Heap} {h : Handle} {value : Value}
    (hc : Changes s (.create h value) t) : t.counters = countCreated s.counters := by
  cases hc <;> rfl

theorem Changes.counters_write {s t : Heap} {h : Handle} {buffer : Text.Buffer}
    (hc : Changes s (.write h buffer) t) : t.counters = s.counters := by
  cases hc
  rfl

theorem Changes.live_destroy {s t : Heap} {h : Handle} (hc : Changes s (.destroy h) t) :
    t.counters.live = s.counters.live - 1 := by
  cases hc
  rfl

theorem slot_after_create {s t : Heap} {h : Handle} {value : Value}
    (hc : Changes s (.create h value) t) (hs : s.Sound) :
    t.slots[h.index]? = some ⟨h.generation, some ⟨1, value⟩⟩ := by
  have hbefore := slot_before_create hc hs
  cases hc with
  | @reuse index free value _ hfree =>
    rw [nextHandle_of_free hfree] at hbefore ⊢
    obtain ⟨-, -, hnone⟩ | ⟨hslot, -⟩ := hbefore
    · simp [hfree] at hnone
    · rw [getElem?_occupy, if_pos rfl, hslot]
      rfl
  | extend value _ hfree =>
    rw [nextHandle_of_no_free hfree, getElem?_extend, if_pos rfl]

/-- A new value is live under the handle that it was issued, with one owner. -/
theorem phase_created {s t : Heap} {h : Handle} {value : Value}
    (hc : Changes s (.create h value) t) (hs : s.Sound) : t.phase h = .live ⟨1, value⟩ := by
  rw [phase_eq_live_iff, find?_eq_some_iff]
  exact slot_after_create hc hs

/-- The handle of a destroyed value is spent. -/
theorem phase_vacate_same {s : Heap} (hs : s.Sound) {h : Handle} {e : Entry}
    (hfind : s.find? h = some e) : (s.vacate h).phase h = .spent := by
  obtain ⟨-, -, hfree⟩ := hs.of_find? hfind
  rw [phase_eq (getElem?_vacate_same hfind), Slot.phase, vacant, free_vacate]
  by_cases hlast : exhausted h = true
  · simp [hlast, hfree]
  · simp [hlast]

/-! The phases of the handle that a change is about, before it and after. -/

theorem Changes.create_phase {s t : Heap} {h : Handle} {value : Value}
    (hc : Changes s (.create h value) t) (hs : s.Sound) :
    s.phase h = .unborn ∧ t.phase h = .live ⟨1, value⟩ := by
  refine ⟨?_, phase_created hc hs⟩
  cases hc <;> exact hs.phase_nextHandle

theorem Changes.retain_phase {s t : Heap} {h : Handle} (hc : Changes s (.retain h) t) :
    ∃ e, s.phase h = .live e ∧ t.phase h = .live { e with refcount := e.refcount + 1 } := by
  cases hc with
  | @retain _ e hfind => exact ⟨e, phase_eq_live_iff.mpr hfind, phase_put_same _ hfind⟩

theorem Changes.release_phase {s t : Heap} {h : Handle} (hc : Changes s (.release h) t) :
    ∃ e, 1 < e.refcount ∧ s.phase h = .live e ∧
      t.phase h = .live { e with refcount := e.refcount - 1 } := by
  cases hc with
  | @release _ e hfind hlt => exact ⟨e, hlt, phase_eq_live_iff.mpr hfind, phase_put_same _ hfind⟩

theorem Changes.destroy_phase {s t : Heap} {h : Handle} (hc : Changes s (.destroy h) t)
    (hs : s.Sound) : ∃ e, e.refcount = 1 ∧ s.phase h = .live e ∧ t.phase h = .spent := by
  cases hc with
  | @destroy _ e hfind hle =>
    obtain ⟨-, howned, -⟩ := hs.of_find? hfind
    exact ⟨e, Nat.le_antisymm hle howned, phase_eq_live_iff.mpr hfind, phase_vacate_same hs hfind⟩

theorem Changes.write_phase {s t : Heap} {h : Handle} {buffer : Text.Buffer}
    (hc : Changes s (.write h buffer) t) :
    ∃ n old, s.phase h = .live ⟨n, .text old⟩ ∧ t.phase h = .live ⟨n, .text buffer⟩ := by
  cases hc with
  | @write _ n old _ hfind => exact ⟨n, old, phase_eq_live_iff.mpr hfind, phase_put_same _ hfind⟩

/-- Only a destruction leaves its handle without a value. -/
theorem Changes.live_after {s t : Heap} {c : Change} (hc : Changes s c t) (hs : s.Sound)
    (hkeeps : ∀ h, c ≠ .destroy h) : ∃ e, t.phase c.handle = .live e := by
  cases c with
  | create h value => exact ⟨_, (hc.create_phase hs).2⟩
  | retain h =>
    obtain ⟨e, -, hlive⟩ := hc.retain_phase
    exact ⟨_, hlive⟩
  | release h =>
    obtain ⟨e, -, -, hlive⟩ := hc.release_phase
    exact ⟨_, hlive⟩
  | destroy h => exact absurd rfl (hkeeps h)
  | write h buffer =>
    obtain ⟨n, old, -, hlive⟩ := hc.write_phase
    exact ⟨_, hlive⟩

theorem phase_put_other {s : Heap} {h other : Handle} {old : Entry} (e : Entry)
    (hfind : s.find? h = some old) (hindex : h.index = other.index)
    (hgeneration : other.generation ≠ h.generation) : (s.put h e).phase other = s.phase other := by
  have hbefore := find?_eq_some_iff.mp hfind
  have hafter := getElem?_put_same e hfind
  rw [hindex] at hbefore hafter
  exact phase_eq_of_generation_eq hbefore hafter rfl hgeneration

theorem phase_create_other {s t : Heap} {h other : Handle} {value : Value}
    (hc : Changes s (.create h value) t) (hs : s.Sound) (hindex : h.index = other.index)
    (hgeneration : other.generation ≠ h.generation) : t.phase other = s.phase other := by
  have hafter := slot_after_create hc hs
  rw [hindex] at hafter
  obtain ⟨hbefore, hnew, -⟩ | ⟨hbefore, -⟩ := slot_before_create hc hs
  · rw [hindex] at hbefore
    rw [phase_of_no_slot hbefore, phase_eq hafter, Slot.phase_of_ne _ hgeneration, hnew]
    rfl
  · rw [hindex] at hbefore
    exact phase_eq_of_generation_eq hbefore hafter rfl hgeneration

/-- A slot that is vacated is to other generations what it was. -/
theorem phase_vacate_other {s : Heap} {h other : Handle} {e : Entry} (hfind : s.find? h = some e)
    (hindex : h.index = other.index) (hgeneration : other.generation ≠ h.generation) :
    (s.vacate h).phase other = s.phase other := by
  have hbefore := find?_eq_some_iff.mp hfind
  have hafter := getElem?_vacate_same hfind
  rw [hindex] at hbefore hafter
  by_cases hlast : exhausted h = true
  · have hvacant : vacant h = ⟨h.generation, none⟩ := by rw [vacant, if_pos hlast]
    rw [hvacant] at hafter
    exact phase_eq_of_generation_eq hbefore hafter rfl hgeneration
  · -- The next generation was ahead of the slot and is now free to be issued: unborn both times.
    have hvacant : vacant h = ⟨h.generation + 1, none⟩ := by rw [vacant, if_neg hlast]
    have hfree : other.index ∈ (s.vacate h).free := by
      rw [free_vacate, if_neg hlast, hindex]
      exact List.mem_cons_self
    rw [hvacant] at hafter
    rw [phase_eq hbefore, Slot.phase_of_ne _ hgeneration, phase_eq hafter]
    by_cases hnext : other.generation = h.generation + 1
    · have hcontains : (s.vacate h).free.contains other.index = true :=
        List.contains_iff_mem.mpr hfree
      rw [if_neg (by simp only; omega), hnext, hcontains]
      exact Slot.phase_self ⟨h.generation + 1, none⟩ true
    · rw [Slot.phase_of_ne _ hnext]
      by_cases hlt : other.generation < h.generation
      · rw [if_pos hlt, if_pos (Nat.lt_succ_of_lt hlt)]
      · rw [if_neg hlt, if_neg (by simp only; omega)]

/-- A change leaves all other handles in their phase, those of its own slot included. -/
theorem Changes.phase_other {s t : Heap} {c : Change} (hc : Changes s c t) (hs : s.Sound)
    {h : Handle} (hne : h ≠ c.handle) : t.phase h = s.phase h := by
  by_cases hindex : c.handle.index = h.index
  · have hgeneration : h.generation ≠ c.handle.generation :=
      fun heq => hne (Handle.ext hindex.symm heq)
    cases hc with
    | reuse value hlimit hfree =>
      exact phase_create_other (.reuse value hlimit hfree) hs hindex hgeneration
    | extend value hlimit hfree hlength =>
      exact phase_create_other (.extend value hlimit hfree hlength) hs hindex hgeneration
    | retain hfind | release hfind => exact phase_put_other _ hfind hindex hgeneration
    | destroy hfind => exact phase_vacate_other hfind hindex hgeneration
    | write _ hfind => exact phase_put_other _ hfind hindex hgeneration
  · obtain ⟨hslot, hfree⟩ := hc.other_slot hindex
    exact phase_congr hslot hfree

theorem Path.phase_other {s t : Heap} {changes : List Change} (hpath : Path s changes t)
    (hs : s.Sound) {h : Handle} (hne : ∀ c ∈ changes, h ≠ c.handle) : t.phase h = s.phase h := by
  induction hpath with
  | nil => rfl
  | @cons s u t c changes hfirst _ ih =>
    have hrest := ih (hfirst.sound hs) fun c hc => hne c (List.mem_cons_of_mem _ hc)
    exact hrest.trans (hfirst.phase_other hs (hne c List.mem_cons_self))

/-- A spent handle is no longer the handle of any change. -/
theorem Changes.spent {s t : Heap} {c : Change} (hc : Changes s c t) (hs : s.Sound) {h : Handle}
    (hspent : s.phase h = .spent) : t.phase h = .spent := by
  rw [hc.phase_other hs, hspent]
  rintro rfl
  cases c with
  | create h value =>
    obtain ⟨hunborn, -⟩ := hc.create_phase hs
    cases hunborn.symm.trans hspent
  | retain h =>
    obtain ⟨e, hlive, -⟩ := hc.retain_phase
    cases hlive.symm.trans hspent
  | release h =>
    obtain ⟨e, -, hlive, -⟩ := hc.release_phase
    cases hlive.symm.trans hspent
  | destroy h =>
    obtain ⟨e, -, hlive, -⟩ := hc.destroy_phase hs
    cases hlive.symm.trans hspent
  | write h buffer =>
    obtain ⟨n, old, hlive, -⟩ := hc.write_phase
    cases hlive.symm.trans hspent

/-- Only the end of a value spends a handle. -/
theorem Changes.spent_iff {s t : Heap} {c : Change} (hc : Changes s c t) (hs : s.Sound)
    (hkeeps : ∀ h, c ≠ .destroy h) (h : Handle) : t.phase h = .spent ↔ s.phase h = .spent := by
  refine ⟨?_, hc.spent hs⟩
  intro hspent
  rw [← hc.phase_other hs, hspent]
  rintro rfl
  obtain ⟨e, hlive⟩ := hc.live_after hs hkeeps
  cases hlive.symm.trans hspent

theorem Path.spent {s t : Heap} {changes : List Change} (hpath : Path s changes t) (hs : s.Sound)
    {h : Handle} (hspent : s.phase h = .spent) : t.phase h = .spent := by
  induction hpath with
  | nil => exact hspent
  | cons hfirst _ ih => exact ih (hfirst.sound hs) (hfirst.spent hs hspent)

theorem Path.sound {s t : Heap} {changes : List Change} (hpath : Path s changes t)
    (hs : s.Sound) : t.Sound := by
  induction hpath with
  | nil => exact hs
  | cons hfirst _ ih => exact ih (hfirst.sound hs)

/-- What each change of a sound heap keeps, changes one after another keep too. -/
theorem Path.keeps {P : Heap → Prop}
    (hchange : ∀ {s t : Heap} {c : Change}, Changes s c t → s.Sound → P s → P t) {s t : Heap}
    {changes : List Change} (hpath : Path s changes t) (hs : s.Sound) (h : P s) : P t := by
  induction hpath with
  | nil => exact h
  | cons hfirst _ ih => exact ih (hfirst.sound hs) (hchange hfirst hs h)

end Heap

end CountedHeap
