import CountedHeap.Proofs.Tally

/-! Operations that check, step by step, whatever they take for granted: that a slot is there, that a
slot from the free list is vacant, that a live value has an owner and is where its handle says, and
that a counter has room to move. In a heap in good order no check fails, and the operations come to
what they come to without any checks. -/
namespace CountedHeap

/-- What an operation took for granted, and was not so. -/
inductive Breach where
  | noSlot
  | slotTaken
  | noOwner
  | valueGone
  | overflow
  | underflow
deriving DecidableEq, Repr

namespace Heap

/-- The next count, unless the greatest one is reached; without a greatest one there always is. -/
def countUp (greatest : Option Nat) (n : Nat) : Except Breach Nat :=
  if ∃ m ∈ greatest, m ≤ n then .error .overflow else .ok (n + 1)

def countDown (n : Nat) : Except Breach Nat :=
  if n = 0 then .error .underflow else .ok (n - 1)

/-- A slot that has to be in the table. -/
def slotAt (s : Heap) (i : Nat) : Except Breach Slot :=
  match s.slots[i]? with
  | some slot => .ok slot
  | none => .error .noSlot

/-- Counts a new value, and issues its handle. -/
def issueGuarded (s : Heap) (greatest : Option Nat) (h : Handle) (kind : Kind) :
    Except Breach (Outcome Handle) := do
  let created ← countUp greatest s.counters.created
  let live ← countUp greatest s.counters.live
  return ⟨.ok h, { s with counters := { s.counters with created, live } }, [.created kind h]⟩

def insertGuarded (s : Heap) (greatest : Option Nat) (allowance : Allowance) (value : Value) :
    Except Breach (Outcome Handle) :=
  if s.atLiveLimit then .ok (s.refuse (.allocation .liveLimit))
  else
    match s.free with
    | index :: free => do
      let popped : Heap := { s with free }
      let slot ← popped.slotAt index
      if slot.entry.isSome then .error .slotTaken
      else
        let filled : Slot := { slot with entry := some ⟨1, value⟩ }
        let grown : Heap := { popped with slots := popped.slots.set index filled }
        grown.issueGuarded greatest ⟨index, slot.generation⟩ value.kind
    | [] =>
      if maxSlots ≤ s.slots.length then .ok (s.refuse (.allocation .slotNumbers))
      else if s.slots.length < s.room || allowance.table then
        let grown : Heap :=
          { s with slots := s.slots ++ [⟨0, some ⟨1, value⟩⟩], room := s.grownRoom }
        grown.issueGuarded greatest ⟨s.slots.length, 0⟩ value.kind
      else .ok (s.refuse (.allocation .slotTable))

def createTextGuarded (s : Heap) (greatest : Option Nat) (allowance : Allowance) :
    Except Breach (Outcome Handle) :=
  match Text.Buffer.ofCapacity? allowance.storage s.settings.growth s.settings.initialCapacity with
  | some buffer => s.insertGuarded greatest allowance (.text buffer)
  | none => .ok (s.refuse (.allocation .newBuffer))

def retainGuarded (s : Heap) (h : Handle) : Except Breach (Outcome Nat) :=
  match s.find? h with
  | none => .ok ⟨.error (.staleHandle h), s, [.staleRetain h]⟩
  | some e => if e.refcount = 0 then .error .noOwner else .ok (s.retain h)

/-- Takes the value, which nobody owns any more, out of its slot. -/
def destroyGuarded (s : Heap) (greatest : Option Nat) (h : Handle) :
    Except Breach (Outcome Released) := do
  let slot ← s.slotAt h.index
  match slot.entry with
  | none => .error .valueGone
  | some ⟨_, value⟩ =>
    let retired : Bool := lastGeneration ≤ slot.generation
    let emptied : Slot := ⟨if retired then slot.generation else slot.generation + 1, none⟩
    let destroyed ← countUp greatest s.counters.destroyed
    let live ← countDown s.counters.live
    return ⟨.ok (.destroyed value.kind),
      { s with
        slots := s.slots.set h.index emptied
        free := if retired then s.free else h.index :: s.free
        counters := { s.counters with destroyed, live } },
      (if retired then [.retired h.index] else []) ++ [.destroyed h value]⟩

def releaseGuarded (s : Heap) (greatest : Option Nat) (h : Handle) :
    Except Breach (Outcome Released) :=
  match s.find? h with
  | none => .ok ⟨.error (.staleHandle h), s, [.staleRelease h]⟩
  | some e =>
    if e.refcount = 0 then .error .noOwner
    else do
      let refcount ← countDown e.refcount
      let lessened := s.put h { e with refcount }
      if 0 < refcount then .ok ⟨.ok (.retained refcount), lessened, [.released h refcount]⟩
      else lessened.destroyGuarded greatest h

def readLineGuarded (s : Heap) (greatest : Option Nat) (allowance : Allowance)
    (input : List Arrival) : Except Breach LineOutcome := do
  let started ← s.createTextGuarded greatest allowance
  match started.result with
  | .error fault => .ok ⟨.error fault, started.heap, started.log, input⟩
  | .ok line =>
    let assembly := started.heap.assemble allowance line ⟨[], 0⟩ input
    let text := assembly.result.bind fun _ => (assembly.heap.read line).map View.display
    let note :=
      match assembly.result with
      | .ok count => [Event.assembled count line]
      | .error _ => []
    let ended ← assembly.heap.releaseGuarded greatest line
    return ⟨ended.result.bind fun _ => text, ended.heap, started.log ++ note ++ ended.log,
      assembly.rest⟩

end Heap

/-- Performs one operation with its checks. What neither makes nor releases a value has none. -/
def Session.stepGuarded (s : Session) (greatest : Option Nat) (allowance : Allowance) :
    Operation → Except Breach Report
  | .createInteger n =>
    (s.heap.insertGuarded greatest allowance (.integer n)).map (s.change · .handle)
  | .createText => (s.heap.createTextGuarded greatest allowance).map (s.change · .handle)
  | .retain h => (s.heap.retainGuarded h).map (s.change · .count)
  | .release h => (s.heap.releaseGuarded greatest h).map (s.change · .released)
  | .readLine => (s.heap.readLineGuarded greatest allowance s.input).map fun line =>
      ⟨line.result.map .text, line.log, [], ⟨line.heap, line.rest⟩⟩
  | operation => .ok (s.step allowance operation)

namespace Heap

variable {s : Heap} {greatest : Option Nat}

theorem countUp_of_lt {n : Nat} (hlt : ∀ m ∈ greatest, n < m) :
    countUp greatest n = .ok (n + 1) := by
  apply if_neg
  rintro ⟨m, hm, hle⟩
  exact Nat.not_le_of_lt (hlt m hm) hle

theorem countDown_of_pos {n : Nat} (hpos : 0 < n) : countDown n = .ok (n - 1) :=
  if_neg (Nat.ne_of_gt hpos)

theorem slotAt_of_getElem? {i : Nat} {slot : Slot} (hslot : s.slots[i]? = some slot) :
    s.slotAt i = .ok slot := by
  rw [slotAt, hslot]

theorem modify_eq_set {slots : List Slot} {i : Nat} {slot : Slot} (hslot : slots[i]? = some slot)
    (f : Slot → Slot) : slots.modify i f = slots.set i (f slot) := by
  rw [List.modify_eq_set_getElem?, hslot]
  rfl

theorem issueGuarded_eq (hcreated : ∀ m ∈ greatest, s.counters.created < m)
    (hlive : ∀ m ∈ greatest, s.counters.live < m) (h : Handle) (kind : Kind) :
    s.issueGuarded greatest h kind =
      .ok ⟨.ok h, { s with counters := countCreated s.counters }, [.created kind h]⟩ := by
  rw [issueGuarded, countUp_of_lt hcreated, countUp_of_lt hlive]
  rfl

/-- No more values are alive than were created. -/
theorem Tallied.live_lt (htally : s.Tallied) (hcreated : ∀ m ∈ greatest, s.counters.created < m) :
    ∀ m ∈ greatest, s.counters.live < m := by
  intro m hm
  have hlt := hcreated m hm
  have heq := htally.created
  omega

theorem insertGuarded_eq (hs : s.Sound) (htally : s.Tallied)
    (hcreated : ∀ m ∈ greatest, s.counters.created < m) (allowance : Allowance) (value : Value) :
    s.insertGuarded greatest allowance value = .ok (s.insert allowance value) := by
  have hlive := htally.live_lt hcreated
  unfold insertGuarded insert
  split
  · rfl
  · cases hfree : s.free with
    | nil =>
      dsimp only
      split
      · rfl
      · split
        · rw [nextHandle_of_no_free hfree, Heap.extend, hfree]
          exact issueGuarded_eq (by exact hcreated) (by exact hlive) _ _
        · rfl
    | cons index free =>
      obtain ⟨g, -, hslot⟩ := hs.vacant_of_free (i := index) (by simp [hfree])
      have hindex : s.generation index = g + 1 := by rw [generation, hslot]
      have hpopped : ({ s with free } : Heap).slotAt index = .ok ⟨g + 1, none⟩ :=
        slotAt_of_getElem? hslot
      dsimp only
      rw [hpopped, nextHandle_of_free hfree, hindex, occupy, modify_eq_set hslot]
      exact issueGuarded_eq (by exact hcreated) (by exact hlive) _ _

/-- A free list that names an occupied slot is noticed. -/
example : Heap.insertGuarded ⟨[⟨0, some ⟨1, .integer 7⟩⟩], [0], 4, .standard, ⟨1, 0, 1⟩⟩ none .ample
    (.integer 8) = .error .slotTaken := rfl

theorem createTextGuarded_eq (hs : s.Sound) (htally : s.Tallied)
    (hcreated : ∀ m ∈ greatest, s.counters.created < m) (allowance : Allowance) :
    s.createTextGuarded greatest allowance = .ok (s.createText allowance) := by
  unfold createTextGuarded createText
  cases Text.Buffer.ofCapacity? allowance.storage s.settings.growth s.settings.initialCapacity with
  | none => rfl
  | some buffer => exact insertGuarded_eq hs htally hcreated allowance _

theorem retainGuarded_eq (hs : s.Sound) (h : Handle) : s.retainGuarded h = .ok (s.retain h) := by
  unfold retainGuarded
  cases hfind : s.find? h with
  | none =>
    rw [retain, hfind]
  | some e =>
    obtain ⟨-, howned, -⟩ := hs.of_find? hfind
    exact if_neg (Nat.ne_of_gt howned)

theorem farewell_eq (h : Handle) (value : Value) :
    farewell h value = (if exhausted h then [.retired h.index] else []) ++ [.destroyed h value] := by
  unfold farewell
  split <;> rfl

theorem destroyGuarded_eq {h : Handle} {e : Entry} (hfind : s.find? h = some e)
    (hdestroyed : ∀ m ∈ greatest, s.counters.destroyed < m) (hlive : 0 < s.counters.live) :
    s.destroyGuarded greatest h =
      .ok ⟨.ok (.destroyed e.value.kind), s.vacate h, farewell h e.value⟩ := by
  have hslot := find?_eq_some_iff.mp hfind
  rw [destroyGuarded, slotAt_of_getElem? hslot, countUp_of_lt hdestroyed, countDown_of_pos hlive,
    farewell_eq, vacate, modify_eq_set hslot]
  rfl

theorem releaseGuarded_eq (hs : s.Sound) (htally : s.Tallied)
    (hcreated : ∀ m ∈ greatest, s.counters.created ≤ m) (h : Handle) :
    s.releaseGuarded greatest h = .ok (s.release h) := by
  unfold releaseGuarded release
  cases hfind : s.find? h with
  | none => rfl
  | some e =>
    obtain ⟨-, howned, -⟩ := hs.of_find? hfind
    have hlive := htally.live_pos hfind
    have hdestroyed : ∀ m ∈ greatest, s.counters.destroyed < m := by
      intro m hm
      have hle := hcreated m hm
      have heq := htally.created
      omega
    dsimp only
    rw [if_neg (Nat.ne_of_gt howned), countDown_of_pos howned]
    by_cases hlt : 1 < e.refcount
    · rw [if_pos hlt]
      exact if_pos (Nat.sub_pos_of_lt hlt)
    · have hput := find?_put { e with refcount := e.refcount - 1 } hfind
      rw [if_neg hlt, ← vacate_put s h { e with refcount := e.refcount - 1 }]
      exact (if_neg (by omega)).trans
        (destroyGuarded_eq (e := ⟨e.refcount - 1, e.value⟩) hput hdestroyed hlive)

theorem readLineGuarded_eq (hs : s.Sound) (htally : s.Tallied)
    (hcreated : ∀ m ∈ greatest, s.counters.created < m) (allowance : Allowance)
    (input : List Arrival) :
    s.readLineGuarded greatest allowance input = .ok (s.readLine allowance input) := by
  rw [readLineGuarded, createTextGuarded_eq hs htally hcreated, readLine]
  cases hresult : (s.createText allowance).result with
  | error fault =>
    simp only [bind, Except.bind, hresult]
  | ok line =>
    -- The text is created and written before it is released, so the books are in order by then.
    obtain ⟨old, new, hrun⟩ := readLine_of_created hs hresult input
    have hpath := Path.cons hrun.created hrun.written.path
    have hbound : ∀ m ∈ greatest,
        (s.assembleLine allowance line input).heap.counters.created ≤ m := by
      intro m hm
      rw [hrun.assembled]
      change (s.createText allowance).heap.counters.created ≤ m
      rw [hrun.created.counters_create]
      exact hcreated m hm
    have hrelease :=
      releaseGuarded_eq (hpath.sound hs) (hpath.keeps Changes.tallied hs htally) hbound line
    rw [assembleLine] at hrelease
    simp only [bind, Except.bind, hresult, hrelease]
    rfl

end Heap

/-- A step passes its checks if the heap is in good order and the counters have room. -/
theorem Session.stepGuarded_eq {s : Session} {greatest : Option Nat} (hs : s.heap.Sound)
    (htally : s.heap.Tallied) (hcreated : ∀ m ∈ greatest, s.heap.counters.created < m)
    (allowance : Allowance) (operation : Operation) :
    s.stepGuarded greatest allowance operation = .ok (s.step allowance operation) := by
  cases operation with
  | createInteger n =>
    rw [stepGuarded, Heap.insertGuarded_eq hs htally hcreated]
    rfl
  | createText =>
    rw [stepGuarded, Heap.createTextGuarded_eq hs htally hcreated]
    rfl
  | retain h =>
    rw [stepGuarded, Heap.retainGuarded_eq hs]
    rfl
  | release h =>
    rw [stepGuarded, Heap.releaseGuarded_eq hs htally fun m hm => Nat.le_of_lt (hcreated m hm)]
    rfl
  | readLine =>
    rw [stepGuarded, Heap.readLineGuarded_eq hs htally hcreated]
    rfl
  | _ => rfl

end CountedHeap
