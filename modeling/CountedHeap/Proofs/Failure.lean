import CountedHeap.Heap.Override
import CountedHeap.Proofs.Step

/-! When operations fail. Each fails for the reasons that are told here and for no other, the first of
them in the order of its steps is the one that is reported, and a step that fails has changed
nothing. -/
namespace CountedHeap

namespace Text.Buffer

/-- The storage that an append asks for, if it adds something and the room at hand is too small. -/
def demand? (b : Buffer) (text : List Char) : Option Nat :=
  let addition := beforeTerminator text
  let needed := b.used + Text.size addition
  if addition = [] ∨ needed ≤ b.capacity then none else some (b.growth.request b.capacity needed)

theorem append?_eq_none_iff {grant : Nat → Bool} {b : Buffer} {text : List Char} :
    b.append? grant text = none ↔ ∃ n, b.demand? text = some n ∧ grant n = false := by
  unfold append? demand?
  by_cases hempty : beforeTerminator text = []
  · simp [hempty]
  · by_cases hfits : b.used + Text.size (beforeTerminator text) ≤ b.capacity
    · simp [hempty, hfits]
    · simp [hempty, hfits]

end Text.Buffer

namespace Heap

/-- As many values are alive as the settings allow. -/
def AtLimit (s : Heap) : Prop := ∃ limit ∈ s.settings.liveLimit, limit ≤ s.counters.live

/-- A creation needs the table to grow: no slot may be used again, and there is no room for more. -/
def NeedsTable (s : Heap) : Prop := s.free = [] ∧ s.room ≤ s.slots.length

/-- The heaps that runs leave, the numbers of owners then written over by any others. -/
inductive Recounted : Heap → Prop
  | reached {s : Heap} (hs : s.Reachable) : Recounted s
  | override {s : Heap} (hs : Recounted s) (h : Handle) {refcount : Nat} (hpos : 1 ≤ refcount)
      (hle : refcount ≤ maxRefcount) : Recounted (s.overrideRefcount h refcount).heap

theorem atLiveLimit_iff {s : Heap} : s.atLiveLimit = true ↔ s.AtLimit := by
  unfold atLiveLimit AtLimit
  cases s.settings.liveLimit <;> simp

theorem Changes.limit_create {s t : Heap} {h : Handle} {value : Value}
    (hc : Changes s (.create h value) t) : s.atLiveLimit = false := by
  cases hc with
  | reuse _ hlimit | extend _ hlimit => exact hlimit

/-! Numbers of owners. -/

theorem Changes.refcount_le {s t : Heap} {c : Change} (hc : Changes s c t) (hs : s.Sound)
    (hle : ∀ h e, s.phase h = .live e → e.refcount ≤ maxRefcount) :
    ∀ h e, t.phase h = .live e → e.refcount ≤ maxRefcount := by
  intro h e hlive
  by_cases hne : h = c.handle
  · subst hne
    cases hc with
    | reuse value hlimit hfree =>
      rw [Change.handle, phase_created (.reuse value hlimit hfree) hs] at hlive
      cases hlive
      exact Nat.succ_le_of_lt (Nat.succ_pos _)
    | extend value hlimit hfree hlength =>
      rw [Change.handle, phase_created (.extend value hlimit hfree hlength) hs] at hlive
      cases hlive
      exact Nat.succ_le_of_lt (Nat.succ_pos _)
    | retain hfind hlt =>
      rw [Change.handle, phase_put_same _ hfind] at hlive
      cases hlive
      exact hlt
    | release hfind =>
      rw [Change.handle, phase_put_same _ hfind] at hlive
      cases hlive
      exact Nat.le_trans (Nat.sub_le _ 1) (hle _ _ (phase_eq_live_iff.mpr hfind))
    | destroy hfind =>
      rw [Change.handle, phase_vacate_same hs hfind] at hlive
      cases hlive
    | write buffer hfind =>
      have hbefore := hle _ _ (phase_eq_live_iff.mpr hfind)
      rw [Change.handle, phase_put_same _ hfind] at hlive
      cases hlive
      exact hbefore
  · rw [hc.phase_other hs hne] at hlive
    exact hle h e hlive

theorem Reachable.refcount_le {s : Heap} (hs : s.Reachable) {h : Handle} {e : Entry}
    (hfind : s.find? h = some e) : e.refcount ≤ maxRefcount := by
  obtain ⟨settings, script, rfl⟩ := hs
  refine Session.keeps_of_changes (P := fun s => ∀ h e, s.phase h = .live e →
    e.refcount ≤ maxRefcount) ?_ Changes.refcount_le script h e (phase_eq_live_iff.mpr hfind)
  intro h e hlive
  cases hlive

theorem Recounted.refcount_le {s : Heap} (hs : s.Recounted) {h : Handle} {e : Entry}
    (hfind : s.find? h = some e) : e.refcount ≤ maxRefcount := by
  induction hs generalizing e with
  | reached hs => exact hs.refcount_le hfind
  | @override s hs g refcount hpos hle ih =>
    unfold overrideRefcount at hfind
    cases hold : s.find? g with
    | none =>
      rw [hold] at hfind
      exact ih hfind
    | some old =>
      rw [hold] at hfind
      by_cases hindex : h.index = g.index
      · have hslot := find?_eq_some_iff.mp hfind
        rw [hindex, getElem?_put_same _ hold, Option.some.injEq, Slot.mk.injEq] at hslot
        obtain rfl := Option.some.inj hslot.2
        exact hle
      · exact ih ((find?_put_other s _ hindex).symm.trans hfind)

/-! What each operation fails for. -/

variable {s : Heap} {allowance : Allowance}

theorem refuse_error_iff {α : Type} {cause fault : Fault} :
    (s.refuse cause : Outcome α).result = .error fault ↔ fault = cause :=
  ⟨fun h => (Except.error.inj h).symm, fun h => h ▸ rfl⟩

theorem retain_error_iff (hs : s.Recounted) {h : Handle} {fault : Fault} :
    (s.retain h).result = .error fault ↔
      s.isLive h = false ∧ fault = .staleHandle h ∨
        s.refcount h = .ok maxRefcount ∧ fault = .refcountOverflow h := by
  unfold retain isLive refcount entry
  cases hfind : s.find? h with
  | none => simp [Except.map, eq_comm]
  | some e =>
    by_cases hlt : e.refcount < maxRefcount
    · simp [hlt, Except.map, Nat.ne_of_lt hlt]
    · have heq : e.refcount = maxRefcount :=
        Nat.le_antisymm (hs.refcount_le hfind) (Nat.le_of_not_lt hlt)
      simp [heq, Except.map, refuse_error_iff]

theorem release_error_iff {h : Handle} {fault : Fault} :
    (s.release h).result = .error fault ↔ s.isLive h = false ∧ fault = .staleHandle h := by
  unfold release isLive
  cases s.find? h with
  | none => simp [eq_comm]
  | some e => by_cases hlt : 1 < e.refcount <;> simp [hlt]

theorem buffer_error_iff {h : Handle} {fault : Fault} :
    s.buffer h = .error fault ↔
      s.isLive h = false ∧ fault = .staleHandle h ∨
        s.kind h = .ok .integer ∧ fault = .kindMismatch h .text .integer := by
  unfold buffer isLive kind entry
  cases s.find? h with
  | none => simp [Except.map, eq_comm]
  | some e =>
    obtain ⟨n, value⟩ := e
    cases value <;> simp [Except.map, Value.kind, eq_comm]

theorem replaceBuffer_error_iff {h : Handle} {new : Text.Buffer} {fault : Fault} :
    (s.replaceBuffer h new).result = .error fault ↔ s.buffer h = .error fault := by
  unfold replaceBuffer
  cases s.buffer h <;> simp [refuse]

theorem append_error_iff {h : Handle} {text : List Char} {fault : Fault} :
    (s.append allowance h text).result = .error fault ↔
      s.buffer h = .error fault ∨
        ∃ b n, s.buffer h = .ok b ∧ b.demand? text = some n ∧ allowance.storage n = false ∧
          fault = .allocation .moreText := by
  unfold append
  cases s.buffer h with
  | error cause => simp [refuse]
  | ok b =>
    have hrefused := @Text.Buffer.append?_eq_none_iff allowance.storage b text
    cases happend : b.append? allowance.storage text with
    | none =>
      obtain ⟨n, hdemand, hgrant⟩ := hrefused.mp happend
      simp [happend, hdemand, hgrant, refuse_error_iff]
    | some new =>
      have hgranted : ¬∃ n, b.demand? text = some n ∧ allowance.storage n = false :=
        fun hgrant => nomatch happend.symm.trans (hrefused.mpr hgrant)
      simp only [happend, reduceCtorEq, false_or, false_iff]
      rintro ⟨_, n, hbuffer, hdemand, hgrant, -⟩
      cases hbuffer
      exact hgranted ⟨n, hdemand, hgrant⟩

theorem insert_error_iff (hlength : s.slots.length < maxSlots) {value : Value} {fault : Fault} :
    (s.insert allowance value).result = .error fault ↔
      s.AtLimit ∧ fault = .allocation .liveLimit ∨
        ¬s.AtLimit ∧ s.NeedsTable ∧ allowance.table = false ∧
          fault = .allocation .slotTable := by
  rw [← atLiveLimit_iff]
  unfold insert NeedsTable
  by_cases hlimit : s.atLiveLimit = true
  · simp [hlimit, refuse_error_iff]
  · cases hfree : s.free with
    | cons index free => simp [hlimit]
    | nil =>
      have hnumber := Nat.not_le_of_lt hlength
      by_cases hroom : s.slots.length < s.room
      · simp [hlimit, hnumber, hroom, Nat.not_le_of_lt hroom]
      · cases htable : allowance.table
        · simp [hlimit, hnumber, hroom, Nat.le_of_not_lt hroom, refuse_error_iff]
        · simp [hlimit, hnumber]

theorem createText_error_iff (hlength : s.slots.length < maxSlots) {fault : Fault} :
    (s.createText allowance).result = .error fault ↔
      allowance.storage (max s.settings.initialCapacity 1) = false ∧
          fault = .allocation .newBuffer ∨
        allowance.storage (max s.settings.initialCapacity 1) = true ∧
          (s.AtLimit ∧ fault = .allocation .liveLimit ∨
            ¬s.AtLimit ∧ s.NeedsTable ∧ allowance.table = false ∧
              fault = .allocation .slotTable) := by
  unfold createText Text.Buffer.ofCapacity?
  cases allowance.storage (max s.settings.initialCapacity 1)
  · simp [refuse_error_iff]
  · simp [insert_error_iff hlength]

/-! What a failure leaves. -/

/-- An operation on the heap that fails has changed nothing. -/
def Atomic {α : Type} (s : Heap) (outcome : Outcome α) : Prop :=
  ∀ fault, outcome.result = .error fault → outcome.heap = s

theorem atomic_refuse {α : Type} {cause : Fault} : s.Atomic (s.refuse cause : Outcome α) :=
  fun _ _ => rfl

theorem atomic_of_ok {α : Type} {outcome : Outcome α} {a : α} (hok : outcome.result = .ok a) :
    s.Atomic outcome :=
  fun _ hfail => nomatch hok.symm.trans hfail

theorem atomic_insert {value : Value} : s.Atomic (s.insert allowance value) := by
  obtain ⟨-, hok⟩ | ⟨shortage, heq⟩ := s.insert_cases allowance value
  · exact atomic_of_ok hok
  · exact heq ▸ atomic_refuse

theorem atomic_createText : s.Atomic (s.createText allowance) := by
  obtain ⟨_, -, -, hok⟩ | ⟨shortage, heq⟩ := s.createText_cases allowance
  · exact atomic_of_ok hok
  · exact heq ▸ atomic_refuse

theorem atomic_retain {h : Handle} : s.Atomic (s.retain h) := by
  obtain ⟨e, -, -, hok⟩ | ⟨fault, -, hheap⟩ := s.retain_cases h
  · exact atomic_of_ok hok
  · exact fun _ _ => hheap

theorem atomic_release {h : Handle} : s.Atomic (s.release h) := by
  obtain ⟨e, -, -, -, hok⟩ | ⟨e, -, -, -, hok⟩ | ⟨-, -, hheap⟩ := s.release_cases h
  · exact atomic_of_ok hok
  · exact atomic_of_ok hok
  · exact fun _ _ => hheap

theorem atomic_replaceBuffer {h : Handle} {new : Text.Buffer} :
    s.Atomic (s.replaceBuffer h new) := by
  obtain ⟨old, -, hok⟩ | ⟨fault, heq⟩ := s.replaceBuffer_cases h new
  · exact atomic_of_ok hok
  · exact heq ▸ atomic_refuse

theorem atomic_append {h : Handle} {text : List Char} :
    s.Atomic (s.append allowance h text) := by
  obtain ⟨buffer, -, hok⟩ | ⟨fault, heq⟩ := s.append_cases allowance h text
  · exact atomic_of_ok hok
  · exact heq ▸ atomic_refuse

theorem atomic_appendFrom {h source : Handle} :
    s.Atomic (s.appendFrom allowance h source) := by
  obtain ⟨buffer, -, hok⟩ | ⟨fault, heq⟩ := s.appendFrom_cases allowance h source
  · exact atomic_of_ok hok
  · exact heq ▸ atomic_refuse

end Heap

namespace Session

variable {s : Session} {allowance : Allowance} {fault : Fault}

theorem change_session_of_error {α : Type} {outcome : Outcome α} {answer : α → Answer}
    (hatomic : s.heap.Atomic outcome) (hfail : (s.change outcome answer).result = .error fault) :
    (s.change outcome answer).session = s := by
  change outcome.result.map answer = _ at hfail
  cases hresult : outcome.result with
  | error cause => simp [change, hatomic cause hresult]
  | ok a =>
    rw [hresult] at hfail
    cases hfail

theorem replace_session_of_error {h : Handle} {growth : Text.Growth} {capacity : Nat}
    (hfail : (s.replace allowance h growth capacity).result = .error fault) :
    (s.replace allowance h growth capacity).session = s := by
  unfold replace at hfail ⊢
  split
  · rfl
  · next hbuffer =>
    rw [hbuffer] at hfail
    split
    · next hnew =>
      rw [hnew] at hfail
      exact change_session_of_error Heap.atomic_replaceBuffer hfail
    · rfl

/-- A step that fails leaves the session as it was; only the reading of a line has taken input and
changed the counters by then. -/
theorem step_session_of_error {operation : Operation} (hop : operation ≠ .readLine)
    (hfail : (s.step allowance operation).result = .error fault) :
    (s.step allowance operation).session = s := by
  cases operation with
  | createInteger n => exact change_session_of_error Heap.atomic_insert hfail
  | createText => exact change_session_of_error Heap.atomic_createText hfail
  | retain h => exact change_session_of_error Heap.atomic_retain hfail
  | release h => exact change_session_of_error Heap.atomic_release hfail
  | append h text => exact change_session_of_error Heap.atomic_append hfail
  | appendFrom h source => exact change_session_of_error Heap.atomic_appendFrom hfail
  | overwrite h buffer => exact change_session_of_error Heap.atomic_replaceBuffer hfail
  | replaceBuffer h growth capacity => exact replace_session_of_error hfail
  | supply input => cases hfail
  | readLine => exact absurd rfl hop
  | refcount | kind | isLive | read | buffer | display | showTo | settings | counters | compare
  | compareViews => rfl

end Session

/-- What a heap fails for under an allowance, operation by operation, and what failures leave. -/
structure Heap.FailsExactly (s : Heap) (allowance : Allowance) : Prop where
  retain : ∀ h fault, (s.retain h).result = .error fault ↔
    s.isLive h = false ∧ fault = .staleHandle h ∨
      s.refcount h = .ok maxRefcount ∧ fault = .refcountOverflow h
  release : ∀ h fault, (s.release h).result = .error fault ↔
    s.isLive h = false ∧ fault = .staleHandle h
  buffer : ∀ h fault, s.buffer h = .error fault ↔
    s.isLive h = false ∧ fault = .staleHandle h ∨
      s.kind h = .ok .integer ∧ fault = .kindMismatch h .text .integer
  replaceBuffer : ∀ h new fault, (s.replaceBuffer h new).result = .error fault ↔
    s.buffer h = .error fault
  append : ∀ h text fault, (s.append allowance h text).result = .error fault ↔
    s.buffer h = .error fault ∨
      ∃ b n, s.buffer h = .ok b ∧ b.demand? text = some n ∧ allowance.storage n = false ∧
        fault = .allocation .moreText
  createInteger : ∀ n fault, (s.createInteger allowance n).result = .error fault ↔
    s.AtLimit ∧ fault = .allocation .liveLimit ∨
      ¬s.AtLimit ∧ s.NeedsTable ∧ allowance.table = false ∧ fault = .allocation .slotTable
  createText : ∀ fault, (s.createText allowance).result = .error fault ↔
    allowance.storage (max s.settings.initialCapacity 1) = false ∧
        fault = .allocation .newBuffer ∨
      allowance.storage (max s.settings.initialCapacity 1) = true ∧
        (s.AtLimit ∧ fault = .allocation .liveLimit ∨
          ¬s.AtLimit ∧ s.NeedsTable ∧ allowance.table = false ∧
            fault = .allocation .slotTable)
  unchanged : ∀ input operation fault, operation ≠ .readLine →
    (Session.step ⟨s, input⟩ allowance operation).result = .error fault →
      (Session.step ⟨s, input⟩ allowance operation).session = ⟨s, input⟩

/-- Every operation on a heap that a run has left fails for the reasons told and for no other, and
has then changed nothing; also when numbers of owners were written over. -/
theorem failure_law {s : Heap} (hs : s.Recounted) (hlength : s.slots.length < Heap.maxSlots)
    (allowance : Allowance) : s.FailsExactly allowance where
  retain _ _ := Heap.retain_error_iff hs
  release _ _ := Heap.release_error_iff
  buffer _ _ := Heap.buffer_error_iff
  replaceBuffer _ _ _ := Heap.replaceBuffer_error_iff
  append _ _ _ := Heap.append_error_iff
  createInteger _ _ := Heap.insert_error_iff hlength
  createText _ := Heap.createText_error_iff hlength
  unchanged _ _ _ hop hfail := Session.step_session_of_error hop hfail

/-- A value with as many owners as there can be, in a heap that may not hold another. -/
def crowded : Heap :=
  let filled := ((Session.ofSettings ⟨.exactFit, 1, some 1⟩).leave
    [(.ample, .createInteger 5)]).heap
  (filled.overrideRefcount ⟨0, 0⟩ Heap.maxRefcount).heap

theorem failure_of_crowded :
    (crowded.Recounted ∧ crowded.slots.length < Heap.maxSlots) ∧
      crowded.FailsExactly (.limited 0) ∧
      (crowded.retain ⟨0, 0⟩).result = .error (.refcountOverflow ⟨0, 0⟩) ∧
      (crowded.createText .ample).result = .error (.allocation .liveLimit) := by
  have hrecounted : crowded.Recounted :=
    .override (.reached ⟨_, _, rfl⟩) _ (by decide) (by decide)
  have hlength : crowded.slots.length < Heap.maxSlots := by decide
  exact ⟨⟨hrecounted, hlength⟩, failure_law hrecounted hlength _,
    ((failure_law hrecounted hlength (.limited 0)).retain _ _).mpr (.inr ⟨by rfl, rfl⟩), by rfl⟩

end CountedHeap
