import CountedHeap.Sink
import Mathlib.Algebra.Order.Ring.Nat
import Mathlib.Data.List.TakeDrop

/-! What becomes of octets that are written to a sink, told from the sink's script alone. The answers
before the first failure take so many octets together; the sink takes these and no more, and fails
only if there are more. -/
namespace CountedHeap.Sink

namespace Reply

/-- The failure that an answer is. To take nothing is a failure too, an interruption is none. -/
def fault? : Reply → Option TransferFault
  | .accept count => if count = 0 then some .nothingWritten else none
  | .interrupt => none
  | .fail cause => some cause

/-- How many octets an answer takes at most. -/
def count : Reply → Nat
  | .accept count => count
  | .interrupt | .fail _ => 0

end Reply

/-- The first failure that the sink has in store. -/
def fault? (sink : Sink) : Option TransferFault :=
  (sink.script.findSome? Reply.fault?).or sink.closed

/-- How many octets the answers before the first failure take together. -/
def room (sink : Sink) : Nat :=
  ((sink.script.takeWhile fun reply => reply.fault?.isNone).map Reply.count).sum

/-- The sink without its interruptions. -/
def uninterrupted (sink : Sink) : Sink := { sink with script := sink.script.filter (· ≠ .interrupt) }

/-- What a sink makes of octets: it takes them from the front on, as many as it has room for, and all
of them if it does not fail; it fails if there are more, with the first failure in store. -/
structure Conveys (sink : Sink) (octets written : List UInt8) (failure : Option TransferFault) :
    Prop where
  front : written <+: octets
  all_iff : failure = none ↔ written = octets
  failure_eq : failure = if octets.length ≤ sink.room then none else sink.fault?
  first : ∀ cause, failure = some cause → sink.fault? = some cause ∧ written = octets.take sink.room

variable {closed : Option TransferFault} {script : List Reply} {count : Nat}

theorem fault?_accept (hcount : count ≠ 0) :
    (⟨.accept count :: script, closed⟩ : Sink).fault? = (⟨script, closed⟩ : Sink).fault? := by
  simp [fault?, Reply.fault?, hcount]

theorem room_accept (hcount : count ≠ 0) :
    (⟨.accept count :: script, closed⟩ : Sink).room = count + (⟨script, closed⟩ : Sink).room := by
  simp [room, Reply.fault?, Reply.count, hcount]

theorem room_interrupt :
    (⟨.interrupt :: script, closed⟩ : Sink).room = (⟨script, closed⟩ : Sink).room := by
  simp [room, Reply.fault?, Reply.count]

/-- A reply that is a failure leaves no room. -/
theorem room_of_fault {reply : Reply} {cause : TransferFault} (hfault : reply.fault? = some cause) :
    (⟨reply :: script, closed⟩ : Sink).room = 0 := by
  simp [room, hfault]

/-- A write that fails at once takes nothing, and was made because there were octets. -/
theorem eq_of_failing {sink : Sink} {octets : List UInt8} {cause : TransferFault}
    (hoctets : octets ≠ []) (hfault : sink.fault? = some cause) (hroom : sink.room = 0) :
    some cause = (if octets.length ≤ sink.room then none else sink.fault?) ∧
      [] = if sink.fault? = none then octets else octets.take sink.room := by
  simp [hfault, hroom, hoctets]

/-- Every write takes what it can of the octets that are left, and the first failure ends it. -/
theorem deliver_eq (closed : Option TransferFault) (script : List Reply) (octets : List UInt8) :
    let sink : Sink := ⟨script, closed⟩
    let delivery := deliver closed script octets
    delivery.failure = (if octets.length ≤ sink.room then none else sink.fault?) ∧
      delivery.written = if sink.fault? = none then octets else octets.take sink.room := by
  fun_induction deliver closed script octets with
  | case1 script => simp
  | case2 octets _ hclosed => simp [fault?, hclosed]
  | case3 octets hoctets cause hclosed => exact eq_of_failing hoctets hclosed rfl
  | case4 script octets _ ih =>
    intro sink
    have hroom : sink.room = (⟨script, closed⟩ : Sink).room := room_interrupt
    rw [hroom]
    exact ih
  | case5 cause script octets hoctets => exact eq_of_failing hoctets rfl (room_of_fault rfl)
  | case6 script octets hoctets => exact eq_of_failing hoctets rfl (room_of_fault rfl)
  | case7 count script octets _ hcount later ih =>
    obtain ⟨hfailure, hwritten⟩ := ih
    dsimp only
    rw [fault?_accept hcount, room_accept hcount]
    constructor
    · rw [hfailure, List.length_drop]
      simp only [Nat.sub_le_iff_le_add, Nat.add_comm count]
    · rw [hwritten]
      split
      · exact List.take_append_drop _ _
      · exact List.take_add.symm

theorem writeAll_eq (sink : Sink) (octets : List UInt8) :
    (sink.writeAll octets).failure = (if octets.length ≤ sink.room then none else sink.fault?) ∧
      (sink.writeAll octets).written =
        if sink.fault? = none then octets else octets.take sink.room :=
  deliver_eq sink.closed sink.script octets

theorem conveys_writeAll (sink : Sink) (octets : List UInt8) :
    sink.Conveys octets (sink.writeAll octets).written (sink.writeAll octets).failure := by
  obtain ⟨hfailure, hwritten⟩ := sink.writeAll_eq octets
  rw [hfailure, hwritten]
  refine ⟨?_, ?_, rfl, ?_⟩
  · split
    · exact List.prefix_refl _
    · exact List.take_prefix _ _
  · cases hfault : sink.fault? with
    | none => simp
    | some cause => simp [List.take_eq_self_iff]
  · intro cause hcause
    split at hcause
    · cases hcause
    · rw [hcause]
      simp

/-- A sink takes octets from the front on, and fails unless it takes all of them. -/
theorem writeAll_written (sink : Sink) (octets : List UInt8) :
    (sink.writeAll octets).written <+: octets ∧
      ((sink.writeAll octets).failure = none → (sink.writeAll octets).written = octets) :=
  have hconveys := sink.conveys_writeAll octets
  ⟨hconveys.front, hconveys.all_iff.mp⟩

theorem fault?_uninterrupted (sink : Sink) : sink.uninterrupted.fault? = sink.fault? := by
  obtain ⟨script, closed⟩ := sink
  have hscript : (script.filter (· ≠ .interrupt)).findSome? Reply.fault? =
      script.findSome? Reply.fault? := by
    induction script with
    | nil => rfl
    | cons reply script ih =>
      cases reply with
      | accept count =>
        rw [List.filter_cons_of_pos (by simp), List.findSome?_cons, List.findSome?_cons, ih]
      | interrupt =>
        rw [List.filter_cons_of_neg (by simp), ih]
        rfl
      | fail cause => rfl
  exact congrArg (Option.or · closed) hscript

theorem room_uninterrupted (sink : Sink) : sink.uninterrupted.room = sink.room := by
  obtain ⟨script, closed⟩ := sink
  induction script with
  | nil => rfl
  | cons reply script ih =>
    unfold room uninterrupted at ih ⊢
    cases reply with
    | accept count => by_cases hcount : count = 0 <;> simp_all [Reply.fault?]
    | interrupt => simp_all [Reply.fault?, Reply.count]
    | fail cause => simp [Reply.fault?]

/-- Interruptions change nothing of what a sink takes, nor of how it fails. -/
theorem writeAll_uninterrupted (sink : Sink) (octets : List UInt8) :
    (sink.uninterrupted.writeAll octets).written = (sink.writeAll octets).written ∧
      (sink.uninterrupted.writeAll octets).failure = (sink.writeAll octets).failure := by
  obtain ⟨hfailure, hwritten⟩ := sink.writeAll_eq octets
  obtain ⟨hfailure', hwritten'⟩ := sink.uninterrupted.writeAll_eq octets
  rw [fault?_uninterrupted, room_uninterrupted] at hfailure' hwritten'
  exact ⟨hwritten'.trans hwritten.symm, hfailure'.trans hfailure.symm⟩

end CountedHeap.Sink
