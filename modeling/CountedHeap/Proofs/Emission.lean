import CountedHeap.Proofs.History
import CountedHeap.Proofs.WriteLoop
import CountedHeap.Template.Emit

/-! Renderings that are written to a sink, straight from their arguments or from a live value. What
the sink has taken is the beginning of the rendering, and all of it exactly if no failure is told. -/
namespace CountedHeap

open Text

namespace Heap

variable {s : Heap} {h : Handle}

theorem display_of_live {e : Entry} (hfind : s.find? h = some e) (template : List Char) :
    s.display h template = .ok (Template.render template [e.value.view.display]) := by
  rw [display, read, entry, hfind]
  rfl

theorem display_of_stale (hfind : s.find? h = none) (template : List Char) :
    s.display h template = .error (.staleHandle h) := by
  rw [display, read, entry, hfind]
  rfl

/-- Of a stale handle nothing is shown, and no write is made. -/
theorem showBy_of_stale (hfind : s.find? h = none) (template : List Char)
    (write : List UInt8 → Delivery) :
    s.showBy h template write = ⟨.error (.staleHandle h), []⟩ := by
  rw [showBy, display_of_stale hfind]

/-- A live value is shown, and the only failure is one of the writing. -/
theorem showBy_of_live {e : Entry} (hfind : s.find? h = some e) (template : List Char)
    (write : List UInt8 → Delivery) :
    let delivery := write (octets (Template.render template [e.value.view.display]))
    s.showBy h template write =
      ⟨delivery.failure.elim (.ok ()) fun cause => .error (.transfer cause), delivery.written⟩ := by
  intro delivery
  rw [showBy, display_of_live hfind]
  dsimp only
  split
  · next hnone =>
    have hfailure : delivery.failure = none := hnone
    rw [hfailure]
    rfl
  · next cause hsome =>
    have hfailure : delivery.failure = some cause := hsome
    rw [hfailure]
    rfl

theorem showTo_of_live {e : Entry} (hfind : s.find? h = some e) (template : List Char)
    (sink : Sink) :
    let delivery := Template.emit template [e.value.view.display] sink
    s.showTo h template sink =
      ⟨delivery.failure.elim (.ok ()) fun cause => .error (.transfer cause), delivery.written⟩ :=
  showBy_of_live hfind template sink.writeAll

/-- Interruptions of the sink do not show. -/
theorem showTo_uninterrupted (s : Heap) (h : Handle) (template : List Char) (sink : Sink) :
    s.showTo h template sink.uninterrupted = s.showTo h template sink := by
  cases hfind : s.find? h with
  | none => rw [showTo, showTo, showBy_of_stale hfind, showBy_of_stale hfind]
  | some e =>
    obtain ⟨hwritten, hfailure⟩ :=
      sink.writeAll_uninterrupted (octets (Template.render template [e.value.view.display]))
    rw [showTo_of_live hfind, showTo_of_live hfind]
    simp only [Template.emit, hwritten, hfailure]

end Heap

/-- To emit a template writes the beginning of its rendering, and all of it unless it fails; it fails
if the sink does before it has taken all, with the sink's first failure. Interruptions do not count.
To show a live value does the same with what it displays, and to show a stale handle writes nothing.
Neither a display nor a showing changes the heap. -/
theorem emission_law (sink : Sink) (template : List Char) :
    (∀ arguments,
      let delivery := Template.emit template arguments sink
      let calm := Template.emit template arguments sink.uninterrupted
      sink.Conveys (octets (Template.render template arguments)) delivery.written
        delivery.failure ∧
      calm.written = delivery.written ∧ calm.failure = delivery.failure) ∧
    ∀ (s : Heap) (h : Handle),
      let showing := s.showTo h template sink
      (∀ e, s.find? h = some e →
        s.display h template = .ok (Template.render template [e.value.view.display]) ∧
        ∃ failure,
          sink.Conveys (octets (Template.render template [e.value.view.display])) showing.written
            failure ∧
          showing.result = failure.elim (.ok ()) fun cause => .error (.transfer cause)) ∧
      (s.find? h = none → s.display h template = .error (.staleHandle h) ∧
        showing.result = .error (.staleHandle h) ∧ showing.written = []) ∧
      s.showTo h template sink.uninterrupted = showing ∧
      ∀ (input : List Arrival) (allowance : Allowance),
        (Session.step ⟨s, input⟩ allowance (.showTo h template sink)).session = ⟨s, input⟩ ∧
        (Session.step ⟨s, input⟩ allowance (.display h template)).session = ⟨s, input⟩ := by
  constructor
  · intro arguments delivery calm
    exact ⟨sink.conveys_writeAll _, sink.writeAll_uninterrupted _⟩
  · intro s h showing
    refine ⟨fun e hfind => ?_, fun hfind => ?_, s.showTo_uninterrupted h template sink,
      fun input allowance => ⟨rfl, rfl⟩⟩
    · have hshowing : showing = _ := Heap.showTo_of_live hfind template sink
      rw [hshowing]
      exact ⟨Heap.display_of_live hfind template, _, sink.conveys_writeAll _, rfl⟩
    · have hshowing : showing = _ := Heap.showBy_of_stale hfind template sink.writeAll
      rw [hshowing]
      exact ⟨Heap.display_of_stale hfind template, rfl, rfl⟩

/-- A sink that takes three octets in two writes, is interrupted, and then breaks: of five octets it
takes three, of three it takes all, and of none it is not asked. -/
theorem emission_of_breaking :
    let sink : Sink := ⟨[.accept 1, .interrupt, .accept 2, .fail .brokenPipe, .accept 9], none⟩
    let s := ((Session.ofSettings .standard).leave [(.ample, .createInteger (-42))]).heap
    let template := ['\x7b', '\x7d']
    (Template.emit ['é', '\x7b', '\x7d'] [['a', 'b', 'c']] sink).failure = some .brokenPipe ∧
      (s.showTo ⟨0, 0⟩ template sink).result = .ok () ∧
      (s.showTo ⟨0, 0⟩ template sink).written = octets ['-', '4', '2'] ∧
      (s.showTo ⟨0, 1⟩ template sink).result = .error (.staleHandle ⟨0, 1⟩) ∧
      (Template.emit [] [] sink).failure = none := by
  intro sink s template
  have hfind : s.find? ⟨0, 0⟩ = some ⟨1, .integer (-42)⟩ := by rfl
  have hstale : s.find? ⟨0, 1⟩ = none := by rfl
  obtain ⟨hemit, -⟩ := emission_law sink ['é', '\x7b', '\x7d']
  obtain ⟨hnothing, -⟩ := emission_law sink []
  obtain ⟨-, hshow⟩ := emission_law sink template
  obtain ⟨hlive, hnone, -⟩ := hshow s ⟨0, 0⟩
  obtain ⟨-, failure, hconveys, hresult⟩ := hlive _ hfind
  have hfailure : failure = none := hconveys.failure_eq.trans (by decide)
  refine ⟨(hemit _).1.failure_eq.trans (by decide), ?_, ?_, ?_, ?_⟩
  · rw [hresult, hfailure]
    rfl
  · exact hconveys.all_iff.mp hfailure
  · exact ((hshow s ⟨0, 1⟩).2.1 hstale).2.1
  · exact (hnothing []).1.failure_eq.trans (by decide)

end CountedHeap
