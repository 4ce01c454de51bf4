import CountedHeap.Proofs.Refusal

/-! Views of a heap that leave out something about the storage of its texts. What an unbounded step
shows through such a view is told by what the view shows of the session before it, so nothing that
is left out has any part in it. -/
namespace CountedHeap

/-- A view of buffers, of the settings for new ones and of the storage that is freed. Contents and the
limit on live values are in view, and what an append or a creation leaves in view does not hang on
anything that is out of view. -/
structure Blur where
  buffer : Text.Buffer → Text.Buffer
  settings : Settings → Settings
  freed : Nat → Nat
  content_buffer : ∀ b, (buffer b).content = b.content
  buffer_buffer : ∀ b, buffer (buffer b) = buffer b
  buffer_append : ∀ b text,
    ((buffer b).append? Allowance.unbounded.storage text).map buffer =
      (b.append? Allowance.unbounded.storage text).map buffer
  freed_capacity : ∀ b, freed (buffer b).capacity = freed b.capacity
  settings_settings : ∀ s, settings (settings s) = settings s
  liveLimit_settings : ∀ s, (settings s).liveLimit = s.liveLimit
  buffer_empty : ∀ s, buffer (.empty (settings s).growth (settings s).initialCapacity) =
    buffer (.empty s.growth s.initialCapacity)

namespace Blur

variable (β : Blur)

def value : Value → Value
  | .integer n => .integer n
  | .text b => .text (β.buffer b)

def entry (e : Entry) : Entry := { e with value := β.value e.value }

def slot (x : Slot) : Slot := { x with entry := x.entry.map β.entry }

def heap (s : Heap) : Heap :=
  { s with slots := s.slots.map β.slot, settings := β.settings s.settings }

def event : Event → Event
  | .textDestroyed h freed => .textDestroyed h (β.freed freed)
  | e => e

def answer : Answer → Answer
  | .buffer b => .buffer (β.buffer b)
  | .replaced old new => .replaced (β.buffer old) new
  | .settings s => .settings (β.settings s)
  | a => a

def session (s : Session) : Session := { s with heap := β.heap s.heap }

/-- A report as the view shows it: handles, errors, counts, texts, what was written, the input left
and the counters are all there. -/
def report (r : Report) : Report :=
  ⟨r.result.map β.answer, r.log.map β.event, r.written, β.session r.session⟩

/-- What an operation on the heap comes to; its result may hold a buffer. -/
def outcome {α : Type} (f : α → α) (o : Outcome α) : Outcome α :=
  ⟨o.result.map f, β.heap o.heap, o.log.map β.event⟩

def assembly (a : Assembly) : Assembly := { a with heap := β.heap a.heap }

def lineOutcome (o : LineOutcome) : LineOutcome :=
  { o with heap := β.heap o.heap, log := o.log.map β.event }

theorem outcome_inj {β : Blur} {α : Type} {a b : Outcome α}
    (h : β.outcome id a = β.outcome id b) :
    a.result = b.result ∧ β.heap a.heap = β.heap b.heap ∧
      a.log.map β.event = b.log.map β.event := by
  simpa [outcome, Except.map_id] using h

/-! What the view shows is all that it depends on. -/

@[simp] theorem value_value (v : Value) : β.value (β.value v) = β.value v := by
  cases v with
  | integer n => rfl
  | text b => exact congrArg Value.text (β.buffer_buffer b)

@[simp] theorem view_value (v : Value) : (β.value v).view = v.view := by
  cases v with
  | integer n => rfl
  | text b => exact congrArg View.text (β.content_buffer b)

@[simp] theorem kind_value (v : Value) : (β.value v).kind = v.kind := by
  cases v <;> rfl

@[simp] theorem entry_entry (e : Entry) : β.entry (β.entry e) = β.entry e := by
  simp [entry]

@[simp] theorem slot_slot (x : Slot) : β.slot (β.slot x) = β.slot x := by
  simp [slot, Function.comp_def]

@[simp] theorem heap_heap (s : Heap) : β.heap (β.heap s) = β.heap s := by
  simp [heap, Function.comp_def, β.settings_settings]

/-- An operation that shows the same of a heap as of what is seen of it shows the same of any two
heaps that look alike. -/
theorem congr_of_comm {γ : Type} {F : Heap → γ} (hcomm : ∀ s, F s = F (β.heap s)) {s t : Heap}
    (hst : β.heap s = β.heap t) : F s = F t := by
  rw [hcomm s, hst, ← hcomm t]

variable (s : Heap)

theorem free_heap : (β.heap s).free = s.free := rfl

@[simp] theorem length_heap : (β.heap s).slots.length = s.slots.length := by simp [heap]

/-! Looking values up. -/

theorem find?_heap (h : Handle) : (β.heap s).find? h = (s.find? h).map β.entry := by
  unfold Heap.find? heap
  simp only [List.getElem?_map]
  cases s.slots[h.index]? with
  | none => rfl
  | some x =>
    by_cases hg : x.generation = h.generation
    · simp [slot, hg]
    · simp [slot, hg]

@[simp] theorem isLive_heap (h : Handle) : (β.heap s).isLive h = s.isLive h := by
  simp [Heap.isLive, find?_heap]

theorem entry_heap (h : Handle) : (β.heap s).entry h = (s.entry h).map β.entry := by
  unfold Heap.entry
  rw [find?_heap]
  cases s.find? h <;> rfl

@[simp] theorem refcount_heap (h : Handle) : (β.heap s).refcount h = s.refcount h := by
  rw [Heap.refcount, Heap.refcount, entry_heap]
  cases s.entry h <;> rfl

@[simp] theorem kind_heap (h : Handle) : (β.heap s).kind h = s.kind h := by
  rw [Heap.kind, Heap.kind, entry_heap]
  cases s.entry h with
  | error fault => rfl
  | ok e => exact congrArg Except.ok (β.kind_value e.value)

@[simp] theorem read_heap (h : Handle) : (β.heap s).read h = s.read h := by
  rw [Heap.read, Heap.read, entry_heap]
  cases s.entry h with
  | error fault => rfl
  | ok e => exact congrArg Except.ok (β.view_value e.value)

theorem buffer_heap (h : Handle) : (β.heap s).buffer h = (s.buffer h).map β.buffer := by
  unfold Heap.buffer
  rw [find?_heap]
  cases s.find? h with
  | none => rfl
  | some e =>
    obtain ⟨n, v⟩ := e
    cases v <;> rfl

@[simp] theorem display_heap (h : Handle) (template : List Char) :
    (β.heap s).display h template = s.display h template := by
  rw [Heap.display, read_heap]
  rfl

@[simp] theorem showTo_heap (h : Handle) (template : List Char) (sink : Sink) :
    (β.heap s).showTo h template sink = s.showTo h template sink := by
  rw [Heap.showTo, Heap.showBy, display_heap]
  rfl

/-! Changing slots. -/

theorem map_slot_modify {f g : Slot → Slot} (hfg : ∀ x, β.slot (f x) = g (β.slot x))
    (slots : List Slot) (i : Nat) :
    (slots.modify i f).map β.slot = (slots.map β.slot).modify i g := by
  apply List.ext_getElem?
  intro j
  simp only [List.getElem?_map, List.getElem?_modify]
  cases slots[j]? with
  | none => rfl
  | some x =>
    by_cases hij : i = j
    · simp [hij, hfg]
    · simp [hij]

theorem heap_put (h : Handle) (e : Entry) : β.heap (s.put h e) = (β.heap s).put h (β.entry e) := by
  unfold heap Heap.put
  rw [β.map_slot_modify (g := fun x => { x with entry := some (β.entry e) }) (fun _ => rfl)]

theorem heap_vacate (h : Handle) : β.heap (s.vacate h) = (β.heap s).vacate h := by
  unfold heap Heap.vacate
  rw [β.map_slot_modify (g := fun _ => Heap.vacant h) (fun _ => rfl)]

theorem heap_occupy (index : Nat) (free : List Nat) (v : Value) :
    β.heap (s.occupy index free v) = (β.heap s).occupy index free (β.value v) := by
  unfold heap Heap.occupy
  rw [β.map_slot_modify (g := fun x => { x with entry := some ⟨1, β.value v⟩ }) (fun _ => rfl)]

theorem heap_extend (v : Value) : β.heap (s.extend v) = (β.heap s).extend (β.value v) := by
  simp [heap, Heap.extend, Heap.grownRoom, slot, entry]

@[simp] theorem farewell_value (h : Handle) (v : Value) :
    (Heap.farewell h (β.value v)).map β.event = (Heap.farewell h v).map β.event := by
  have hdestroyed : β.event (.destroyed h (β.value v)) = β.event (.destroyed h v) := by
    cases v with
    | integer n => rfl
    | text b => exact congrArg (Event.textDestroyed h) (β.freed_capacity b)
  unfold Heap.farewell
  split <;> simp [hdestroyed]

/-! Operations. -/

theorem outcome_refuse {α : Type} (f : α → α) (fault : Fault) :
    β.outcome f (s.refuse fault) = β.outcome f ((β.heap s).refuse fault) := by
  simp [outcome, Heap.refuse, Except.map]

@[simp] theorem atLiveLimit_heap : (β.heap s).atLiveLimit = s.atLiveLimit := by
  unfold Heap.atLiveLimit heap
  rw [β.liveLimit_settings]

@[simp] theorem nextHandle_heap : (β.heap s).nextHandle = s.nextHandle := by
  unfold Heap.nextHandle Heap.generation heap
  cases s.free with
  | nil => simp
  | cons index free =>
    simp only [List.getElem?_map]
    cases s.slots[index]? <;> rfl

theorem outcome_insert (v : Value) :
    β.outcome id (s.insert .unbounded v) =
      β.outcome id ((β.heap s).insert .unbounded (β.value v)) := by
  unfold Heap.insert
  rw [atLiveLimit_heap, nextHandle_heap, kind_value, length_heap, free_heap]
  by_cases hlimit : s.atLiveLimit = true
  · simp only [if_pos hlimit]
    exact β.outcome_refuse s id _
  · simp only [if_neg hlimit]
    cases s.free with
    | cons index free => simp [outcome, heap_occupy]
    | nil =>
      by_cases hlength : Heap.maxSlots ≤ s.slots.length
      · simp only [if_pos hlength]
        exact β.outcome_refuse s id _
      · simp [if_neg hlength, outcome, heap_extend, Allowance.unbounded]

theorem outcome_createText :
    β.outcome id (s.createText .unbounded) = β.outcome id ((β.heap s).createText .unbounded) := by
  change β.outcome id (s.insert _ (.text (.empty s.settings.growth s.settings.initialCapacity))) =
    β.outcome id ((β.heap s).insert _ (.text (.empty (β.settings s.settings).growth
      (β.settings s.settings).initialCapacity)))
  rw [β.outcome_insert s, β.outcome_insert (β.heap s) (.text _), heap_heap]
  simp only [value, β.buffer_empty]

theorem outcome_retain (h : Handle) :
    β.outcome id (s.retain h) = β.outcome id ((β.heap s).retain h) := by
  unfold Heap.retain
  rw [find?_heap]
  cases s.find? h with
  | none => simp [outcome]
  | some e =>
    by_cases hlt : e.refcount < Heap.maxRefcount
    · simp [outcome, heap_put, hlt, entry]
    · simp only [Option.map_some, entry, if_neg hlt]
      exact β.outcome_refuse s id _

theorem outcome_release (h : Handle) :
    β.outcome id (s.release h) = β.outcome id ((β.heap s).release h) := by
  unfold Heap.release
  rw [find?_heap]
  cases s.find? h with
  | none => simp [outcome]
  | some e =>
    by_cases hlt : 1 < e.refcount
    · simp [outcome, heap_put, hlt, entry]
    · simp [outcome, heap_vacate, hlt, entry]

theorem heap_setBuffer (h : Handle) (b : Text.Buffer) :
    β.heap (s.setBuffer h b) = (β.heap s).setBuffer h (β.buffer b) := by
  unfold Heap.setBuffer
  rw [find?_heap]
  cases s.find? h with
  | none => rfl
  | some e => exact β.heap_put s h _

theorem outcome_replaceBuffer (h : Handle) (b : Text.Buffer) :
    β.outcome β.buffer (s.replaceBuffer h b) =
      β.outcome β.buffer ((β.heap s).replaceBuffer h b) := by
  unfold Heap.replaceBuffer
  rw [buffer_heap]
  cases s.buffer h with
  | error fault => exact β.outcome_refuse s _ fault
  | ok old => simp [outcome, Except.map, heap_setBuffer, β.buffer_buffer]

theorem outcome_append (h : Handle) (text : List Char) :
    β.outcome id (s.append .unbounded h text) =
      β.outcome id ((β.heap s).append .unbounded h text) := by
  unfold Heap.append
  rw [buffer_heap]
  cases s.buffer h with
  | error fault => exact β.outcome_refuse s _ fault
  | ok old =>
    obtain ⟨new, hnew, -⟩ := old.append?_unbounded text
    obtain ⟨seen, hseen, -⟩ := (β.buffer old).append?_unbounded text
    have happend := β.buffer_append old text
    rw [hnew, hseen] at happend
    simp [outcome, Except.map, hnew, hseen, heap_setBuffer, Option.some.inj happend]

theorem outcome_appendFrom (h source : Handle) :
    β.outcome id (s.appendFrom .unbounded h source) =
      β.outcome id ((β.heap s).appendFrom .unbounded h source) := by
  unfold Heap.appendFrom
  rw [read_heap]
  cases s.read source with
  | error fault => exact β.outcome_refuse s _ fault
  | ok view => exact β.outcome_append s h view.display

/-! Lines. -/

theorem assembly_assemble (line : Handle) (input : List Arrival) (p : Progress) :
    β.assembly (s.assemble .unbounded line p input) =
      β.assembly ((β.heap s).assemble .unbounded line p input) := by
  induction input generalizing s p with
  | nil => simp [Heap.assemble, Heap.finishLine, assembly]
  | cons arrival rest ih =>
    cases arrival with
    | interruption => exact ih s p
    | failure cause => simp [Heap.assemble, assembly]
    | octet b =>
      rw [Heap.assemble, Heap.assemble]
      split
      · simp [Heap.finishLine, assembly]
      · dsimp only
        cases Text.Decoder.read (p.gathered ++ [b]) with
        | incomplete => exact ih s _
        | invalid => simp [assembly]
        | complete c =>
          obtain ⟨hresult, hheap, -⟩ := outcome_inj (β.outcome_append s line [c])
          dsimp only
          rw [hresult]
          cases ((β.heap s).append .unbounded line [c]).result with
          | error fault => simp [assembly, hheap]
          | ok done =>
            -- What the appends leave need only look alike, so the hypothesis is used on both heaps.
            exact β.congr_of_comm (F := fun t => β.assembly (t.assemble .unbounded line _ rest))
              (fun t => ih t _) hheap

theorem lineOutcome_readLine (input : List Arrival) :
    β.lineOutcome (s.readLine .unbounded input) =
      β.lineOutcome ((β.heap s).readLine .unbounded input) := by
  obtain ⟨hresult, hheap, hlog⟩ := outcome_inj (β.outcome_createText s)
  rw [Heap.readLine, Heap.readLine, hresult]
  cases ((β.heap s).createText .unbounded).result with
  | error fault => simp [lineOutcome, hheap, hlog]
  | ok line =>
    have hassembly := β.congr_of_comm
      (F := fun t => β.assembly (t.assemble .unbounded line ⟨[], 0⟩ input))
      (fun t => β.assembly_assemble t line input _) hheap
    simp only [assembly, Assembly.mk.injEq] at hassembly
    obtain ⟨hassembled, hwritten, hrest⟩ := hassembly
    have hread := β.congr_of_comm (F := fun t => t.read line)
      (fun t => (β.read_heap t line).symm) hwritten
    obtain ⟨hreleased, hended, hfarewell⟩ := outcome_inj (β.congr_of_comm
      (F := fun t => β.outcome id (t.release line)) (fun t => β.outcome_release t line) hwritten)
    simp only [lineOutcome, List.map_append, hassembled, hrest, hread, hreleased, hended, hlog,
      hfarewell]

/-! Steps. -/

omit s

variable (s : Session)

@[simp] theorem session_session : β.session (β.session s) = β.session s := by
  simp [session]

theorem report_observe {seen other : Except Fault Answer}
    (hresult : seen.map β.answer = other.map β.answer) :
    β.report (s.observe seen) = β.report ((β.session s).observe other) := by
  simp [report, Session.observe, hresult]

theorem report_change {α : Type} {f : α → α} {answer : α → Answer} {o other : Outcome α}
    (hanswer : ∀ a, β.answer (answer (f a)) = β.answer (answer a))
    (houtcome : β.outcome f o = β.outcome f other) :
    β.report (s.change o answer) = β.report ((β.session s).change other answer) := by
  simp only [outcome, Outcome.mk.injEq] at houtcome
  obtain ⟨hresult, hheap, hlog⟩ := houtcome
  have hseen : ∀ r : Except Fault α,
      (r.map answer).map β.answer = (r.map f).map (β.answer ∘ answer) := by
    intro r
    cases r with
    | error fault => rfl
    | ok a => exact congrArg Except.ok (hanswer a).symm
  simp [report, Session.change, session, hseen, hresult, hheap, hlog]

theorem report_replace (h : Handle) (growth : Text.Growth) (capacity : Nat) :
    β.report (s.replace .unbounded h growth capacity) =
      β.report ((β.session s).replace .unbounded h growth capacity) := by
  have hbuffer : (β.session s).heap.buffer h = _ := β.buffer_heap s.heap h
  unfold Session.replace
  rw [hbuffer]
  cases s.heap.buffer h with
  | error fault => exact β.report_observe s rfl
  | ok old =>
    refine β.report_change s (f := β.buffer) (fun b => ?_) (β.outcome_replaceBuffer s.heap h _)
    exact congrArg (Answer.replaced · _) (β.buffer_buffer b)

/-- What an unbounded step shows is told by what is seen of the session before it. -/
theorem report_step (operation : Operation) :
    β.report (s.step .unbounded operation) =
      β.report ((β.session s).step .unbounded operation) := by
  cases operation with
  | createInteger n =>
    exact β.report_change s (fun _ => rfl) (β.outcome_insert s.heap (.integer n))
  | createText => exact β.report_change s (fun _ => rfl) (β.outcome_createText s.heap)
  | retain h => exact β.report_change s (fun _ => rfl) (β.outcome_retain s.heap h)
  | release h => exact β.report_change s (fun _ => rfl) (β.outcome_release s.heap h)
  | append h text => exact β.report_change s (fun _ => rfl) (β.outcome_append s.heap h text)
  | appendFrom h source =>
    exact β.report_change s (fun _ => rfl) (β.outcome_appendFrom s.heap h source)
  | replaceBuffer h growth capacity => exact β.report_replace s h growth capacity
  | overwrite h buffer =>
    refine β.report_change s (f := β.buffer) (fun b => ?_) (β.outcome_replaceBuffer s.heap h buffer)
    exact congrArg Answer.buffer (β.buffer_buffer b)
  | refcount h => exact β.report_observe s (by rw [session, refcount_heap])
  | kind h => exact β.report_observe s (by rw [session, kind_heap])
  | isLive h => exact β.report_observe s (by rw [session, isLive_heap])
  | read h => exact β.report_observe s (by rw [session, read_heap])
  | buffer h =>
    refine β.report_observe s ?_
    rw [session, buffer_heap]
    cases s.heap.buffer h with
    | error fault => rfl
    | ok b => exact congrArg (Except.ok ∘ Answer.buffer) (β.buffer_buffer b).symm
  | display h template => exact β.report_observe s (by rw [session, display_heap])
  | showTo h template sink => simp [Session.step, report, session]
  | supply input => simp [Session.step, report, session]
  | readLine =>
    have hline := β.lineOutcome_readLine s.heap s.input
    simp only [lineOutcome, LineOutcome.mk.injEq] at hline
    obtain ⟨hresult, hheap, hlog, hrest⟩ := hline
    simp [Session.step, report, session, hresult, hheap, hlog, hrest]
  | settings =>
    refine β.report_observe s ?_
    exact congrArg (Except.ok ∘ Answer.settings) (β.settings_settings s.heap.settings).symm
  | counters => exact β.report_observe s rfl
  | compare a b => exact β.report_observe s rfl
  | compareViews a b => exact β.report_observe s (by rw [session, read_heap, read_heap])

end Blur

end CountedHeap
