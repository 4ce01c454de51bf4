import CountedHeap.Heap.Line
import CountedHeap.Proofs.Change

/-! What each operation of a heap comes to: it fails and leaves the heap as it was, or it makes one
elementary change. A line that is read makes three, all of them about its temporary text. -/
namespace CountedHeap.Heap

/-! Creation. -/

theorem insert_cases (s : Heap) (allowance : Allowance) (value : Value) :
    (Changes s (.create s.nextHandle value) (s.insert allowance value).heap ∧
      (s.insert allowance value).result = .ok s.nextHandle) ∨
    ∃ shortage, s.insert allowance value = s.refuse (.allocation shortage) := by
  unfold insert
  by_cases hlimit : s.atLiveLimit = true
  · rw [if_pos hlimit]
    exact .inr ⟨_, rfl⟩
  · have hroom : s.atLiveLimit = false := Bool.eq_false_iff.mpr hlimit
    rw [if_neg hlimit]
    split
    · next index free hfree => exact .inl ⟨.reuse value hroom hfree, rfl⟩
    · next hfree =>
      by_cases hlength : maxSlots ≤ s.slots.length
      · rw [if_pos hlength]
        exact .inr ⟨_, rfl⟩
      · rw [if_neg hlength]
        split
        · exact .inl ⟨.extend value hroom hfree (Nat.lt_of_not_le hlength), rfl⟩
        · exact .inr ⟨_, rfl⟩

theorem content_ofCapacity? {grant : Nat → Bool} {growth : Text.Growth} {capacity : Nat}
    {buffer : Text.Buffer} (h : Text.Buffer.ofCapacity? grant growth capacity = some buffer) :
    buffer.content = [] := by
  rw [Text.Buffer.ofCapacity?_eq_some h]
  rfl

theorem createText_cases (s : Heap) (allowance : Allowance) :
    (∃ buffer, buffer.content = [] ∧
      Changes s (.create s.nextHandle (.text buffer)) (s.createText allowance).heap ∧
      (s.createText allowance).result = .ok s.nextHandle) ∨
    ∃ shortage, s.createText allowance = s.refuse (.allocation shortage) := by
  unfold createText
  split
  · next buffer hbuffer =>
    obtain hcreated | hrefused := s.insert_cases allowance (.text buffer)
    · exact .inl ⟨buffer, content_ofCapacity? hbuffer, hcreated⟩
    · exact .inr hrefused
  · exact .inr ⟨_, rfl⟩

/-- A text that is created is empty, with room as the settings wish it. -/
theorem createText_created {s : Heap} {allowance : Allowance} {h : Handle}
    (hcreated : (s.createText allowance).result = .ok h) :
    ∃ b, Text.Buffer.ofCapacity? allowance.storage s.settings.growth
        s.settings.initialCapacity = some b ∧
      Changes s (.create h (.text b)) (s.createText allowance).heap := by
  unfold createText at hcreated ⊢
  split at hcreated
  · next b hb =>
    refine ⟨b, hb, ?_⟩
    obtain ⟨hc, hresult⟩ | ⟨shortage, hrefused⟩ := s.insert_cases allowance (.text b)
    · cases hresult.symm.trans hcreated
      exact hc
    · rw [hrefused] at hcreated
      cases hcreated
  · cases hcreated

/-! Ownership. -/

theorem retain_cases (s : Heap) (h : Handle) :
    (∃ e, Changes s (.retain h) (s.retain h).heap ∧ s.find? h = some e ∧
      (s.retain h).result = .ok (e.refcount + 1)) ∨
    ∃ fault, (s.retain h).result = .error fault ∧ (s.retain h).heap = s := by
  unfold retain
  cases hfind : s.find? h with
  | none => exact .inr ⟨_, rfl, rfl⟩
  | some e =>
    dsimp only
    by_cases hlt : e.refcount < maxRefcount
    · rw [if_pos hlt]
      exact .inl ⟨e, .retain hfind hlt, rfl, rfl⟩
    · rw [if_neg hlt]
      exact .inr ⟨_, rfl, rfl⟩

/-- The entry of a live handle decides what a release comes to. -/
theorem release_cases (s : Heap) (h : Handle) :
    (∃ e, Changes s (.release h) (s.release h).heap ∧ s.find? h = some e ∧ 1 < e.refcount ∧
      (s.release h).result = .ok (.retained (e.refcount - 1))) ∨
    (∃ e, Changes s (.destroy h) (s.release h).heap ∧ s.find? h = some e ∧ e.refcount ≤ 1 ∧
      (s.release h).result = .ok (.destroyed e.value.kind)) ∨
    (s.find? h = none ∧ (s.release h).result = .error (.staleHandle h) ∧
      (s.release h).heap = s) := by
  unfold release
  cases hfind : s.find? h with
  | none => exact .inr (.inr ⟨rfl, rfl, rfl⟩)
  | some e =>
    dsimp only
    by_cases hlt : 1 < e.refcount
    · rw [if_pos hlt]
      exact .inl ⟨e, .release hfind hlt, rfl, hlt, rfl⟩
    · rw [if_neg hlt]
      exact .inr (.inl ⟨e, .destroy hfind (Nat.le_of_not_lt hlt), rfl, Nat.le_of_not_lt hlt, rfl⟩)

theorem release_of_shared {s : Heap} {h : Handle} {e : Entry} (hfind : s.find? h = some e)
    (hshared : 1 < e.refcount) :
    s.release h = ⟨.ok (.retained (e.refcount - 1)), s.put h { e with refcount := e.refcount - 1 },
      [.released h (e.refcount - 1)]⟩ := by
  rw [release, hfind]
  exact if_pos hshared

theorem release_of_last {s : Heap} {h : Handle} {e : Entry} (hfind : s.find? h = some e)
    (hlast : ¬1 < e.refcount) :
    s.release h = ⟨.ok (.destroyed e.value.kind), s.vacate h, farewell h e.value⟩ := by
  rw [release, hfind]
  exact if_neg hlast

theorem retain_of_room {s : Heap} {h : Handle} {e : Entry} (hfind : s.find? h = some e)
    (hroom : e.refcount < maxRefcount) :
    s.retain h = ⟨.ok (e.refcount + 1), s.put h { e with refcount := e.refcount + 1 },
      [.retained h (e.refcount + 1)]⟩ := by
  rw [retain, hfind]
  exact if_pos hroom

/-! Content. -/

theorem buffer_eq_ok_iff {s : Heap} {h : Handle} {b : Text.Buffer} :
    s.buffer h = .ok b ↔ ∃ n, s.find? h = some ⟨n, .text b⟩ := by
  unfold buffer
  cases s.find? h with
  | none => simp
  | some e =>
    obtain ⟨n, value⟩ := e
    cases value <;> simp

theorem setBuffer_eq {s : Heap} {h : Handle} {n : Nat} {old : Text.Buffer} (buffer : Text.Buffer)
    (hfind : s.find? h = some ⟨n, .text old⟩) :
    s.setBuffer h buffer = s.put h ⟨n, .text buffer⟩ := by
  rw [setBuffer, hfind]

theorem replaceBuffer_cases (s : Heap) (h : Handle) (buffer : Text.Buffer) :
    (∃ old, Changes s (.write h buffer) (s.replaceBuffer h buffer).heap ∧
      (s.replaceBuffer h buffer).result = .ok old) ∨
    ∃ fault, s.replaceBuffer h buffer = s.refuse fault := by
  unfold replaceBuffer
  cases hbuffer : s.buffer h with
  | error fault => exact .inr ⟨fault, rfl⟩
  | ok old =>
    obtain ⟨n, hfind⟩ := buffer_eq_ok_iff.mp hbuffer
    refine .inl ⟨old, ?_, rfl⟩
    rw [setBuffer_eq buffer hfind]
    exact .write buffer hfind

/-- An append to a live text succeeds or not as it does to the buffer. -/
theorem append_of_find? {s : Heap} {h : Handle} {n : Nat} {old : Text.Buffer}
    (allowance : Allowance) (text : List Char) (hfind : s.find? h = some ⟨n, .text old⟩) :
    s.append allowance h text =
      match old.append? allowance.storage text with
      | some buffer => ⟨.ok (), s.put h ⟨n, .text buffer⟩, []⟩
      | none => s.refuse (.allocation .moreText) := by
  rw [append, buffer_eq_ok_iff.mpr ⟨n, hfind⟩]
  dsimp only
  cases old.append? allowance.storage text with
  | none => rfl
  | some buffer =>
    dsimp only
    rw [setBuffer_eq buffer hfind]

theorem append_cases (s : Heap) (allowance : Allowance) (h : Handle) (text : List Char) :
    (∃ buffer, Changes s (.write h buffer) (s.append allowance h text).heap ∧
      (s.append allowance h text).result = .ok ()) ∨
    ∃ fault, s.append allowance h text = s.refuse fault := by
  cases hbuffer : s.buffer h with
  | error fault =>
    right
    rw [append, hbuffer]
    exact ⟨fault, rfl⟩
  | ok old =>
    obtain ⟨n, hfind⟩ := buffer_eq_ok_iff.mp hbuffer
    rw [append_of_find? allowance text hfind]
    cases old.append? allowance.storage text with
    | none => exact .inr ⟨_, rfl⟩
    | some buffer => exact .inl ⟨buffer, .write buffer hfind, rfl⟩

theorem appendFrom_cases (s : Heap) (allowance : Allowance) (h source : Handle) :
    (∃ buffer, Changes s (.write h buffer) (s.appendFrom allowance h source).heap ∧
      (s.appendFrom allowance h source).result = .ok ()) ∨
    ∃ fault, s.appendFrom allowance h source = s.refuse fault := by
  unfold appendFrom
  cases s.read source with
  | error fault => exact .inr ⟨fault, rfl⟩
  | ok view => exact s.append_cases allowance h view.display

/-! Lines. -/

theorem put_put (s : Heap) (h : Handle) (first second : Entry) :
    (s.put h first).put h second = s.put h second := by
  simp only [put, List.modify_modify_eq]
  rfl

theorem vacate_put (s : Heap) (h : Handle) (e : Entry) : (s.put h e).vacate h = s.vacate h := by
  simp only [vacate, put, List.modify_modify_eq]
  rfl

theorem put_self {s : Heap} {h : Handle} {e : Entry} (hfind : s.find? h = some e) :
    s.put h e = s := by
  have hslots : (s.put h e).slots = s.slots := by
    apply List.ext_getElem?
    intro i
    rw [getElem?_put]
    split
    · next hi =>
      rw [← hi, find?_eq_some_iff.mp hfind]
      rfl
    · rfl
  exact congrArg (fun slots => { s with slots := slots }) hslots

theorem find?_put {s : Heap} {h : Handle} {old : Entry} (e : Entry) (hfind : s.find? h = some old) :
    (s.put h e).find? h = some e :=
  find?_put_same s h e (by rw [hfind]; rfl)

/-- Assembling a line changes nothing but the text of the line. -/
theorem assemble_heap (allowance : Allowance) {line : Handle} {n : Nat} (input : List Arrival)
    {s : Heap} {old : Text.Buffer} (p : Progress) (hfind : s.find? line = some ⟨n, .text old⟩) :
    ∃ new, (s.assemble allowance line p input).heap = s.put line ⟨n, .text new⟩ := by
  induction input generalizing s old p with
  | nil => exact ⟨old, (put_self hfind).symm⟩
  | cons arrival rest ih =>
    cases arrival with
    | interruption => exact ih p hfind
    | failure cause => exact ⟨old, (put_self hfind).symm⟩
    | octet b =>
      rw [assemble]
      split
      · exact ⟨old, (put_self hfind).symm⟩
      · dsimp only
        split
        · exact ih _ hfind
        · exact ⟨old, (put_self hfind).symm⟩
        · next c _ =>
          rw [append_of_find? allowance [c] hfind]
          cases old.append? allowance.storage [c] with
          | none => exact ⟨old, (put_self hfind).symm⟩
          | some buffer =>
            obtain ⟨new, hnew⟩ := ih ⟨[], _⟩ (find?_put ⟨n, .text buffer⟩ hfind)
            exact ⟨new, by rw [← put_put s line ⟨n, .text buffer⟩]; exact hnew⟩

/-- The assembly of a line, under the handle of the temporary text that is created for it. -/
def assembleLine (s : Heap) (allowance : Allowance) (line : Handle) (input : List Arrival) :
    Assembly :=
  (s.createText allowance).heap.assemble allowance line ⟨[], 0⟩ input

/-- What a heap goes through while a line is read under a temporary text: the text is created,
written and destroyed, and the outcome is that of the assembly. -/
structure LineRun (s : Heap) (allowance : Allowance) (input : List Arrival) (line : Handle)
    (old new : Text.Buffer) : Prop where
  empty : old.content = []
  created : Changes s (.create line (.text old)) (s.createText allowance).heap
  written : Changes (s.createText allowance).heap (.write line new)
    (s.assembleLine allowance line input).heap
  destroyed : Changes (s.assembleLine allowance line input).heap (.destroy line)
    (s.readLine allowance input).heap
  assembled : (s.assembleLine allowance line input).heap =
    (s.createText allowance).heap.put line ⟨1, .text new⟩
  released : (s.assembleLine allowance line input).heap.release line =
    ⟨.ok (.destroyed .text), (s.readLine allowance input).heap, farewell line (.text new)⟩
  heap : (s.readLine allowance input).heap = (s.assembleLine allowance line input).heap.vacate line
  result : (s.readLine allowance input).result =
    (s.assembleLine allowance line input).result.map fun _ => new.content
  rest : (s.readLine allowance input).rest = (s.assembleLine allowance line input).rest

theorem LineRun.path {s : Heap} {allowance : Allowance} {input : List Arrival} {line : Handle}
    {old new : Text.Buffer} (hrun : LineRun s allowance input line old new) :
    Path s [.create line (.text old), .write line new, .destroy line]
      (s.readLine allowance input).heap :=
  .cons hrun.created (.cons hrun.written hrun.destroyed.path)

/-- The temporary text of a line comes and goes. -/
theorem Path.line_phase {s t : Heap} {line : Handle} {old new : Text.Buffer}
    (hpath : Path s [.create line (.text old), .write line new, .destroy line] t) (hs : s.Sound) :
    s.phase line = .unborn ∧ t.phase line = .spent := by
  obtain _ | ⟨hcreated, hpath⟩ := hpath
  obtain _ | ⟨hwritten, hpath⟩ := hpath
  obtain ⟨hbefore, -⟩ := hcreated.create_phase hs
  have hsound := hwritten.sound (hcreated.sound hs)
  obtain ⟨e, -, -, hafter⟩ := hpath.changes.destroy_phase hsound
  exact ⟨hbefore, hafter⟩

theorem readLine_of_created {s : Heap} (hs : s.Sound) {allowance : Allowance} {line : Handle}
    (hcreated : (s.createText allowance).result = .ok line) (input : List Arrival) :
    ∃ old new, LineRun s allowance input line old new := by
  obtain ⟨old, hempty, hcreate, hline⟩ | ⟨shortage, hrefused⟩ := s.createText_cases allowance
  · obtain rfl : s.nextHandle = line := Except.ok.inj (hline.symm.trans hcreated)
    have hfind := phase_eq_live_iff.mp (phase_created hcreate hs)
    obtain ⟨new, hnew⟩ := assemble_heap allowance input ⟨[], 0⟩ hfind
    change (s.assembleLine allowance s.nextHandle input).heap = _ at hnew
    have hlive := find?_put ⟨1, .text new⟩ hfind
    rw [← hnew] at hlive
    have hrelease : (s.assembleLine allowance s.nextHandle input).heap.release s.nextHandle =
        ⟨.ok (.destroyed .text), (s.assembleLine allowance s.nextHandle input).heap.vacate
          s.nextHandle, farewell s.nextHandle (.text new)⟩ := by
      rw [release, hlive]
      rfl
    have hheap : (s.readLine allowance input).heap =
        (s.assembleLine allowance s.nextHandle input).heap.vacate s.nextHandle := by
      rw [readLine, hcreated]
      exact congrArg Outcome.heap hrelease
    refine ⟨old, new, hempty, hcreate, ?_, ?_, hnew, ?_, hheap, ?_, ?_⟩
    · rw [hnew]
      exact .write new hfind
    · rw [hheap]
      exact .destroy hlive (Nat.le_refl 1)
    · rw [hheap]
      exact hrelease
    · rw [readLine, hcreated]
      change ((s.assembleLine allowance s.nextHandle input).heap.release _).result.bind _ = _
      rw [hrelease]
      change (s.assembleLine allowance s.nextHandle input).result.bind (fun _ =>
        ((s.assembleLine allowance s.nextHandle input).heap.read s.nextHandle).map _) = _
      simp only [read, entry, hlive]
      cases (s.assembleLine allowance s.nextHandle input).result <;> rfl
    · rw [readLine, hcreated]
      rfl
  · rw [hrefused] at hcreated
    cases hcreated

/-- When the temporary text cannot be had, the heap stays as it is and nothing is read. -/
theorem readLine_of_refused {s : Heap} {allowance : Allowance} {shortage : Shortage}
    (hrefused : s.createText allowance = s.refuse (.allocation shortage)) (input : List Arrival) :
    s.readLine allowance input = ⟨.error (.allocation shortage), s, [], input⟩ := by
  rw [readLine, hrefused]
  rfl

end CountedHeap.Heap
