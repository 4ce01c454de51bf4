import CountedHeap.Proofs.Step

/-! Refusals. An allowance shows in a step only when something is refused under it: every step in
which nothing is refused is the step that is taken when memory has no bounds. -/
namespace CountedHeap

/-- Whatever is asked for is granted. -/
def Allowance.unbounded : Allowance := ⟨fun _ => true, true⟩

/-- Memory was asked for and refused. -/
def Fault.refused : Fault → Bool
  | .allocation shortage => shortage.refused
  | _ => false

/-- The step tells that memory was asked for and refused. -/
def Report.refused (r : Report) : Bool :=
  match r.result with
  | .error fault => fault.refused
  | .ok .notReplaced => true
  | .ok _ => false

/-- The result does not come from a refusal. -/
def Granted {α : Type} (result : Except Fault α) : Prop :=
  ∀ fault, result = .error fault → fault.refused = false

@[simp] theorem granted_ok {α : Type} (a : α) : Granted (.ok a : Except Fault α) := nofun

@[simp] theorem granted_error_iff {α : Type} {fault : Fault} :
    Granted (.error fault : Except Fault α) ↔ fault.refused = false :=
  ⟨fun hgranted => hgranted fault rfl, fun hrefused _ hfault => by cases hfault; exact hrefused⟩

theorem granted_of_map {α β : Type} {result : Except Fault α} {f : α → β}
    (hgranted : Granted (result.map f)) : Granted result := by
  rintro fault rfl
  exact hgranted fault rfl

theorem Report.granted {r : Report} (hgranted : r.refused = false) : Granted r.result := by
  intro fault hfault
  rw [Report.refused, hfault] at hgranted
  exact hgranted

namespace Text.Buffer

variable {grant : Nat → Bool}

theorem ofCapacity?_of_granted {growth : Growth} {capacity : Nat} {b : Buffer}
    (h : ofCapacity? grant growth capacity = some b) :
    ofCapacity? Allowance.unbounded.storage growth capacity = some b := by
  unfold ofCapacity? at h
  split at h
  · exact h
  · cases h

theorem append?_of_granted {old new : Buffer} {text : List Char}
    (h : old.append? grant text = some new) :
    old.append? Allowance.unbounded.storage text = some new := by
  unfold append? at h ⊢
  dsimp only at h ⊢
  split at h
  · next hempty => rw [if_pos hempty, h]
  · next hempty =>
    rw [if_neg hempty]
    split at h
    · next hfits => rw [if_pos hfits, h]
    · next hfits =>
      rw [if_neg hfits]
      split at h
      · exact h
      · cases h

/-- An append that is refused nothing adds what stands before the first terminator. -/
theorem append?_unbounded (b : Buffer) (text : List Char) :
    ∃ new, b.append? Allowance.unbounded.storage text = some new ∧
      new.content = b.content ++ beforeTerminator text := by
  unfold append?
  by_cases hempty : beforeTerminator text = []
  · exact ⟨b, by simp [hempty], by simp [hempty]⟩
  · by_cases hfits : b.used + Text.size (beforeTerminator text) ≤ b.capacity
    · exact ⟨_, by simp [hempty, hfits]; rfl, b.content_extend _ _⟩
    · exact ⟨_, by simp [hempty, hfits, Allowance.unbounded]; rfl, b.content_extend _ _⟩

end Text.Buffer

namespace Heap

variable {s : Heap} {allowance : Allowance}

theorem not_granted_refuse {α : Type} {shortage : Shortage} (hrefused : shortage.refused = true) :
    ¬Granted (s.refuse (.allocation shortage) : Outcome α).result := by
  intro hgranted
  have hfalse := hgranted _ rfl
  cases hrefused.symm.trans hfalse

theorem insert_of_granted {value : Value} (hgranted : Granted (s.insert allowance value).result) :
    s.insert allowance value = s.insert .unbounded value := by
  unfold insert at hgranted ⊢
  by_cases hlimit : s.atLiveLimit = true
  · simp only [if_pos hlimit]
  · simp only [if_neg hlimit] at hgranted ⊢
    cases hfree : s.free with
    | cons index free => rfl
    | nil =>
      simp only [hfree] at hgranted ⊢
      by_cases hlength : maxSlots ≤ s.slots.length
      · simp only [if_pos hlength]
      · simp only [if_neg hlength] at hgranted ⊢
        split at hgranted
        · next hroom => simp [hroom, Allowance.unbounded]
        · exact absurd hgranted (not_granted_refuse rfl)

theorem createText_of_granted (hgranted : Granted (s.createText allowance).result) :
    s.createText allowance = s.createText .unbounded := by
  unfold createText at hgranted ⊢
  split at hgranted
  · next buffer hbuffer =>
    rw [Text.Buffer.ofCapacity?_of_granted hbuffer]
    exact insert_of_granted hgranted
  · exact absurd hgranted (not_granted_refuse rfl)

theorem append_of_granted {h : Handle} {text : List Char}
    (hgranted : Granted (s.append allowance h text).result) :
    s.append allowance h text = s.append .unbounded h text := by
  unfold append at hgranted ⊢
  cases hbuffer : s.buffer h with
  | error fault => rfl
  | ok old =>
    simp only [hbuffer] at hgranted ⊢
    split at hgranted
    · next new hnew => rw [Text.Buffer.append?_of_granted hnew]
    · exact absurd hgranted (not_granted_refuse rfl)

theorem appendFrom_of_granted {h source : Handle}
    (hgranted : Granted (s.appendFrom allowance h source).result) :
    s.appendFrom allowance h source = s.appendFrom .unbounded h source := by
  unfold appendFrom at hgranted ⊢
  cases hread : s.read source with
  | error fault => rfl
  | ok view =>
    rw [hread] at hgranted
    exact append_of_granted hgranted

theorem assemble_of_granted {line : Handle} (input : List Arrival) {s : Heap} {p : Progress}
    (hgranted : Granted (s.assemble allowance line p input).result) :
    s.assemble allowance line p input = s.assemble .unbounded line p input := by
  induction input generalizing s p with
  | nil => rfl
  | cons arrival rest ih =>
    cases arrival with
    | interruption => exact ih hgranted
    | failure cause => rfl
    | octet b =>
      rw [assemble] at hgranted ⊢
      rw [assemble]
      by_cases hline : b = newline ∧ p.gathered = []
      · simp only [if_pos hline]
      · simp only [if_neg hline] at hgranted ⊢
        cases hread : Text.Decoder.read (p.gathered ++ [b]) with
        | incomplete =>
          simp only [hread] at hgranted
          exact ih hgranted
        | invalid => rfl
        | complete c =>
          simp only [hread] at hgranted ⊢
          -- An append that was refused would be the result of the whole assembly.
          have happend : Granted (s.append allowance line [c]).result := by
            intro fault hfault
            rw [hfault] at hgranted
            exact hgranted fault rfl
          rw [← append_of_granted happend]
          cases hresult : (s.append allowance line [c]).result with
          | error fault => rfl
          | ok done =>
            rw [hresult] at hgranted
            exact ih hgranted

theorem readLine_of_granted (hs : s.Sound) {input : List Arrival}
    (hgranted : Granted (s.readLine allowance input).result) :
    s.readLine allowance input = s.readLine .unbounded input := by
  cases hcreated : (s.createText allowance).result with
  | error fault =>
    have hstart : Granted (s.createText allowance).result := by
      intro cause hcause
      refine hgranted cause ?_
      rw [readLine, hcause]
    rw [readLine, readLine, ← createText_of_granted hstart, hcreated]
  | ok line =>
    have hstart : Granted (s.createText allowance).result := by
      rw [hcreated]
      intro fault hfault
      cases hfault
    obtain ⟨old, new, hrun⟩ := readLine_of_created hs hcreated input
    rw [hrun.result] at hgranted
    have hassembly := assemble_of_granted input (granted_of_map hgranted)
    rw [readLine, readLine, ← createText_of_granted hstart, hcreated]
    dsimp only
    rw [hassembly]

end Heap

namespace Session

variable {s : Session} {allowance : Allowance}

theorem replace_of_granted {h : Handle} {growth : Text.Growth} {capacity : Nat}
    (hgranted : (s.replace allowance h growth capacity).refused = false) :
    s.replace allowance h growth capacity = s.replace .unbounded h growth capacity := by
  unfold replace at hgranted ⊢
  cases hbuffer : s.heap.buffer h with
  | error fault => rfl
  | ok old =>
    simp only [hbuffer] at hgranted ⊢
    split at hgranted
    · next new hnew =>
      rw [Text.Buffer.ofCapacity?_of_granted hnew]
    · cases hgranted

/-- A step in which nothing is refused is the step without bounds. -/
theorem step_of_granted (hs : s.heap.Sound) {operation : Operation}
    (hgranted : (s.step allowance operation).refused = false) :
    s.step allowance operation = s.step .unbounded operation := by
  cases operation with
  | createInteger n =>
    have houtcome := Heap.insert_of_granted (granted_of_map (Report.granted hgranted))
    exact congrArg (s.change · .handle) houtcome
  | createText =>
    have houtcome := Heap.createText_of_granted (granted_of_map (Report.granted hgranted))
    exact congrArg (s.change · .handle) houtcome
  | append h text =>
    have houtcome := Heap.append_of_granted (granted_of_map (Report.granted hgranted))
    exact congrArg (s.change · fun _ => .done) houtcome
  | appendFrom h source =>
    have houtcome := Heap.appendFrom_of_granted (granted_of_map (Report.granted hgranted))
    exact congrArg (s.change · fun _ => .done) houtcome
  | replaceBuffer h growth capacity => exact replace_of_granted hgranted
  | readLine =>
    have hline := Heap.readLine_of_granted hs (granted_of_map (Report.granted hgranted))
    rw [step, hline]
    rfl
  | retain | release | refcount | kind | isLive | read | buffer | overwrite | display | showTo
  | supply | settings | counters | compare | compareViews => rfl

end Session

end CountedHeap
