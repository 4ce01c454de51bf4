import CountedHeap.Proofs.Step
import CountedHeap.Proofs.Wording

/-! What a heap logs. Every change but the writing of a text has its line, and the end of a value
has two if it retires the slot. A step that fails logs nothing, except that taking an owner on or
off a stale handle is warned of. -/
namespace CountedHeap

namespace Heap

/-- What is logged on the way from one heap to another. -/
inductive Logs : Heap → List Event → Heap → Prop
  | nothing (s : Heap) : Logs s [] s
  | created {s t : Heap} {h : Handle} {value : Value} (hc : Changes s (.create h value) t) :
      Logs s [.created value.kind h] t
  | retained {s t : Heap} {h : Handle} {e : Entry} (hc : Changes s (.retain h) t)
      (hfind : s.find? h = some e) : Logs s [.retained h (e.refcount + 1)] t
  | released {s t : Heap} {h : Handle} {e : Entry} (hc : Changes s (.release h) t)
      (hfind : s.find? h = some e) : Logs s [.released h (e.refcount - 1)] t
  | destroyed {s t : Heap} {h : Handle} {e : Entry} (hc : Changes s (.destroy h) t)
      (hfind : s.find? h = some e) : Logs s (farewell h e.value) t
  | written {s t : Heap} {h : Handle} {buffer : Text.Buffer} (hc : Changes s (.write h buffer) t) :
      Logs s [] t
  | assembled (s : Heap) (count : Nat) (h : Handle) : Logs s [.assembled count h] s
  | append {s t u : Heap} {first second : List Event} (hfirst : Logs s first t)
      (hsecond : Logs t second u) : Logs s (first ++ second) u

variable {s : Heap} {allowance : Allowance}

theorem Logs.sound {t : Heap} {events : List Event} (hlogs : Logs s events t) (hs : s.Sound) :
    t.Sound := by
  induction hlogs with
  | nothing | assembled => exact hs
  | created hc | retained hc | released hc | destroyed hc | written hc => exact hc.sound hs
  | append _ _ ihfirst ihsecond => exact ihsecond (ihfirst hs)

theorem mem_farewell {h : Handle} {value : Value} {e : Event} (he : e ∈ farewell h value) :
    e = .retired h.index ∨ e = .destroyed h value := by
  unfold farewell at he
  split at he
  · simpa using he
  · exact .inr (List.mem_singleton.mp he)

/-- No change is warned of. -/
theorem Logs.topic {t : Heap} {events : List Event} (hlogs : Logs s events t) :
    ∀ e ∈ events, e.topic ≠ .loaded ∧ e.level ≠ .warn := by
  induction hlogs with
  | nothing | written => nofun
  | created | retained | released | assembled =>
    intro e he
    obtain rfl := List.mem_singleton.mp he
    exact ⟨nofun, nofun⟩
  | @destroyed _ _ _ old =>
    intro e he
    obtain rfl | rfl := mem_farewell he
    · exact ⟨nofun, nofun⟩
    · cases old.value <;> exact ⟨nofun, nofun⟩
  | append _ _ ihfirst ihsecond =>
    intro e he
    exact (List.mem_append.mp he).elim (ihfirst e) (ihsecond e)

/-! Each operation of the heap. -/

theorem insert_log {value : Value} {h : Handle}
    (hresult : (s.insert allowance value).result = .ok h) :
    (s.insert allowance value).log = [.created value.kind h] := by
  unfold insert at hresult ⊢
  split at hresult
  · cases hresult
  · next hlimit =>
    rw [if_neg hlimit]
    split at hresult
    · cases hresult
      rfl
    · split at hresult
      · cases hresult
      · next hlength =>
        rw [if_neg hlength]
        split at hresult
        · next hroom =>
          cases hresult
          rw [if_pos hroom]
        · cases hresult

theorem logs_insert (s : Heap) (allowance : Allowance) (value : Value) :
    s.Logs (s.insert allowance value).log (s.insert allowance value).heap := by
  obtain ⟨hc, hresult⟩ | ⟨shortage, heq⟩ := s.insert_cases allowance value
  · rw [insert_log hresult]
    exact .created hc
  · rw [heq]
    exact .nothing s

theorem logs_createText (s : Heap) (allowance : Allowance) :
    s.Logs (s.createText allowance).log (s.createText allowance).heap := by
  unfold createText
  split
  · exact logs_insert s allowance _
  · exact .nothing s

theorem logs_retain {h : Handle} {e : Entry} (hfind : s.find? h = some e) :
    s.Logs (s.retain h).log (s.retain h).heap := by
  by_cases hroom : e.refcount < maxRefcount
  · rw [retain_of_room hfind hroom]
    exact .retained (.retain hfind hroom) hfind
  · have hrefused : s.retain h = s.refuse (.refcountOverflow h) := by
      rw [retain, hfind]
      exact if_neg hroom
    rw [hrefused]
    exact .nothing s

theorem logs_release {h : Handle} {e : Entry} (hfind : s.find? h = some e) :
    s.Logs (s.release h).log (s.release h).heap := by
  by_cases hshared : 1 < e.refcount
  · rw [release_of_shared hfind hshared]
    exact .released (.release hfind hshared) hfind
  · rw [release_of_last hfind hshared]
    exact .destroyed (.destroy hfind (Nat.le_of_not_lt hshared)) hfind

/-- A line is noted when it is complete, between the beginning and the end of its temporary text. -/
theorem LineRun.log {input : List Arrival} {line : Handle} {old new : Text.Buffer}
    (hrun : LineRun s allowance input line old new)
    (hstarted : (s.createText allowance).result = .ok line) :
    ∃ note, (note = [] ∨ ∃ count, note = [Event.assembled count line]) ∧
      (s.readLine allowance input).log =
        (s.createText allowance).log ++ note ++ farewell line (.text new) := by
  have hended : ((s.assembleLine allowance line input).heap.release line).log =
      farewell line (.text new) := by rw [hrun.released]
  rw [← hended, readLine, hstarted]
  refine ⟨_, ?_, rfl⟩
  split
  · exact .inr ⟨_, rfl⟩
  · exact .inl rfl

theorem logs_readLine (hs : s.Sound) (input : List Arrival) :
    s.Logs (s.readLine allowance input).log (s.readLine allowance input).heap := by
  cases hstarted : (s.createText allowance).result with
  | error fault =>
    rw [readLine, hstarted]
    exact logs_createText s allowance
  | ok line =>
    obtain ⟨old, new, hrun⟩ := readLine_of_created hs hstarted input
    have hfind : (s.assembleLine allowance line input).heap.find? line = some ⟨1, .text new⟩ := by
      rw [hrun.assembled]
      exact find?_put _ (phase_eq_live_iff.mp (phase_created hrun.created hs))
    obtain ⟨note, hnote, hlog⟩ := hrun.log hstarted
    have hnoted : (s.createText allowance).heap.Logs note
        (s.assembleLine allowance line input).heap := by
      rw [← List.nil_append note]
      refine .append (.written hrun.written) ?_
      obtain rfl | ⟨count, rfl⟩ := hnote
      · exact .nothing _
      · exact .assembled _ _ _
    rw [hlog]
    exact .append (.append (logs_createText s allowance) hnoted) (.destroyed hrun.destroyed hfind)

theorem log_append (s : Heap) (allowance : Allowance) (h : Handle) (text : List Char) :
    (s.append allowance h text).log = [] := by
  unfold append
  split
  · rfl
  · split <;> rfl

theorem log_replaceBuffer (s : Heap) (h : Handle) (buffer : Text.Buffer) :
    (s.replaceBuffer h buffer).log = [] := by
  unfold replaceBuffer
  split <;> rfl

theorem log_appendFrom (s : Heap) (allowance : Allowance) (h source : Handle) :
    (s.appendFrom allowance h source).log = [] := by
  unfold appendFrom
  split
  · rfl
  · exact log_append s allowance h _

end Heap

namespace Moment

/-- An operation that neither creates values nor takes owners on or off logs nothing. -/
theorem log_of_plain {m : Moment} (hplain : Plain m.operation) : m.report.log = [] := by
  obtain ⟨s, allowance, operation⟩ := m
  cases operation with
  | createInteger | createText | retain | release | readLine => exact hplain.elim
  | append h text => exact s.heap.log_append allowance h text
  | appendFrom h source => exact s.heap.log_appendFrom allowance h source
  | overwrite h buffer => exact s.heap.log_replaceBuffer h buffer
  | replaceBuffer h growth capacity =>
    change (s.replace allowance h growth capacity).log = []
    unfold Session.replace
    split
    · rfl
    · split
      · exact s.heap.log_replaceBuffer h _
      · rfl
  | refcount | kind | isLive | read | buffer | display | showTo | supply | settings | counters
  | compare | compareViews => rfl

theorem logs_of_plain {m : Moment} (hplain : Plain m.operation) (hs : m.before.heap.Sound) :
    m.before.heap.Logs m.report.log m.after.heap := by
  rw [log_of_plain hplain]
  obtain ⟨changes, hamounts, hpath⟩ := m.amounts hs
  cases hamounts with
  | createInteger hop | createText hop | retain hop | release hop | destroy hop =>
    rw [hop] at hplain
    exact hplain.elim
  | line _ hop =>
    rw [hop] at hplain
    exact hplain.elim
  | write => exact .written hpath.changes
  | nothing =>
    rw [hpath.eq_of_nil]
    exact .nothing _

/-- What a step logs: it warns of a stale handle and changes nothing, or it logs the changes that it
makes. -/
inductive Speaks (m : Moment) : Prop
  | staleRetain {h : Handle} (hop : m.operation = .retain h)
      (hstale : m.before.heap.isLive h = false) (hlog : m.report.log = [.staleRetain h])
      (hheap : m.after.heap = m.before.heap)
  | staleRelease {h : Handle} (hop : m.operation = .release h)
      (hstale : m.before.heap.isLive h = false) (hlog : m.report.log = [.staleRelease h])
      (hheap : m.after.heap = m.before.heap)
  | changes (hlive : ∀ h, m.operation = .retain h ∨ m.operation = .release h →
        m.before.heap.isLive h = true)
      (hlogs : m.before.heap.Logs m.report.log m.after.heap)

theorem speaks (m : Moment) (hs : m.before.heap.Sound) : m.Speaks := by
  by_cases hplain : Plain m.operation
  · refine .changes ?_ (logs_of_plain hplain hs)
    rintro h (hop | hop) <;> rw [hop] at hplain <;> exact hplain.elim
  obtain ⟨s, allowance, operation⟩ := m
  cases operation with
  | createInteger n => exact .changes nofun (s.heap.logs_insert allowance (.integer n))
  | createText => exact .changes nofun (s.heap.logs_createText allowance)
  | readLine => exact .changes nofun (Heap.logs_readLine hs s.input)
  | retain h =>
    cases hfind : s.heap.find? h with
    | none =>
      have hstale : s.heap.retain h = ⟨.error (.staleHandle h), s.heap, [.staleRetain h]⟩ := by
        rw [Heap.retain, hfind]
      refine .staleRetain rfl ?_ (congrArg Outcome.log hstale) (congrArg Outcome.heap hstale)
      exact congrArg Option.isSome hfind
    | some e =>
      refine .changes ?_ (Heap.logs_retain hfind)
      rintro g (hop | hop) <;> cases hop
      exact congrArg Option.isSome hfind
  | release h =>
    cases hfind : s.heap.find? h with
    | none =>
      have hstale : s.heap.release h = ⟨.error (.staleHandle h), s.heap, [.staleRelease h]⟩ := by
        rw [Heap.release, hfind]
      refine .staleRelease rfl ?_ (congrArg Outcome.log hstale) (congrArg Outcome.heap hstale)
      exact congrArg Option.isSome hfind
    | some e =>
      refine .changes ?_ (Heap.logs_release hfind)
      rintro g (hop | hop) <;> cases hop
      exact congrArg Option.isSome hfind
  | _ => exact absurd trivial hplain

end Moment

end CountedHeap
