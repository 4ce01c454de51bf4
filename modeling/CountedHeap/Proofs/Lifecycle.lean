import CountedHeap.Proofs.Step

/-! The life of a value, told from the operations of a run and their answers alone. A handle is live
as long as it was released no oftener than retained; its value keeps the kind it was created with;
and the release that destroys it is its last successful operation. -/
namespace CountedHeap

/-- The operation was done in the past and answered with the handle. -/
def CreatedBy (past : List Moment) (operation : Operation) (h : Handle) : Prop :=
  ∃ m ∈ past, m.operation = operation ∧ m.result = .ok (.handle h)

def IssuedAs (past : List Moment) (h : Handle) : Kind → Prop
  | .integer => ∃ n, CreatedBy past (.createInteger n) h
  | .text => CreatedBy past .createText h

/-- The handle was returned by a creation. -/
def Issued (past : List Moment) (h : Handle) : Prop := ∃ kind, IssuedAs past h kind

/-- How many times the handle was retained with success. -/
def retains (past : List Moment) (h : Handle) : Nat :=
  past.countP fun m => m.operation = .retain h && m.result.isOk

/-- How many times the handle was released with success. -/
def releases (past : List Moment) (h : Handle) : Nat :=
  past.countP fun m => m.operation = .release h && m.result.isOk

/-- The handle whose value the operation needs before all else. -/
def Operation.needs? : Operation → Option Handle
  | .retain h | .release h | .refcount h | .kind h | .read h | .buffer h | .append h _
  | .replaceBuffer h _ _ | .overwrite h _ | .display h _ | .showTo h _ _ => some h
  | .appendFrom _ source => some source
  | .compareViews a _ => some a
  | _ => none

/-- What a creation may put under its handle. -/
def Operation.Makes : Operation → Value → Prop
  | .createInteger n, value => value = .integer n
  | .createText, value => value.kind = .text
  | _, _ => True

namespace Lifecycle

/-- How the past of a handle goes with its phase. The temporary text of a line is spent without ever
having been issued to the caller. -/
inductive Standing (past : List Moment) (h : Handle) : Phase → Prop
  | unborn (hissued : ¬Issued past h) (hretains : retains past h = 0)
      (hreleases : releases past h = 0) : Standing past h .unborn
  | live {e : Entry} (hissued : IssuedAs past h e.value.kind)
      (hmakes : ∀ operation, CreatedBy past operation h → operation.Makes e.value)
      (hcount : retains past h + 1 = releases past h + e.refcount) : Standing past h (.live e)
  | spent (hcount : releases past h = retains past h + 1) : Standing past h .spent
  | passing (hissued : ¬Issued past h) (hretains : retains past h = 0)
      (hreleases : releases past h = 0) : Standing past h .spent

theorem createdBy_append {past : List Moment} {m : Moment} {operation : Operation} {h : Handle} :
    CreatedBy (past ++ [m]) operation h ↔
      CreatedBy past operation h ∨ m.operation = operation ∧ m.result = .ok (.handle h) := by
  simp [CreatedBy, or_and_right, exists_or]

theorem retains_append (past : List Moment) (m : Moment) (h : Handle) :
    retains (past ++ [m]) h =
      retains past h + if m.operation = .retain h ∧ m.result.isOk then 1 else 0 := by
  simp [retains, List.countP_append, List.countP_singleton]

theorem releases_append (past : List Moment) (m : Moment) (h : Handle) :
    releases (past ++ [m]) h =
      releases past h + if m.operation = .release h ∧ m.result.isOk then 1 else 0 := by
  simp [releases, List.countP_append, List.countP_singleton]

theorem not_issued_append {past : List Moment} {m : Moment} {h : Handle}
    (hissued : ¬Issued past h) (hresult : m.result ≠ .ok (.handle h)) :
    ¬Issued (past ++ [m]) h := by
  rintro ⟨kind, hkind⟩
  apply hissued
  cases kind with
  | integer =>
    obtain ⟨n, hn⟩ := hkind
    obtain hn | ⟨-, hhandle⟩ := createdBy_append.mp hn
    · exact ⟨.integer, n, hn⟩
    · exact absurd hhandle hresult
  | text =>
    obtain ht | ⟨-, hhandle⟩ := createdBy_append.mp hkind
    · exact ⟨.text, ht⟩
    · exact absurd hhandle hresult

theorem issuedAs_append {past : List Moment} {h : Handle} {kind : Kind}
    (hissued : IssuedAs past h kind) (m : Moment) : IssuedAs (past ++ [m]) h kind := by
  cases kind with
  | integer =>
    obtain ⟨n, hn⟩ := hissued
    exact ⟨n, createdBy_append.mpr (.inl hn)⟩
  | text => exact createdBy_append.mpr (.inl hissued)

/-- A live handle stays in good standing through a step that does not issue it again. -/
theorem Standing.live_append {past : List Moment} {m : Moment} {h : Handle} {e e' : Entry}
    (hstanding : Standing past h (.live e)) (hresult : m.result ≠ .ok (.handle h))
    (hkind : e'.value.kind = e.value.kind)
    (hvalue : ∀ n, e.value = .integer n → e'.value = e.value)
    (hcount : retains (past ++ [m]) h + releases past h + e.refcount =
      releases (past ++ [m]) h + retains past h + e'.refcount) :
    Standing (past ++ [m]) h (.live e') := by
  obtain - | ⟨hissued, hmakes, hbefore⟩ := hstanding
  refine .live ?_ ?_ (by omega)
  · rw [hkind]
    exact issuedAs_append hissued m
  · intro operation hcreated
    obtain hcreated | ⟨-, hhandle⟩ := createdBy_append.mp hcreated
    · have hmade := hmakes operation hcreated
      cases operation with
      | createInteger n =>
        change e'.value = .integer n
        rw [hvalue n hmade]
        exact hmade
      | createText => exact hkind.trans hmade
      | _ => trivial
    · exact absurd hhandle hresult

/-- A step that spares a handle leaves its standing as it was. -/
theorem Standing.spared {past : List Moment} {m : Moment} {h : Handle} {p : Phase}
    (hstanding : Standing past h p) (hspares : m.Spares h) : Standing (past ++ [m]) h p := by
  obtain ⟨hresult, hfails⟩ := hspares
  have hretains : retains (past ++ [m]) h = retains past h := by
    rw [retains_append, if_neg]
    · rfl
    · rintro ⟨hop, hok⟩
      obtain ⟨fault, hfault⟩ := hfails (.inl hop)
      rw [hfault] at hok
      cases hok
  have hreleases : releases (past ++ [m]) h = releases past h := by
    rw [releases_append, if_neg]
    · rfl
    · rintro ⟨hop, hok⟩
      obtain ⟨fault, hfault⟩ := hfails (.inr hop)
      rw [hfault] at hok
      cases hok
  cases hstanding with
  | unborn hissued hno hnone =>
    exact .unborn (not_issued_append hissued hresult) (hretains.trans hno) (hreleases.trans hnone)
  | live hissued hmakes hcount =>
    refine Standing.live_append (.live hissued hmakes hcount) hresult rfl (fun _ _ => rfl) ?_
    omega
  | spent hcount =>
    refine .spent ?_
    omega
  | passing hissued hno hnone =>
    exact .passing (not_issued_append hissued hresult) (hretains.trans hno)
      (hreleases.trans hnone)

theorem retains_retain (past : List Moment) {m : Moment} {h : Handle} {n : Nat}
    (hop : m.operation = .retain h) (hresult : m.result = .ok (.count n)) :
    retains (past ++ [m]) h = retains past h + 1 ∧ releases (past ++ [m]) h = releases past h := by
  constructor
  · rw [retains_append, if_pos ⟨hop, by rw [hresult]; rfl⟩]
  · rw [releases_append, if_neg (by rw [hop]; nofun)]
    rfl

theorem releases_release (past : List Moment) {m : Moment} {h : Handle} {r : Released}
    (hop : m.operation = .release h) (hresult : m.result = .ok (.released r)) :
    retains (past ++ [m]) h = retains past h ∧ releases (past ++ [m]) h = releases past h + 1 := by
  constructor
  · rw [retains_append, if_neg (by rw [hop]; nofun)]
    rfl
  · rw [releases_append, if_pos ⟨hop, by rw [hresult]; rfl⟩]

/-- A new value begins its standing with its first owner. -/
theorem Standing.created {past : List Moment} {m : Moment} {h : Handle} {value : Value}
    (hstanding : Standing past h .unborn)
    (hissued : IssuedAs (past ++ [m]) h value.kind) (hmakes : m.operation.Makes value)
    (hretain : m.operation ≠ .retain h) (hrelease : m.operation ≠ .release h) :
    Standing (past ++ [m]) h (.live ⟨1, value⟩) := by
  obtain ⟨hfresh, hno, hnone⟩ := hstanding
  refine .live hissued ?_ ?_
  · intro operation hcreated
    obtain hcreated | ⟨rfl, -⟩ := createdBy_append.mp hcreated
    · cases operation with
      | createInteger n => exact absurd ⟨.integer, n, hcreated⟩ hfresh
      | createText => exact absurd ⟨.text, hcreated⟩ hfresh
      | _ => trivial
    · exact hmakes
  · rw [retains_append, releases_append, if_neg (fun hop => hretain hop.1),
      if_neg (fun hop => hrelease hop.1)]
    change retains past h + 0 + 1 = releases past h + 0 + 1
    omega

/-- What every run keeps. -/
structure Recorded (past : List Moment) (s : Heap) : Prop where
  sound : s.Sound
  standing : ∀ h, Standing past h (s.phase h)

/-- Handles that a change is not about keep their standing if the step spares them. -/
theorem Recorded.other {past : List Moment} {m : Moment} {c : Change} {t : Heap}
    (hrecorded : Recorded past m.before.heap) (hc : m.before.heap.Changes c t) {h : Handle}
    (hne : h ≠ c.handle) (hspares : m.Spares h) : Standing (past ++ [m]) h (t.phase h) := by
  rw [hc.phase_other hrecorded.sound hne]
  exact (hrecorded.standing h).spared hspares

/-- A step with one change, for the handle of the change and all the others. -/
theorem Recorded.change {past : List Moment} {m : Moment} {c : Change} {t : Heap}
    (hrecorded : Recorded past m.before.heap) (hc : m.before.heap.Changes c t)
    (hspares : ∀ h, h ≠ c.handle → m.Spares h)
    (hown : Standing past c.handle (m.before.heap.phase c.handle) →
      Standing (past ++ [m]) c.handle (t.phase c.handle)) : Recorded (past ++ [m]) t := by
  refine ⟨hc.sound hrecorded.sound, ?_⟩
  intro h
  by_cases hne : h = c.handle
  · rw [hne]
    exact hown (hrecorded.standing c.handle)
  · exact hrecorded.other hc hne (hspares h hne)

theorem Recorded.create {past : List Moment} {m : Moment} {g : Handle} {value : Value} {t : Heap}
    (hrecorded : Recorded past m.before.heap) (hc : m.before.heap.Changes (.create g value) t)
    (hresult : m.result = .ok (.handle g)) (hissued : IssuedAs (past ++ [m]) g value.kind)
    (hmakes : m.operation.Makes value)
    (howners : ∀ h, m.operation ≠ .retain h ∧ m.operation ≠ .release h) :
    Recorded (past ++ [m]) t := by
  obtain ⟨hbefore, hafter⟩ := hc.create_phase hrecorded.sound
  refine hrecorded.change hc ?_ ?_
  · intro h hne
    constructor
    · rw [hresult]
      intro heq
      cases heq
      exact hne rfl
    · rintro (hop | hop)
      · exact absurd hop (howners h).1
      · exact absurd hop (howners h).2
  · rw [Change.handle, hbefore, hafter]
    intro hown
    exact hown.created hissued hmakes (howners g).1 (howners g).2

theorem spares_of_operation {m : Moment} {g h : Handle} (hop : m.operation = .retain g ∨
    m.operation = .release g) (hresult : ∀ h, m.result ≠ .ok (.handle h)) (hne : h ≠ g) :
    m.Spares h := by
  refine ⟨hresult h, ?_⟩
  intro hown
  exfalso
  obtain hop | hop := hop <;> obtain hown | hown := hown <;> rw [hop] at hown <;> cases hown <;>
    exact hne rfl

theorem recorded_step (past : List Moment) (m : Moment)
    (hrecorded : Recorded past m.before.heap) : Recorded (past ++ [m]) m.after.heap := by
  have hs := hrecorded.sound
  obtain ⟨changes, hamounts, hpath⟩ := m.amounts hs
  cases hamounts with
  | @createInteger n g hop hresult =>
    refine hrecorded.create hpath.changes hresult ?_ ?_ ?_
    · exact ⟨n, createdBy_append.mpr (.inr ⟨hop, hresult⟩)⟩
    · rw [hop]
      rfl
    · rw [hop]
      exact fun h => ⟨nofun, nofun⟩
  | @createText g buffer hop hresult =>
    refine hrecorded.create hpath.changes hresult ?_ ?_ ?_
    · exact createdBy_append.mpr (.inr ⟨hop, hresult⟩)
    · rw [hop]
      rfl
    · rw [hop]
      exact fun h => ⟨nofun, nofun⟩
  | @retain g n hop hresult =>
    have hc := hpath.changes
    have hhandle : ∀ h, m.result ≠ .ok (.handle h) := by simp [hresult]
    obtain ⟨e, hbefore, hafter⟩ := hc.retain_phase
    obtain ⟨hretains, hreleases⟩ := retains_retain past hop hresult
    refine hrecorded.change hc (fun h => spares_of_operation (.inl hop) hhandle) ?_
    rw [Change.handle, hbefore, hafter]
    intro hown
    refine hown.live_append (hhandle g) rfl (fun _ _ => rfl) ?_
    dsimp only
    omega
  | @release g n hop hresult =>
    have hc := hpath.changes
    have hhandle : ∀ h, m.result ≠ .ok (.handle h) := by simp [hresult]
    obtain ⟨e, hlt, hbefore, hafter⟩ := hc.release_phase
    obtain ⟨hretains, hreleases⟩ := releases_release past hop hresult
    refine hrecorded.change hc (fun h => spares_of_operation (.inr hop) hhandle) ?_
    rw [Change.handle, hbefore, hafter]
    intro hown
    refine hown.live_append (hhandle g) rfl (fun _ _ => rfl) ?_
    dsimp only
    omega
  | @destroy g k hop hresult =>
    have hc := hpath.changes
    have hhandle : ∀ h, m.result ≠ .ok (.handle h) := by simp [hresult]
    obtain ⟨e, hone, hbefore, hafter⟩ := hc.destroy_phase hs
    obtain ⟨hretains, hreleases⟩ := releases_release past hop hresult
    refine hrecorded.change hc (fun h => spares_of_operation (.inr hop) hhandle) ?_
    rw [Change.handle, hbefore, hafter]
    intro hown
    obtain - | ⟨-, -, hcount⟩ := hown
    refine .spent ?_
    omega
  | @write g buffer hquiet hop =>
    have hc := hpath.changes
    obtain ⟨n, old, hbefore, hafter⟩ := hc.write_phase
    refine hrecorded.change hc (fun h _ => hquiet h) ?_
    rw [Change.handle, hbefore, hafter]
    intro hown
    have hsame := hown.spared (hquiet g)
    obtain - | ⟨hissued, hmakes, hcount⟩ := hsame
    refine .live hissued ?_ hcount
    intro operation hcreated
    have hmade := hmakes operation hcreated
    cases operation with
    | createInteger n => cases hmade
    | createText => rfl
    | _ => trivial
  | @line g old new hquiet hop hline hrelease =>
    refine ⟨hpath.sound hs, ?_⟩
    intro h
    by_cases hne : h = g
    · -- The temporary text passes from unborn to spent, and the caller never had its handle.
      subst hne
      obtain ⟨hunborn, hspent⟩ := hpath.line_phase hs
      have hsame := (hrecorded.standing h).spared (hquiet h)
      rw [hunborn] at hsame
      rw [hspent]
      obtain ⟨hissued, hno, hnone⟩ := hsame
      exact .passing hissued hno hnone
    · rw [hpath.phase_other hs (by simpa [Change.handle] using hne)]
      exact (hrecorded.standing h).spared (hquiet h)
  | nothing hquiet hline =>
    rw [hpath.eq_of_nil]
    exact ⟨hs, fun h => (hrecorded.standing h).spared (hquiet h)⟩

theorem recorded (settings : Settings) (script : List (Allowance × Operation)) :
    Recorded ((Session.ofSettings settings).history script)
      ((Session.ofSettings settings).leave script).heap := by
  refine Session.keeps (P := fun past s => Recorded past s.heap) recorded_step script [] _ ?_
  refine ⟨Heap.sound_ofSettings settings, ?_⟩
  intro h
  refine .unborn ?_ rfl rfl
  rintro ⟨kind, hkind⟩
  cases kind <;> simp [IssuedAs, CreatedBy] at hkind

theorem Recorded.live {past : List Moment} {s : Heap} (hrecorded : Recorded past s) {h : Handle}
    {e : Entry} (hfind : s.find? h = some e) :
    IssuedAs past h e.value.kind ∧ (∀ operation, CreatedBy past operation h →
      operation.Makes e.value) ∧ retains past h + 1 = releases past h + e.refcount ∧
        1 ≤ e.refcount := by
  have hstanding := hrecorded.standing h
  rw [Heap.phase_eq_live_iff.mpr hfind] at hstanding
  obtain - | ⟨hissued, hmakes, hcount⟩ := hstanding
  exact ⟨hissued, hmakes, hcount, (hrecorded.sound.of_find? hfind).2.1⟩

theorem Recorded.isLive_iff {past : List Moment} {s : Heap} (hrecorded : Recorded past s)
    (h : Handle) : s.isLive h = true ↔ Issued past h ∧ releases past h ≤ retains past h := by
  rw [Heap.isLive_iff]
  constructor
  · rintro ⟨e, hphase⟩
    obtain ⟨hissued, -, hcount, howned⟩ := hrecorded.live (Heap.phase_eq_live_iff.mp hphase)
    exact ⟨⟨_, hissued⟩, by omega⟩
  · rintro ⟨hissued, hle⟩
    have hstanding := hrecorded.standing h
    cases hphase : s.phase h with
    | live e => exact ⟨e, rfl⟩
    | unborn =>
      rw [hphase] at hstanding
      obtain ⟨hfresh, -, -⟩ := hstanding
      exact absurd hissued hfresh
    | spent =>
      rw [hphase] at hstanding
      cases hstanding with
      | spent hcount => omega
      | passing hfresh => exact absurd hissued hfresh

/-- A value created as one kind cannot have been created as another. -/
theorem Recorded.kind_eq {past : List Moment} {s : Heap} (hrecorded : Recorded past s) {h : Handle}
    {e : Entry} (hfind : s.find? h = some e) {kind : Kind} (hissued : IssuedAs past h kind) :
    e.value.kind = kind := by
  obtain ⟨-, hmakes, -⟩ := hrecorded.live hfind
  cases kind with
  | integer =>
    obtain ⟨n, hcreated⟩ := hissued
    have hvalue : e.value = .integer n := hmakes _ hcreated
    rw [hvalue]
    rfl
  | text => exact hmakes _ hissued

/-- A handle released oftener than retained is spent. -/
theorem Recorded.spent {past : List Moment} {s : Heap} (hrecorded : Recorded past s) {h : Handle}
    (hlt : retains past h < releases past h) : s.phase h = .spent := by
  have hstanding := hrecorded.standing h
  cases hphase : s.phase h with
  | unborn =>
    rw [hphase] at hstanding
    obtain ⟨-, hno, hnone⟩ := hstanding
    omega
  | live e =>
    obtain ⟨-, -, hcount, howned⟩ := hrecorded.live (Heap.phase_eq_live_iff.mp hphase)
    omega
  | spent => rfl

theorem Recorded.destroyed_iff {past : List Moment} {s : Session} (hrecorded : Recorded past s.heap)
    (h : Handle) (allowance : Allowance) (kind : Kind) :
    (s.step allowance (.release h)).result = .ok (.released (.destroyed kind)) ↔
      IssuedAs past h kind ∧ releases past h = retains past h := by
  change (s.heap.release h).result.map Answer.released = _ ↔ _
  obtain ⟨e, -, hfind, hlt, hresult⟩ | ⟨e, -, hfind, hle, hresult⟩ | ⟨hstale, hresult, -⟩ :=
    s.heap.release_cases h
  · obtain ⟨-, -, hcount, -⟩ := hrecorded.live hfind
    rw [hresult]
    constructor
    · nofun
    · rintro ⟨-, heq⟩
      omega
  · obtain ⟨hissued, -, hcount, howned⟩ := hrecorded.live hfind
    rw [hresult]
    constructor
    · intro hkind
      cases hkind
      exact ⟨hissued, by omega⟩
    · rintro ⟨hkind, -⟩
      rw [← hrecorded.kind_eq hfind hkind]
      rfl
  · rw [hresult]
    constructor
    · nofun
    · rintro ⟨hkind, heq⟩
      have hlive := (hrecorded.isLive_iff h).mpr ⟨⟨kind, hkind⟩, by omega⟩
      rw [Heap.isLive, hstale] at hlive
      cases hlive

/-- An operation on a stale handle fails, writes nothing and changes nothing. -/
theorem step_of_stale {s : Session} {h : Handle} (hstale : s.heap.find? h = none)
    (allowance : Allowance) {operation : Operation} (hneeds : operation.needs? = some h) :
    (s.step allowance operation).result = .error (.staleHandle h) ∧
      (s.step allowance operation).written = [] ∧ (s.step allowance operation).session = s := by
  have hentry : s.heap.entry h = .error (.staleHandle h) := by rw [Heap.entry, hstale]
  have hread : s.heap.read h = .error (.staleHandle h) := by rw [Heap.read, hentry]; rfl
  have hbuffer : s.heap.buffer h = .error (.staleHandle h) := by rw [Heap.buffer, hstale]
  cases operation with
  | createInteger | createText | isLive | supply | readLine | settings | counters | compare =>
    cases hneeds
  | retain | release =>
    cases hneeds
    simp [Session.step, Session.change, Heap.retain, Heap.release, hstale, Except.map]
  | refcount | kind =>
    cases hneeds
    simp [Session.step, Session.observe, Heap.refcount, Heap.kind, hentry, Except.map]
  | read | buffer | display | compareViews =>
    cases hneeds
    simp [Session.step, Session.observe, Heap.display, hread, hbuffer, Except.map, Except.bind]
  | showTo =>
    cases hneeds
    simp [Session.step, Heap.showTo, Heap.showBy, Heap.display, hread, Except.map]
  | append | appendFrom | overwrite =>
    cases hneeds
    simp [Session.step, Session.change, Heap.append, Heap.appendFrom, Heap.replaceBuffer,
      Heap.refuse, hread, hbuffer, Except.map]
  | replaceBuffer =>
    cases hneeds
    simp [Session.step, Session.replace, Session.observe, hbuffer]

end Lifecycle

/-- The lifecycle law, for every handle and after every run. -/
theorem lifecycle_law (settings : Settings) (script : List (Allowance × Operation)) (h : Handle) :
    let past := (Session.ofSettings settings).history script
    let s := (Session.ofSettings settings).leave script
    (s.heap.isLive h = true ↔ Issued past h ∧ releases past h ≤ retains past h) ∧
    (s.heap.isLive h = true →
      s.heap.refcount h = .ok (1 + retains past h - releases past h) ∧
      (∀ kind, IssuedAs past h kind → s.heap.kind h = .ok kind) ∧
      ∀ n, CreatedBy past (.createInteger n) h → s.heap.read h = .ok (.integer n)) ∧
    (∀ allowance kind, (s.step allowance (.release h)).result = .ok (.released (.destroyed kind)) ↔
      IssuedAs past h kind ∧ releases past h = retains past h) ∧
    (retains past h < releases past h → ∀ more allowance operation,
      let later := s.leave more
      later.heap.isLive h = false ∧
      (operation.needs? = some h →
        (later.step allowance operation).result = .error (.staleHandle h) ∧
        (later.step allowance operation).written = [] ∧
        (later.step allowance operation).session = later)) := by
  intro past s
  have hrecorded : Lifecycle.Recorded past s.heap := Lifecycle.recorded settings script
  refine ⟨hrecorded.isLive_iff h, ?_, hrecorded.destroyed_iff h, ?_⟩
  · intro hlive
    obtain ⟨e, hfind⟩ := Option.isSome_iff_exists.mp hlive
    obtain ⟨-, hmakes, hcount, -⟩ := hrecorded.live hfind
    have hentry : s.heap.entry h = .ok e := by rw [Heap.entry, hfind]
    refine ⟨?_, ?_, ?_⟩
    · have hrefcount : e.refcount = 1 + retains past h - releases past h := by omega
      rw [Heap.refcount, hentry, ← hrefcount]
      rfl
    · intro kind hissued
      rw [Heap.kind, hentry, ← hrecorded.kind_eq hfind hissued]
      rfl
    · intro n hcreated
      have hvalue : e.value = .integer n := hmakes _ hcreated
      rw [Heap.read, hentry, Except.map, hvalue]
      rfl
  · intro hlt more allowance operation later
    have hspent : later.heap.phase h = .spent :=
      Session.phase_leave_of_spent hrecorded.sound (hrecorded.spent hlt) more
    have hstale : later.heap.find? h = none := Heap.find?_eq_none_iff.mpr (.inr hspent)
    refine ⟨?_, Lifecycle.step_of_stale hstale allowance⟩
    rw [Heap.isLive, hstale]
    rfl

end CountedHeap
