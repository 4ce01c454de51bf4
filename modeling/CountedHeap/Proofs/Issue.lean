import CountedHeap.Proofs.Step
import Mathlib.Data.Finset.Card
import Mathlib.Data.Finset.Range

/-! Which handle a creation issues, told from the creations and destructions before it. A new value
takes the slot that was vacated last, or the next new slot; and each slot gives away its generations
one after another, up to the last. The temporary texts of lines count as all other values do. -/
namespace CountedHeap

/-- The beginning and the end of a value. -/
inductive Milestone where
  | issued (h : Handle)
  | ended (h : Handle)
deriving DecidableEq, Repr

/-- The values that a step creates and destroys, in order. -/
def Moment.milestones (m : Moment) : List Milestone :=
  match m.operation, m.result with
  | .createInteger _, .ok (.handle h) => [.issued h]
  | .createText, .ok (.handle h) => [.issued h]
  | .release h, .ok (.released (.destroyed _)) => [.ended h]
  | .readLine, _ =>
    match (m.before.heap.createText m.allowance).result with
    | .error _ => []
    | .ok line =>
      let assembly := m.before.heap.assembleLine m.allowance line m.before.input
      match (assembly.heap.release line).result with
      | .ok (.destroyed _) => [.issued line, .ended line]
      | _ => [.issued line]
  | _, _ => []

def milestones (past : List Moment) : List Milestone := past.flatMap Moment.milestones

namespace Issue

def handles (t : List Milestone) : List Handle :=
  t.filterMap fun
    | .issued h => some h
    | .ended _ => none

/-- The generations of a slot in the order in which they were issued. -/
def generations (t : List Milestone) (i : Nat) : List Nat :=
  ((handles t).filter fun h => h.index = i).map Handle.generation

/-- How many slots were ever issued. -/
def slotsUsed (t : List Milestone) : Nat := ((handles t).map Handle.index).toFinset.card

/-- The slots of the destroyed values, the last one first, but neither those that were issued again
since nor those whose last generation is over. -/
def vacated : List Milestone → List Nat
  | [] => []
  | .issued _ :: rest => vacated rest
  | .ended h :: rest =>
    if h.generation ≠ Heap.lastGeneration ∧ ∀ g ∈ handles rest, g.index ≠ h.index then
      vacated rest ++ [h.index]
    else vacated rest

@[simp] theorem handles_append (t u : List Milestone) : handles (t ++ u) = handles t ++ handles u :=
  List.filterMap_append

@[simp] theorem handles_issued (h : Handle) : handles [.issued h] = [h] := rfl

@[simp] theorem handles_ended (h : Handle) : handles [.ended h] = [] := rfl

theorem mem_generations {t : List Milestone} {i g : Nat} :
    g ∈ generations t i ↔ ⟨i, g⟩ ∈ handles t := by
  simp only [generations, List.mem_map, List.mem_filter, decide_eq_true_eq]
  constructor
  · rintro ⟨h, ⟨hmem, rfl⟩, rfl⟩
    exact hmem
  · intro hmem
    exact ⟨_, ⟨hmem, rfl⟩, rfl⟩

theorem generations_issued (t : List Milestone) (h : Handle) (i : Nat) :
    generations (t ++ [.issued h]) i =
      if h.index = i then generations t i ++ [h.generation] else generations t i := by
  split
  · next hindex => simp [generations, hindex]
  · next hindex => simp [generations, hindex]

theorem vacated_issued (t : List Milestone) (h : Handle) :
    vacated (t ++ [.issued h]) = (vacated t).filter (· ≠ h.index) := by
  induction t with
  | nil => rfl
  | cons milestone t ih =>
    cases milestone with
    | issued g => exact ih
    | ended g =>
      have hsince : (∀ f ∈ handles (t ++ [.issued h]), f.index ≠ g.index) ↔
          (∀ f ∈ handles t, f.index ≠ g.index) ∧ h.index ≠ g.index := by
        simp [or_imp, forall_and]
      simp only [List.cons_append, vacated, ih, hsince, ← and_assoc]
      by_cases hkept : g.generation ≠ Heap.lastGeneration ∧ ∀ f ∈ handles t, f.index ≠ g.index
      · rw [if_pos hkept, List.filter_append]
        by_cases hindex : h.index = g.index
        · rw [if_neg fun h => h.2 hindex]
          simp [hindex]
        · rw [if_pos ⟨hkept, hindex⟩]
          simp [Ne.symm hindex]
      · rw [if_neg hkept, if_neg fun h => hkept h.1]

theorem vacated_ended (t : List Milestone) (h : Handle) :
    vacated (t ++ [.ended h]) =
      if h.generation = Heap.lastGeneration then vacated t else h.index :: vacated t := by
  induction t with
  | nil => simp [vacated, handles]
  | cons milestone t ih =>
    cases milestone with
    | issued g => exact ih
    | ended g =>
      simp only [List.cons_append, vacated, ih, handles_append, handles_ended, List.append_nil]
      split <;> split <;> rfl

end Issue

def Change.milestones : Change → List Milestone
  | create h _ => [.issued h]
  | destroy h => [.ended h]
  | _ => []

theorem Moment.milestones_of_quiet {m : Moment} (hquiet : m.Quiet) (hop : m.operation ≠ .readLine) :
    m.milestones = [] := by
  unfold milestones
  split
  · next h _ hresult => exact absurd hresult (hquiet h).1
  · next h _ hresult => exact absurd hresult (hquiet h).1
  · next h _ hrelease hresult =>
    obtain ⟨fault, herror⟩ := (hquiet h).2 (.inr hrelease)
    cases hresult.symm.trans herror
  · next hline => exact absurd hline hop
  · rfl

theorem Moment.Amounts.milestones_eq {m : Moment} {changes : List Change}
    (hamounts : m.Amounts changes) : changes.flatMap Change.milestones = m.milestones := by
  cases hamounts with
  | createInteger hop hresult | createText hop hresult | retain hop hresult | release hop hresult
  | destroy hop hresult => simp [Change.milestones, Moment.milestones, hop, hresult]
  | write hquiet hop => exact (Moment.milestones_of_quiet hquiet hop).symm
  | line hquiet hop hline hrelease =>
    simp [Change.milestones, Moment.milestones, hop, hline, hrelease]
  | nothing hquiet hline =>
    by_cases hop : m.operation = .readLine
    · obtain ⟨fault, hrefused⟩ := hline hop
      simp [Moment.milestones, hop, hrefused]
    · exact (Moment.milestones_of_quiet hquiet hop).symm

namespace Heap

/-- The first generation of a slot is unborn as long as there is no such slot. -/
theorem Sound.unborn_zero_iff {s : Heap} (hs : s.Sound) {i : Nat} :
    s.phase ⟨i, 0⟩ = .unborn ↔ s.slots.length ≤ i := by
  constructor
  · intro hunborn
    by_contra hlt
    have hslot := List.getElem?_eq_getElem (Nat.lt_of_not_le hlt)
    rw [phase_eq hslot] at hunborn
    have hfits := hs.fits _ _ hslot
    generalize s.slots[i] = slot at hunborn hfits
    cases hfits with
    | @occupied g e => cases g <;> cases hunborn
    | free | retired => cases hunborn
  · intro hle
    exact phase_of_no_slot (List.getElem?_eq_none hle)

/-- No slot gives away a generation beyond the last. -/
theorem Sound.unborn_of_gt {s : Heap} (hs : s.Sound) {h : Handle}
    (hgt : lastGeneration < h.generation) :
    s.phase h = .unborn := by
  cases hslot : s.slots[h.index]? with
  | none => exact phase_of_no_slot hslot
  | some slot =>
    have hle := (hs.fits _ _ hslot).generation_le
    rw [phase_eq hslot, Slot.phase_of_ne _ (by omega), if_neg (by omega)]

/-- A slot gives away its generations one after another. -/
theorem Changes.unborn_create_iff {s t : Heap} {h : Handle} {value : Value}
    (hc : Changes s (.create h value) t) (hs : s.Sound) (g : Nat) :
    s.phase ⟨h.index, g⟩ = .unborn ↔ h.generation ≤ g := by
  obtain ⟨hslot, hnew, -⟩ | ⟨hslot, -, hfree⟩ := slot_before_create hc hs
  · rw [phase_of_no_slot (h := ⟨h.index, g⟩) hslot, hnew]
    simp
  · rw [phase_eq (h := ⟨h.index, g⟩) hslot]
    have hcontains : s.free.contains h.index = true := by simp [hfree]
    rcases Nat.lt_trichotomy g h.generation with hlt | rfl | hgt
    · rw [Slot.phase_of_ne _ (Nat.ne_of_lt hlt), if_pos hlt]
      simp [hlt]
    · rw [hcontains]
      simp [Slot.phase]
    · rw [Slot.phase_of_ne _ (Nat.ne_of_gt hgt), if_neg (Nat.not_lt_of_gt hgt)]
      simp [Nat.le_of_lt hgt]

/-- Only a creation gives away a handle. -/
theorem Changes.unborn_iff {s t : Heap} {c : Change} (hc : Changes s c t) (hs : s.Sound)
    (hcreate : ∀ h value, c ≠ .create h value) (h : Handle) :
    t.phase h = .unborn ↔ s.phase h = .unborn := by
  by_cases hne : h = c.handle
  · subst hne
    cases c with
    | create h value => exact absurd rfl (hcreate h value)
    | retain h =>
      obtain ⟨e, hbefore, hafter⟩ := hc.retain_phase
      simp [Change.handle, hbefore, hafter]
    | release h =>
      obtain ⟨e, -, hbefore, hafter⟩ := hc.release_phase
      simp [Change.handle, hbefore, hafter]
    | destroy h =>
      obtain ⟨e, -, hbefore, hafter⟩ := hc.destroy_phase hs
      simp [Change.handle, hbefore, hafter]
    | write h buffer =>
      obtain ⟨n, old, hbefore, hafter⟩ := hc.write_phase
      simp [Change.handle, hbefore, hafter]
  · rw [hc.phase_other hs hne]

end Heap

namespace Issue

/-- The heap keeps its table and its free list as the milestones of its past say. -/
structure Traced (t : List Milestone) (s : Heap) : Prop where
  sound : s.Sound
  issues : ∀ i, ∃ n, generations t i = List.range n ∧ ∀ g, s.phase ⟨i, g⟩ = .unborn ↔ n ≤ g
  free : s.free = vacated t
  ended : ∀ past h rest, t = past ++ .ended h :: rest → h ∈ handles past
  issued : ∀ past h rest, t = past ++ .issued h :: rest →
    h.index = (vacated past).head?.getD (slotsUsed past)

theorem Traced.mem_handles_iff {t : List Milestone} {s : Heap} (ht : Traced t s) {h : Handle} :
    h ∈ handles t ↔ s.phase h ≠ .unborn := by
  obtain ⟨n, hgenerations, hunborn⟩ := ht.issues h.index
  have hmem := mem_generations (t := t) (i := h.index) (g := h.generation)
  rw [hgenerations, List.mem_range] at hmem
  rw [← hmem, Ne, hunborn, Nat.not_le]

theorem Traced.generations_le {t : List Milestone} {s : Heap} (ht : Traced t s) (i : Nat) :
    ∃ n ≤ Heap.lastGeneration + 1, generations t i = List.range n := by
  obtain ⟨n, hgenerations, hunborn⟩ := ht.issues i
  have hlast := ht.sound.unborn_of_gt (h := ⟨i, Heap.lastGeneration + 1⟩) (Nat.lt_succ_self _)
  exact ⟨n, (hunborn _).mp hlast, hgenerations⟩

/-- The slots of the table are those that were ever issued. -/
theorem Traced.slotsUsed_eq {t : List Milestone} {s : Heap} (ht : Traced t s) :
    slotsUsed t = s.slots.length := by
  have hused : ((handles t).map Handle.index).toFinset = Finset.range s.slots.length := by
    ext i
    rw [List.mem_toFinset, List.mem_map, Finset.mem_range]
    constructor
    · rintro ⟨h, hmem, rfl⟩
      by_contra hge
      exact ht.mem_handles_iff.mp hmem
        (Heap.phase_of_no_slot (List.getElem?_eq_none (Nat.le_of_not_lt hge)))
    · intro hlt
      refine ⟨⟨i, 0⟩, ht.mem_handles_iff.mpr ?_, rfl⟩
      rw [Ne, ht.sound.unborn_zero_iff]
      exact Nat.not_le_of_lt hlt
  rw [slotsUsed, hused, Finset.card_range]

/-- A milestone of a longer past is the last one, or one of the shorter past. -/
theorem eq_snoc_cases {t past rest : List Milestone} {last milestone : Milestone}
    (heq : t ++ [last] = past ++ milestone :: rest) :
    (past = t ∧ milestone = last) ∨ ∃ rest', t = past ++ milestone :: rest' := by
  rcases List.eq_nil_or_concat rest with rfl | ⟨rest', final, rfl⟩
  · obtain ⟨rfl, hlast⟩ := List.append_inj' heq rfl
    exact .inl ⟨rfl, (List.cons.inj hlast).1.symm⟩
  · rw [List.concat_eq_append, ← List.cons_append, ← List.append_assoc] at heq
    exact .inr ⟨rest', List.append_inj_left' heq rfl⟩

theorem Traced.create {t : List Milestone} {s u : Heap} {h : Handle} {value : Value}
    (ht : Traced t s) (hc : s.Changes (.create h value) u) : Traced (t ++ [.issued h]) u := by
  obtain ⟨-, hlive⟩ := hc.create_phase ht.sound
  refine ⟨hc.sound ht.sound, ?_, ?_, ?_, ?_⟩
  · intro i
    obtain ⟨n, hgenerations, hunborn⟩ := ht.issues i
    by_cases hindex : h.index = i
    · subst hindex
      -- The slot is at the generation that it gives away: n, as all before it were issued.
      have hn : n = h.generation := by
        have hiff := fun g => (hunborn g).symm.trans (hc.unborn_create_iff ht.sound g)
        exact Nat.le_antisymm ((hiff _).mpr (Nat.le_refl _)) ((hiff _).mp (Nat.le_refl _))
      refine ⟨n + 1, ?_, ?_⟩
      · rw [generations_issued, if_pos rfl, hgenerations, List.range_succ, hn]
      · intro g
        by_cases hg : g = h.generation
        · subst hg
          rw [hlive, hn]
          simp
        · have hother := hc.phase_other ht.sound (h := ⟨h.index, g⟩)
            fun heq => hg (congrArg Handle.generation heq)
          rw [hother, hunborn]
          omega
    · refine ⟨n, ?_, ?_⟩
      · rw [generations_issued, if_neg hindex, hgenerations]
      · intro g
        have hother := hc.phase_other ht.sound (h := ⟨i, g⟩)
          fun heq => hindex (congrArg Handle.index heq).symm
        rw [hother, hunborn]
  · rw [vacated_issued, ← ht.free]
    obtain ⟨-, -, hnone⟩ | ⟨-, -, hfree⟩ := Heap.slot_before_create hc ht.sound
    · rw [hc.free_create, hnone]
      rfl
    · -- The slot was on the free list once, so that taking it off leaves the others.
      have hnodup := ht.sound.nodup_free
      rw [hfree, List.nodup_cons] at hnodup
      rw [hfree, List.filter_cons_of_neg (by simp), List.filter_eq_self.mpr]
      rintro i hi
      simp only [decide_eq_true_eq]
      rintro rfl
      exact hnodup.1 hi
  · intro past g rest heq
    obtain ⟨-, hlast⟩ | ⟨rest', ht'⟩ := eq_snoc_cases heq
    · cases hlast
    · exact ht.ended past g rest' ht'
  · intro past g rest heq
    obtain ⟨rfl, hlast⟩ | ⟨rest', ht'⟩ := eq_snoc_cases heq
    · obtain rfl := Milestone.issued.inj hlast
      rw [← ht.free, ht.slotsUsed_eq]
      obtain ⟨-, hnew, hnone⟩ | ⟨-, -, hfree⟩ := Heap.slot_before_create hc ht.sound
      · rw [hnone, hnew]
        rfl
      · rw [hfree]
        rfl
    · exact ht.issued past g rest' ht'

theorem Traced.destroy {t : List Milestone} {s u : Heap} {h : Handle} (ht : Traced t s)
    (hc : s.Changes (.destroy h) u) : Traced (t ++ [.ended h]) u := by
  obtain ⟨e, -, hlive, -⟩ := hc.destroy_phase ht.sound
  refine ⟨hc.sound ht.sound, ?_, ?_, ?_, ?_⟩
  · intro i
    obtain ⟨n, hgenerations, hunborn⟩ := ht.issues i
    refine ⟨n, ?_, ?_⟩
    · simpa [generations] using hgenerations
    · intro g
      rw [hc.unborn_iff ht.sound (by nofun), hunborn]
  · rw [vacated_ended, ← ht.free]
    cases hc with
    | @destroy _ e hfind =>
      simp only [Heap.free_vacate, ht.sound.exhausted_iff hfind]
  · intro past g rest heq
    obtain ⟨rfl, hlast⟩ | ⟨rest', ht'⟩ := eq_snoc_cases heq
    · obtain rfl := Milestone.ended.inj hlast
      rw [ht.mem_handles_iff, hlive]
      nofun
    · exact ht.ended past g rest' ht'
  · intro past g rest heq
    obtain ⟨-, hlast⟩ | ⟨rest', ht'⟩ := eq_snoc_cases heq
    · cases hlast
    · exact ht.issued past g rest' ht'

/-- A change that is no milestone leaves the free list and the unborn handles alone. -/
theorem Traced.unmarked {t : List Milestone} {s u : Heap} {c : Change} (ht : Traced t s)
    (hc : s.Changes c u) (hcreate : ∀ h value, c ≠ .create h value) (hfree : u.free = s.free) :
    Traced t u := by
  refine ⟨hc.sound ht.sound, ?_, ?_, ht.ended, ht.issued⟩
  · intro i
    obtain ⟨n, hgenerations, hunborn⟩ := ht.issues i
    refine ⟨n, hgenerations, ?_⟩
    intro g
    rw [hc.unborn_iff ht.sound hcreate, hunborn]
  · rw [hfree, ht.free]

theorem Traced.change {t : List Milestone} {s u : Heap} {c : Change} (ht : Traced t s)
    (hc : s.Changes c u) : Traced (t ++ c.milestones) u := by
  cases c with
  | create h value => exact ht.create hc
  | destroy h => exact ht.destroy hc
  | retain h | release h | write h buffer =>
    simp only [Change.milestones, List.append_nil]
    refine ht.unmarked hc (by nofun) ?_
    cases hc
    rfl

theorem Traced.path {t : List Milestone} {s u : Heap} {changes : List Change} (ht : Traced t s)
    (hpath : s.Path changes u) : Traced (t ++ changes.flatMap Change.milestones) u := by
  induction hpath generalizing t with
  | nil => simpa using ht
  | cons hfirst _ ih =>
    rw [List.flatMap_cons, ← List.append_assoc]
    exact ih (ht.change hfirst)

theorem traced_ofSettings (settings : Settings) : Traced [] (Heap.ofSettings settings) := by
  refine ⟨Heap.sound_ofSettings settings, ?_, rfl, ?_, ?_⟩
  · intro i
    refine ⟨0, rfl, ?_⟩
    intro g
    have hunborn := Heap.phase_of_no_slot (s := Heap.ofSettings settings) (h := ⟨i, g⟩) rfl
    simp [hunborn]
  · intro past h rest heq
    simp at heq
  · intro past h rest heq
    simp at heq

theorem traced_leave (settings : Settings) (script : List (Allowance × Operation)) :
    Traced (milestones ((Session.ofSettings settings).history script))
      ((Session.ofSettings settings).leave script).heap := by
  refine Session.keeps (P := fun past s => Traced (milestones past) s.heap) ?_ script [] _
    (traced_ofSettings settings)
  intro past m ht
  obtain ⟨changes, hamounts, hpath⟩ := m.amounts ht.sound
  have hpast : milestones (past ++ [m]) = milestones past ++ changes.flatMap Change.milestones := by
    rw [hamounts.milestones_eq]
    simp [milestones]
  rw [hpast]
  exact ht.path hpath

/-- No handle is issued twice. -/
theorem Traced.nodup_handles {t : List Milestone} {s : Heap} (ht : Traced t s) :
    (handles t).Nodup := by
  rw [List.nodup_iff_count_le_one]
  intro h
  obtain ⟨n, hgenerations, -⟩ := ht.issues h.index
  have hcount : (handles t).count h ≤ (generations t h.index).count h.generation := by
    rw [← List.count_filter (p := fun g : Handle => g.index = h.index) (by simp)]
    exact List.count_le_count_map
  rw [hgenerations] at hcount
  exact hcount.trans (List.nodup_iff_count_le_one.mp List.nodup_range _)

/-- A slot whose last generation is over is never issued again. -/
theorem Traced.not_issued_again {t : List Milestone} {s : Heap} (ht : Traced t s)
    {past rest : List Milestone} {h : Handle} (heq : t = past ++ .ended h :: rest)
    (hlast : h.generation = Heap.lastGeneration) : ∀ g ∈ handles rest, g.index ≠ h.index := by
  intro g hg hindex
  obtain ⟨n, hle, hgenerations⟩ := ht.generations_le h.index
  have hsplit : generations t h.index = generations past h.index ++ generations rest h.index := by
    rw [heq]
    simp [generations, handles]
  have hearlier : h.generation ∈ generations past h.index :=
    mem_generations.mpr (ht.ended past h rest heq)
  have hlater : g.generation ∈ generations rest h.index := by
    rw [← hindex]
    exact mem_generations.mpr hg
  have hrising := List.pairwise_lt_range (n := n)
  rw [← hgenerations, hsplit, List.pairwise_append] at hrising
  have hgt := hrising.2.2 _ hearlier _ hlater
  have hlt : g.generation < n := by
    rw [← List.mem_range, ← hgenerations, hsplit]
    exact List.mem_append_right _ hlater
  omega

end Issue

/-- The issue of handles in every run. A creation takes the slot that was vacated last or, if there
is none, the next new slot; a slot gives away the generations 0, 1, 2 and so on, up to the last one.
So no handle is issued twice, and a slot is not used again after its last generation. -/
theorem issue_law (settings : Settings) (script : List (Allowance × Operation)) :
    let t := milestones ((Session.ofSettings settings).history script)
    (∀ past h rest, t = past ++ .issued h :: rest →
      h.index = (Issue.vacated past).head?.getD (Issue.slotsUsed past)) ∧
    (∀ i, ∃ n ≤ Heap.lastGeneration + 1, Issue.generations t i = List.range n) ∧
    (Issue.handles t).Nodup ∧
    (∀ past h rest, t = past ++ .ended h :: rest → h.generation = Heap.lastGeneration →
      ∀ g ∈ Issue.handles rest, g.index ≠ h.index) ∧
    ((Session.ofSettings settings).leave script).heap.free = Issue.vacated t ∧
    ((Session.ofSettings settings).leave script).heap.slots.length = Issue.slotsUsed t := by
  intro t
  have ht : Issue.Traced t _ := Issue.traced_leave settings script
  refine ⟨ht.issued, ht.generations_le, ht.nodup_handles, ?_, ht.free, ht.slotsUsed_eq.symm⟩
  intro past h rest heq hlast
  exact ht.not_issued_again heq hlast

/-- The temporary text of a line takes the slot that was vacated last, and gives it back. -/
example : milestones ((Session.ofSettings Settings.standard).history [(.ample, .createInteger 1),
    (.ample, .createInteger 2), (.ample, .release ⟨0, 0⟩), (.ample, .readLine),
    (.ample, .createText)]) =
      [.issued ⟨0, 0⟩, .issued ⟨1, 0⟩, .ended ⟨0, 0⟩, .issued ⟨0, 1⟩, .ended ⟨0, 1⟩,
        .issued ⟨0, 2⟩] := by decide

end CountedHeap
