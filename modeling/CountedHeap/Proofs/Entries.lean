import CountedHeap.Settings.Load
import Mathlib.Data.List.Nodup

/-! The entries of a settings document and what they say together: each key that occurs once has its
value, every other one its standard value, and a second entry for a key is refused. -/
namespace CountedHeap.Settings

/-- A key with a value for it. -/
inductive Entry where
  | growth (policy : Text.Growth)
  | initialCapacity (n : Nat)
  | liveLimit (n : Nat)
deriving DecidableEq, Repr

namespace Entry

def key : Entry → Name
  | growth _ => Draft.growthKey
  | initialCapacity _ => Draft.initialCapacityKey
  | liveLimit _ => Draft.liveLimitKey

def value : Entry → Assigned
  | growth policy => .text policy.name.toList
  | initialCapacity n | liveLimit n => .number n

def statement (e : Entry) : Statement := .assign [e.key] e.value

def growth? : Entry → Option Text.Growth
  | growth policy => some policy
  | _ => none

def initialCapacity? : Entry → Option Nat
  | initialCapacity n => some n
  | _ => none

def liveLimit? : Entry → Option Nat
  | liveLimit n => some n
  | _ => none

end Entry

/-- What entries say of the settings, each of them once. -/
structure Tells (entries : List Entry) (s : Settings) : Prop where
  growth : ∀ policy, .growth policy ∈ entries → s.growth = policy
  initialCapacity : ∀ n, .initialCapacity n ∈ entries → s.initialCapacity = max n 1
  liveLimit : ∀ n, .liveLimit n ∈ entries → s.liveLimit = some n
  noGrowth : (∀ policy, .growth policy ∉ entries) → s.growth = .exactFit
  noInitialCapacity : (∀ n, .initialCapacity n ∉ entries) → s.initialCapacity = 1
  noLiveLimit : (∀ n, .liveLimit n ∉ entries) → s.liveLimit = none

/-- The draft that entries come to. -/
def draft (entries : List Entry) : Draft where
  scope := .root
  growth := (entries.findSome? Entry.growth?).elim .unset .settled
  initialCapacity := entries.findSome? Entry.initialCapacity?
  liveLimit := entries.findSome? Entry.liveLimit?

/-! The entry that has a key. -/

/-- A function that picks the values of one key. -/
def Picks {α : Type} (pick : Entry → Option α) (key : Name) : Prop :=
  ∀ e, pick e = none ↔ e.key ≠ key

theorem picks_growth? : Picks Entry.growth? Draft.growthKey := by
  intro e
  cases e <;> simp [Entry.growth?, Entry.key] <;> decide

theorem picks_initialCapacity? : Picks Entry.initialCapacity? Draft.initialCapacityKey := by
  intro e
  cases e <;> simp [Entry.initialCapacity?, Entry.key] <;> decide

theorem picks_liveLimit? : Picks Entry.liveLimit? Draft.liveLimitKey := by
  intro e
  cases e <;> simp [Entry.liveLimit?, Entry.key] <;> decide

section Picking

variable {α : Type} {pick : Entry → Option α} {key : Name} {entries : List Entry}

theorem Picks.findSome?_eq_none (hpicks : Picks pick key) :
    entries.findSome? pick = none ↔ key ∉ entries.map Entry.key := by
  rw [List.findSome?_eq_none_iff, List.mem_map]
  constructor
  · rintro hnone ⟨e, he, hkey⟩
    exact (hpicks e).mp (hnone e he) hkey
  · intro hkey e he
    exact (hpicks e).mpr fun h => hkey ⟨e, he, h⟩

theorem Picks.findSome?_eq_some (hpicks : Picks pick key)
    (hnodup : (entries.map Entry.key).Nodup) {e : Entry} {a : α} (he : e ∈ entries)
    (ha : pick e = some a) : entries.findSome? pick = some a := by
  have hkey : ∀ {e a}, pick e = some a → e.key = key := by
    intro e a h
    by_contra hne
    rw [(hpicks e).mpr hne] at h
    cases h
  cases hfind : entries.findSome? pick with
  | none =>
    rw [List.findSome?_eq_none_iff] at hfind
    rw [hfind e he] at ha
    cases ha
  | some b =>
    obtain ⟨d, hd, hb⟩ := List.exists_of_findSome?_eq_some hfind
    obtain rfl := List.inj_on_of_nodup_map hnodup hd he ((hkey hb).trans (hkey ha).symm)
    rw [← hb, ha]

end Picking

/-! Drafts. -/

theorem policy?_name (growth : Text.Growth) : Draft.policy? growth.name.toList = some growth := by
  rw [Draft.policy?, String.ofList_toList, Text.Growth.ofName?_name]

theorem name_of_policy? {name : Name} {growth : Text.Growth}
    (h : Draft.policy? name = some growth) : growth.name.toList = name := by
  rw [Text.Growth.name_of_ofName? h, String.toList_ofList]

theorem draft_growth_eq_unset {entries : List Entry} :
    (draft entries).growth = .unset ↔ Draft.growthKey ∉ entries.map Entry.key := by
  rw [← picks_growth?.findSome?_eq_none, draft]
  cases entries.findSome? Entry.growth? <;> simp

/-- A key that no entry can have, or one that has a value, is not assigned to, nor is a part of
it. -/
theorem assign_refused {entries : List Entry} {name : Name}
    (hname : (∀ e : Entry, e.key ≠ name) ∨ name ∈ entries.map Entry.key) (names : List Name)
    (value : Assigned) : (draft entries).add? (.assign (name :: names) value) = none := by
  have htaken : ∀ e : Entry, name = e.key → e.key ∈ entries.map Entry.key := by
    rintro e rfl
    exact hname.resolve_left fun h => h e rfl
  have hgrowth : name = Draft.growthKey → (draft entries).growth ≠ .unset := by
    intro hkey hunset
    exact draft_growth_eq_unset.mp hunset (htaken (.growth .exactFit) hkey)
  have hcapacity : name = Draft.initialCapacityKey → (draft entries).initialCapacity ≠ none := by
    intro hkey hunset
    exact picks_initialCapacity?.findSome?_eq_none.mp hunset (htaken (.initialCapacity 0) hkey)
  have hlimit : name = Draft.liveLimitKey → (draft entries).liveLimit ≠ none := by
    intro hkey hunset
    exact picks_liveLimit?.findSome?_eq_none.mp hunset (htaken (.liveLimit 0) hkey)
  have hsettle : ∀ policy, (if name = Draft.growthKey then
      (draft entries).settle? .unset policy else none) = none := by
    intro policy
    split_ifs with hkey
    · rw [Draft.settle?, if_neg (hgrowth hkey)]
    · rfl
  change (draft entries).assignRoot? (name :: names) value = none
  unfold Draft.assignRoot?
  split
  · next n hpath =>
    obtain ⟨rfl, -⟩ := List.cons.inj hpath
    rw [if_neg fun h => hcapacity h.1 h.2, if_neg fun h => hlimit h.1 h.2]
  · next policy hpath =>
    obtain ⟨rfl, -⟩ := List.cons.inj hpath
    exact hsettle policy
  · next policy hpath =>
    obtain ⟨rfl, -⟩ := List.cons.inj hpath
    exact hsettle policy
  · next policy hpath =>
    obtain ⟨rfl, -⟩ := List.cons.inj hpath
    exact hsettle policy
  · rfl

/-- An entry is added unless its key has a value. -/
theorem add?_statement (entries : List Entry) (e : Entry) :
    (draft entries).add? e.statement =
      if e.key ∈ entries.map Entry.key then none else some (draft (entries ++ [e])) := by
  by_cases hkey : e.key ∈ entries.map Entry.key
  · rw [if_pos hkey]
    exact assign_refused (.inr hkey) [] e.value
  rw [if_neg hkey]
  change (draft entries).assignRoot? [e.key] e.value = _
  cases e with
  | growth policy =>
    have hnone := picks_growth?.findSome?_eq_none.mpr hkey
    simp [Entry.key, Entry.value, Draft.assignRoot?, Draft.settle?, draft, hnone, policy?_name,
      Entry.growth?, Entry.initialCapacity?, Entry.liveLimit?]
  | initialCapacity n =>
    have hnone := picks_initialCapacity?.findSome?_eq_none.mpr hkey
    simp [Entry.key, Entry.value, Draft.assignRoot?, draft, hnone, Entry.growth?,
      Entry.initialCapacity?, Entry.liveLimit?]
  | liveLimit n =>
    have hother : Draft.liveLimitKey ≠ Draft.initialCapacityKey := by decide
    have hnone := picks_liveLimit?.findSome?_eq_none.mpr hkey
    simp [Entry.key, Entry.value, Draft.assignRoot?, draft, hnone, hother, Entry.growth?,
      Entry.initialCapacity?, Entry.liveLimit?]

/-- Entries with different keys are all added. -/
theorem foldlM_statements (done : List Entry) {entries : List Entry}
    (hnodup : ((done ++ entries).map Entry.key).Nodup) :
    (entries.map Entry.statement).foldlM Draft.add? (draft done) =
      some (draft (done ++ entries)) := by
  induction entries generalizing done with
  | nil => simp
  | cons e entries ih =>
    have hkey : e.key ∉ done.map Entry.key := by
      rw [List.map_append, List.map_cons, List.nodup_append] at hnodup
      exact fun hmem => hnodup.2.2 _ hmem _ List.mem_cons_self rfl
    rw [List.append_cons] at hnodup ⊢
    rw [List.map_cons, List.foldlM_cons, add?_statement, if_neg hkey]
    exact ih (done ++ [e]) hnodup

/-- Whatever entries are added, the draft is theirs. -/
theorem draft_of_foldlM (done : List Entry) {entries : List Entry} {d : Draft}
    (h : (entries.map Entry.statement).foldlM Draft.add? (draft done) = some d) :
    d = draft (done ++ entries) := by
  induction entries generalizing done with
  | nil =>
    obtain rfl := Option.some.inj h
    rw [List.append_nil]
  | cons e entries ih =>
    rw [List.map_cons, List.foldlM_cons, add?_statement] at h
    split_ifs at h
    · cases h
    · rw [List.append_cons]
      exact ih (done ++ [e]) h

/-- A draft of entries can always be finished. -/
theorem settings?_draft (entries : List Entry) :
    (draft entries).settings? = some
      ⟨(entries.findSome? Entry.growth?).getD .exactFit,
        max ((entries.findSome? Entry.initialCapacity?).getD 1) 1,
        entries.findSome? Entry.liveLimit?⟩ := by
  cases hgrowth : entries.findSome? Entry.growth? <;>
    simp [draft, Draft.settings?, standard, hgrowth]

theorem exists_tells {entries : List Entry} (hnodup : (entries.map Entry.key).Nodup) :
    ∃ s, Tells entries s ∧ (draft entries).settings? = some s := by
  refine ⟨_, ⟨?_, ?_, ?_, ?_, ?_, ?_⟩, settings?_draft entries⟩
  · intro policy hmem
    rw [picks_growth?.findSome?_eq_some hnodup hmem rfl, Option.getD_some]
  · intro n hmem
    rw [picks_initialCapacity?.findSome?_eq_some hnodup hmem rfl, Option.getD_some]
  · intro n hmem
    exact picks_liveLimit?.findSome?_eq_some hnodup hmem rfl
  · intro hleft
    have hnone : entries.findSome? Entry.growth? = none := by
      rw [List.findSome?_eq_none_iff]
      rintro (policy | n | n) he
      · exact absurd he (hleft policy)
      · rfl
      · rfl
    rw [hnone, Option.getD_none]
  · intro hleft
    have hnone : entries.findSome? Entry.initialCapacity? = none := by
      rw [List.findSome?_eq_none_iff]
      rintro (policy | n | n) he
      · rfl
      · exact absurd he (hleft n)
      · rfl
    rw [hnone, Option.getD_none, Nat.max_self]
  · intro hleft
    rw [List.findSome?_eq_none_iff]
    rintro (policy | n | n) he
    · rfl
    · rfl
    · exact absurd he (hleft n)

/-! What is refused. -/

/-- The initial capacity and the limit are numbers. -/
theorem number_of_add? {entries : List Entry} {name : Name} {value : Assigned} {d : Draft}
    (hname : name = Draft.initialCapacityKey ∨ name = Draft.liveLimitKey)
    (h : (draft entries).add? (.assign [name] value) = some d) : ∃ n, value = .number n := by
  have hne : name ≠ Draft.growthKey := by
    obtain rfl | rfl := hname <;> decide
  change (draft entries).assignRoot? [name] value = some d at h
  cases value with
  | number n => exact ⟨n, rfl⟩
  | text => simp [Draft.assignRoot?, hne] at h
  | hollow => cases h
  | choice => simp [Draft.assignRoot?, hne] at h

/-- A text that is assigned to the growth is the name of a policy. -/
theorem name_of_add? {entries : List Entry} {name : Name} {d : Draft}
    (h : (draft entries).add? (.assign [Draft.growthKey] (.text name)) = some d) :
    ∃ policy : Text.Growth, policy.name.toList = name := by
  change (draft entries).assignRoot? [Draft.growthKey] (.text name) = some d at h
  simp only [Draft.assignRoot?, if_true, Draft.settle?] at h
  split_ifs at h
  obtain ⟨policy, hpolicy, -⟩ := Option.map_eq_some_iff.mp h
  exact ⟨policy, name_of_policy? hpolicy⟩

end CountedHeap.Settings
