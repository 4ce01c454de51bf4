import CountedHeap.Proofs.Logging
import CountedHeap.Proofs.Tenancy

/-! The log as an audit trail. The lines of a run tell how many values were created and destroyed,
which handles are live and how many owners each has, and which slots are retired. It is enough to
read for each handle the lines on its account. -/
namespace CountedHeap

/-- All that was logged in the past. -/
def logged (past : List Moment) : List Event := past.flatMap fun m => m.report.log

/-- The lines of the log. -/
def trail (past : List Moment) : List String := (logged past).map Event.text

/-- The lines on the account of a handle. -/
def account (lines : List String) (h : Handle) : List String := lines.filter (Line.onAccount h)

/-- What an account comes to. -/
inductive Balance where
  | unopened
  | opened (owners : Nat)
  | closed
deriving DecidableEq, Repr

/-- The accounts that are in order. The value is created with one owner; then each line takes one
on, or one but the last off; and with its last owner the value is destroyed. -/
inductive Account (h : Handle) : List String → Balance → Prop
  | unopened : Account h [] .unopened
  | created (kind : Kind) : Account h ["Created " ++ kind.name ++ " value " ++ h.render] (.opened 1)
  | retained {lines : List String} {n : Nat} (hopened : Account h lines (.opened n)) :
      Account h (lines ++ ["Retained " ++ h.render ++ s!" (refcount {n + 1})"]) (.opened (n + 1))
  | released {lines : List String} {n : Nat} (hopened : Account h lines (.opened (n + 1)))
      (hpos : 0 < n) :
      Account h (lines ++ ["Released " ++ h.render ++ s!" (refcount {n})"]) (.opened n)
  | destroyed {lines : List String} {line : String} (hopened : Account h lines (.opened 1))
      (hend : Line.begins "Destroyed " line = true) : Account h (lines ++ [line]) .closed

/-- The account was opened and not closed. -/
def inForce (lines : List String) (h : Handle) : Bool :=
  (account lines h).any (Line.begins "Created ") &&
    !(account lines h).any (Line.begins "Destroyed ")

/-- The last number of owners on an account; one if no line gives any. -/
def lastCount (lines : List String) (h : Handle) : Nat :=
  ((account lines h).filterMap Line.refcount?).getLast?.getD 1

/-- The warning due after these lines: a step takes an owner on or off a handle whose account is not
open. -/
def Moment.warnings (m : Moment) (lines : List String) : List Log.Record :=
  match m.operation with
  | .retain h => if inForce lines h then [] else [(Event.staleRetain h).record]
  | .release h => if inForce lines h then [] else [(Event.staleRelease h).record]
  | _ => []

/-- The line that retires a slot. -/
def retirement (i : Nat) : String := s!"Retiring slot {i} after generation exhaustion"

/-- The line tells of the end of a value in this slot. -/
def EndsIn (i : Nat) (line : String) : Prop :=
  Line.begins "Destroyed " line = true ∧
    ∃ h : Handle, h.index = i ∧ Line.handle line = h.render.toList

/-- Each line that retires a slot comes right before the end of a value in this slot. -/
def Followed (t : List Event) : Prop :=
  ∀ before i after, t = before ++ .retired i :: after →
    ∃ h value rest, h.index = i ∧ after = Event.destroyed h value :: rest

def Phase.balance : Phase → Balance
  | unborn => .unopened
  | live e => .opened e.refcount
  | spent => .closed

namespace Event

theorem eq_retired_of_text {e : Event} {i : Nat} (h : e.text = retirement i) : e = .retired i :=
  eq_of_text (e := .retired i) nofun h

theorem account?_destroyed (h : Handle) (value : Value) :
    (Event.destroyed h value).account? = some h := by
  cases value <;> rfl

theorem begins_text_destroyed (h : Handle) (value : Value) :
    Line.begins "Destroyed " (Event.destroyed h value).text = true := by
  rw [begins_destroyed]
  cases value <;> rfl

end Event

theorem logged_append (past : List Moment) (m : Moment) :
    logged (past ++ [m]) = logged past ++ m.report.log := by
  simp [logged]

namespace Account

variable {h : Handle} {lines : List String} {balance : Balance}

theorem eq_nil_iff (haccount : Account h lines balance) : lines = [] ↔ balance = .unopened := by
  cases haccount <;> simp

/-- The lines of the accounts are lines of events, and are read as such. -/
theorem any_snoc {words : String} {p : Event.Topic → Bool}
    (hbegins : ∀ e : Event, Line.begins words e.text = p e.topic) (lines : List String)
    (e : Event) :
    (lines ++ [e.text]).any (Line.begins words) =
      (lines.any (Line.begins words) || p e.topic) := by
  rw [List.any_append, List.any_cons, List.any_nil, Bool.or_false, hbegins]

theorem any_created (haccount : Account h lines balance) :
    lines.any (Line.begins "Created ") = true ↔ balance ≠ .unopened := by
  induction haccount with
  | unopened => simp
  | created kind =>
    have hline := any_snoc Event.begins_created [] (.created kind h)
    exact iff_of_true hline nofun
  | retained _ ih | released _ _ ih | destroyed _ _ ih =>
    refine iff_of_true ?_ nofun
    rw [List.any_append, ih.mpr nofun, Bool.true_or]

theorem any_destroyed (haccount : Account h lines balance) :
    lines.any (Line.begins "Destroyed ") = true ↔ balance = .closed := by
  induction haccount with
  | unopened => simp
  | created kind =>
    have hline := any_snoc Event.begins_destroyed [] (.created kind h)
    exact iff_of_false (Bool.eq_false_iff.mp hline) nofun
  | @retained lines n _ ih =>
    have hline := any_snoc Event.begins_destroyed lines (.retained h (n + 1))
    rw [Bool.eq_false_iff.mpr (mt ih.mp nofun)] at hline
    exact iff_of_false (Bool.eq_false_iff.mp hline) nofun
  | @released lines n _ _ ih =>
    have hline := any_snoc Event.begins_destroyed lines (.released h n)
    rw [Bool.eq_false_iff.mpr (mt ih.mp nofun)] at hline
    exact iff_of_false (Bool.eq_false_iff.mp hline) nofun
  | destroyed _ hend =>
    refine iff_of_true ?_ rfl
    rw [List.any_append, List.any_cons, hend, Bool.true_or, Bool.or_true]

theorem getLast?_snoc {e : Event} {n : Nat} (hcount : e.refcount? = some n) (lines : List String) :
    ((lines ++ [e.text]).filterMap Line.refcount?).getLast?.getD 1 = n := by
  rw [List.filterMap_append, List.filterMap_cons_some (e.refcount?_text.trans hcount),
    List.filterMap_nil, List.getLast?_concat, Option.getD_some]

theorem getLast?_refcount (haccount : Account h lines balance) {n : Nat}
    (hopened : balance = .opened n) : (lines.filterMap Line.refcount?).getLast?.getD 1 = n := by
  cases haccount with
  | unopened => cases hopened
  | created kind =>
    cases hopened
    have hnone : Line.refcount? (Event.created kind h).text = none := Event.refcount?_text _
    exact congrArg (·.getLast?.getD 1) (List.filterMap_cons_none hnone)
  | @retained lines m =>
    cases hopened
    exact getLast?_snoc (e := .retained h (m + 1)) rfl lines
  | @released lines _ _ =>
    cases hopened
    exact getLast?_snoc (e := .released h n) rfl lines
  | destroyed => cases hopened

end Account

/-! The accounts of what was logged. -/

theorem account_append (first second : List String) (h : Handle) :
    account (first ++ second) h = account first h ++ account second h := List.filter_append ..

theorem account_map (t : List Event) (h : Handle) :
    account (t.map Event.text) h = (t.filter (·.account? = some h)).map Event.text := by
  rw [account, List.filter_map]
  congr 1
  apply List.filter_congr
  intro e _
  exact e.onAccount_text h

theorem account_own {e : Event} {h : Handle} (hown : e.account? = some h) :
    account ([e].map Event.text) h = [e.text] := by
  rw [account_map, List.filter_cons_of_pos (by simpa using hown)]
  rfl

theorem account_other {e : Event} {g h : Handle} (howner : e.account? = some h) (hne : g ≠ h) :
    account ([e].map Event.text) g = [] := by
  rw [account_map, List.filter_cons_of_neg (by simpa [howner] using hne.symm)]
  rfl

theorem account_none {e : Event} (hnone : e.account? = none) (h : Handle) :
    account ([e].map Event.text) h = [] := by
  rw [account_map, List.filter_cons_of_neg (by simp [hnone])]
  rfl

/-! Retirements and the ends behind them. -/

theorem Followed.of_not_mem {t : List Event} (hnone : ∀ i, Event.retired i ∉ t) : Followed t := by
  rintro before i after rfl
  exact absurd (List.mem_append_right before List.mem_cons_self) (hnone i)

theorem Followed.append {t u : List Event} (ht : Followed t) (hu : Followed u) :
    Followed (t ++ u) := by
  intro before i after heq
  -- The retirement stands in the second part, or in the first and its successor with it.
  obtain ⟨middle, rfl, hsecond⟩ | ⟨middle, hfirst, hrest⟩ := List.append_eq_append_iff.mp heq
  · exact hu middle i after hsecond
  · cases middle with
    | nil => exact hu [] i after hrest.symm
    | cons e middle =>
      obtain ⟨rfl, rfl⟩ := List.cons.inj hrest
      obtain ⟨h, value, rest, hindex, rfl⟩ := ht before i middle hfirst
      exact ⟨h, value, rest ++ u, hindex, rfl⟩

theorem followed_farewell (h : Handle) (value : Value) : Followed (Heap.farewell h value) := by
  have hlast : ∀ i, Event.retired i ∉ [Event.destroyed h value] := by
    cases value <;> simp [Event.destroyed]
  unfold Heap.farewell
  split
  · intro before i after heq
    cases before with
    | nil =>
      obtain ⟨hretired, rfl⟩ := List.cons.inj heq
      exact ⟨h, value, [], Event.retired.inj hretired, rfl⟩
    | cons e before =>
      obtain ⟨-, htail⟩ := List.cons.inj heq
      exact Followed.of_not_mem hlast before i after htail
  · exact .of_not_mem hlast

namespace Heap

variable {s t : Heap} {events : List Event}

theorem Logs.followed (hlogs : s.Logs events t) : Followed events := by
  induction hlogs with
  | nothing | written | created | retained | released | assembled => exact .of_not_mem (by simp)
  | destroyed => exact followed_farewell _ _
  | append _ _ ihfirst ihsecond => exact ihfirst.append ihsecond

/-! What the log counts. -/

theorem account_farewell (h g : Handle) (value : Value) :
    account ((farewell h value).map Event.text) g =
      account ([Event.destroyed h value].map Event.text) g := by
  unfold farewell
  split
  · rw [account_map, account_map]
    rfl
  · rfl

theorem count_farewell (h : Handle) (value : Value) (i : Nat) :
    (farewell h value).count (.retired i) = if exhausted h = true ∧ h.index = i then 1 else 0 := by
  have hend : (Event.destroyed h value == Event.retired i) = false := by cases value <;> rfl
  unfold farewell
  split
  · next hlast => simp [List.count_cons, hend, hlast]
  · next hlast => simp [List.count_cons, hend, hlast]

theorem countP_farewell (h : Handle) (value : Value) :
    (farewell h value).countP (·.topic.creates) = 0 ∧
      (farewell h value).countP (·.topic.destroys) = 1 := by
  unfold farewell
  cases value <;> split <;> exact ⟨rfl, rfl⟩

/-- The counters tell the lines that begin and end a value. -/
theorem Logs.counters (hlogs : s.Logs events t) :
    t.counters.created = s.counters.created + events.countP (·.topic.creates) ∧
      t.counters.destroyed = s.counters.destroyed + events.countP (·.topic.destroys) := by
  induction hlogs with
  | nothing | assembled => exact ⟨rfl, rfl⟩
  | created hc =>
    rw [hc.counters_create]
    exact ⟨rfl, rfl⟩
  | retained hc | released hc | written hc =>
    cases hc
    exact ⟨rfl, rfl⟩
  | @destroyed _ _ h e hc =>
    obtain ⟨hcreates, hdestroys⟩ := countP_farewell h e.value
    rw [hcreates, hdestroys]
    cases hc
    exact ⟨rfl, rfl⟩
  | append _ _ ihfirst ihsecond =>
    rw [List.countP_append, List.countP_append]
    omega

/-- A line for a change of another handle leaves an account as it is. -/
theorem Changes.account_kept {c : Change} (hc : Changes s c t) (hs : s.Sound) {g : Handle}
    {first second : List String} (hne : g ≠ c.handle) (hnone : second = [])
    (haccount : Account g first (s.phase g).balance) :
    Account g (first ++ second) (t.phase g).balance := by
  rw [hnone, List.append_nil, hc.phase_other hs hne]
  exact haccount

/-- The log keeps the accounts of all handles in order, and they come to the phases that the handles
are in. -/
theorem Logs.account (hlogs : s.Logs events t) (hs : s.Sound) {g : Handle} {lines : List String}
    (haccount : Account g lines (s.phase g).balance) :
    Account g (lines ++ account (events.map Event.text) g) (t.phase g).balance := by
  induction hlogs generalizing lines with
  | nothing =>
    change Account g (lines ++ []) _
    rw [List.append_nil]
    exact haccount
  | assembled =>
    rw [account_none rfl, List.append_nil]
    exact haccount
  | @created _ _ h value hc =>
    by_cases hne : g = h
    · subst hne
      obtain ⟨hunborn, hlive⟩ := hc.create_phase hs
      rw [hunborn] at haccount
      obtain rfl := haccount.eq_nil_iff.mpr rfl
      rw [account_own rfl, hlive]
      exact .created value.kind
    · exact hc.account_kept hs hne (account_other rfl hne) haccount
  | @retained _ _ h e hc hfind =>
    by_cases hne : g = h
    · subst hne
      obtain ⟨old, hbefore, hafter⟩ := hc.retain_phase
      obtain rfl : e = old := Option.some.inj (hfind.symm.trans (phase_eq_live_iff.mp hbefore))
      rw [hbefore] at haccount
      rw [account_own rfl, hafter]
      exact .retained haccount
    · exact hc.account_kept hs hne (account_other rfl hne) haccount
  | @released _ _ h e hc hfind =>
    by_cases hne : g = h
    · subst hne
      obtain ⟨old, hshared, hbefore, hafter⟩ := hc.release_phase
      obtain rfl : e = old := Option.some.inj (hfind.symm.trans (phase_eq_live_iff.mp hbefore))
      have hcount : e.refcount - 1 + 1 = e.refcount := by omega
      rw [hbefore, Phase.balance, ← hcount] at haccount
      rw [account_own rfl, hafter]
      exact .released haccount (by omega)
    · exact hc.account_kept hs hne (account_other rfl hne) haccount
  | @destroyed _ _ h e hc hfind =>
    have howner := Event.account?_destroyed h e.value
    rw [account_farewell]
    by_cases hne : g = h
    · subst hne
      obtain ⟨old, hone, hbefore, hafter⟩ := hc.destroy_phase hs
      rw [hbefore, Phase.balance, hone] at haccount
      rw [account_own howner, hafter]
      exact .destroyed haccount (Event.begins_text_destroyed g e.value)
    · exact hc.account_kept hs hne (account_other howner hne) haccount
  | @written _ _ h buffer hc =>
    by_cases hne : g = h
    · subst hne
      obtain ⟨n, old, hbefore, hafter⟩ := hc.write_phase
      rw [hbefore] at haccount
      change Account g (lines ++ []) _
      rw [List.append_nil, hafter]
      exact haccount
    · exact hc.account_kept hs hne rfl haccount
  | append hfirst _ ihfirst ihsecond =>
    rw [List.map_append, account_append, ← List.append_assoc]
    exact ihsecond (hfirst.sound hs) (ihfirst hs haccount)

/-- The retirements of a slot: none, or one when its last handle is spent. -/
def retirements (s : Heap) (i : Nat) : Nat := if s.phase ⟨i, lastGeneration⟩ = .spent then 1 else 0

theorem Changes.retirements_eq {c : Change} (hc : Changes s c t) (hs : s.Sound)
    (hkeeps : ∀ h, c ≠ .destroy h) (i : Nat) : t.retirements i = s.retirements i := by
  simp only [retirements, hc.spent_iff hs hkeeps]

theorem Changes.retirements_destroy {h : Handle} (hc : Changes s (.destroy h) t) (hs : s.Sound)
    (i : Nat) : t.retirements i =
      s.retirements i + if exhausted h = true ∧ h.index = i then 1 else 0 := by
  obtain ⟨e, -, hlive, hspent⟩ := hc.destroy_phase hs
  have hlast := hs.exhausted_iff (phase_eq_live_iff.mp hlive)
  unfold retirements
  by_cases hown : h = ⟨i, lastGeneration⟩
  · subst hown
    rw [hspent, hlive, if_pos rfl, if_neg nofun, if_pos ⟨hlast.mpr rfl, rfl⟩]
  · have hother : ¬(exhausted h = true ∧ h.index = i) := fun ⟨hexhausted, hindex⟩ =>
      hown (Handle.ext hindex (hlast.mp hexhausted))
    rw [hc.phase_other hs (Ne.symm hown), if_neg hother, Nat.add_zero]

theorem Logs.retirements (hlogs : s.Logs events t) (hs : s.Sound) (i : Nat) :
    t.retirements i = s.retirements i + events.count (.retired i) := by
  induction hlogs with
  | nothing | assembled => rfl
  | created hc | retained hc | released hc | written hc => exact hc.retirements_eq hs nofun i
  | destroyed hc => rw [count_farewell, hc.retirements_destroy hs]
  | append hfirst _ ihfirst ihsecond =>
    rw [List.count_append, ihsecond (hfirst.sound hs), ihfirst hs]
    omega

end Heap

/-- What every run keeps: the log counts what the heap counts, and what is on the account of a
handle or of a slot comes to where the handle or the slot stands. -/
structure Audited (t : List Event) (s : Heap) : Prop where
  sound : s.Sound
  topic : ∀ e ∈ t, e.topic ≠ .loaded
  created : t.countP (·.topic.creates) = s.counters.created
  destroyed : t.countP (·.topic.destroys) = s.counters.destroyed
  account : ∀ h, Account h (account (t.map Event.text) h) (s.phase h).balance
  retirements : ∀ i, t.count (.retired i) = s.retirements i
  followed : Followed t

namespace Audited

variable {t events : List Event} {s u : Heap}

theorem ofSettings (settings : Settings) : Audited [] (Heap.ofSettings settings) where
  sound := Heap.sound_ofSettings settings
  topic := nofun
  created := rfl
  destroyed := rfl
  account _ := .unopened
  retirements _ := rfl
  followed := .of_not_mem (by simp)

theorem logs (ha : Audited t s) (hlogs : s.Logs events u) : Audited (t ++ events) u := by
  obtain ⟨hcreated, hdestroyed⟩ := hlogs.counters
  refine ⟨hlogs.sound ha.sound, ?_, ?_, ?_, ?_, ?_, ha.followed.append hlogs.followed⟩
  · intro e he
    exact (List.mem_append.mp he).elim (ha.topic e) fun he => (hlogs.topic e he).1
  · rw [List.countP_append, ha.created, hcreated]
  · rw [List.countP_append, ha.destroyed, hdestroyed]
  · intro h
    rw [List.map_append, account_append]
    exact hlogs.account ha.sound (ha.account h)
  · intro i
    rw [List.count_append, ha.retirements, hlogs.retirements ha.sound]

/-- A warning is on no account and is not counted. -/
theorem warning (ha : Audited t s) {e : Event} {h : Handle}
    (hwarning : e = .staleRetain h ∨ e = .staleRelease h) : Audited (t ++ [e]) s := by
  refine ⟨ha.sound, ?_, ?_, ?_, ?_, ?_, ha.followed.append (.of_not_mem ?_)⟩
  · intro f hf
    obtain hf | hf := List.mem_append.mp hf
    · exact ha.topic f hf
    · obtain rfl := List.mem_singleton.mp hf
      obtain rfl | rfl := hwarning <;> nofun
  · rw [List.countP_append, ha.created]
    obtain rfl | rfl := hwarning <;> rfl
  · rw [List.countP_append, ha.destroyed]
    obtain rfl | rfl := hwarning <;> rfl
  · intro g
    have hnone : e.account? = none := by obtain rfl | rfl := hwarning <;> rfl
    rw [List.map_append, account_append, account_none hnone, List.append_nil]
    exact ha.account g
  · intro i
    rw [List.count_append, ha.retirements]
    obtain rfl | rfl := hwarning <;> rfl
  · obtain rfl | rfl := hwarning <;> simp

theorem step {m : Moment} (ha : Audited t m.before.heap) :
    Audited (t ++ m.report.log) m.after.heap := by
  cases m.speaks ha.sound with
  | staleRetain _ _ hlog hheap =>
    rw [hlog, hheap]
    exact ha.warning (.inl rfl)
  | staleRelease _ _ hlog hheap =>
    rw [hlog, hheap]
    exact ha.warning (.inr rfl)
  | changes _ hlogs => exact ha.logs hlogs

/-- The accounts in force are those of the live handles. -/
theorem inForce_eq (ha : Audited t s) (h : Handle) :
    inForce (t.map Event.text) h = s.isLive h := by
  have haccount := ha.account h
  rw [inForce, Bool.eq_iff_iff, Bool.and_eq_true, Bool.not_eq_true', ← Bool.not_eq_true,
    haccount.any_created, haccount.any_destroyed, Heap.isLive_iff]
  cases s.phase h <;> simp [Phase.balance]

theorem lastCount_eq (ha : Audited t s) {h : Handle} {e : Entry} (hfind : s.find? h = some e) :
    lastCount (t.map Event.text) h = e.refcount := by
  have hlive := Heap.phase_eq_live_iff.mpr hfind
  exact (ha.account h).getLast?_refcount (by rw [hlive]; rfl)

/-- A step warns of what the log so far does not bear out, and of nothing else. -/
theorem warnings_eq {m : Moment} (ha : Audited t m.before.heap) :
    (m.report.log.map Event.record).filter (·.level = .warn) = m.warnings (t.map Event.text) := by
  unfold Moment.warnings
  cases m.speaks ha.sound with
  | staleRetain hop hstale hlog | staleRelease hop hstale hlog =>
    rw [hlog, hop]
    dsimp only
    rw [ha.inForce_eq, hstale]
    rfl
  | changes hlive hlogs =>
    have hquiet : (m.report.log.map Event.record).filter (·.level = .warn) = [] := by
      rw [List.filter_eq_nil_iff]
      intro record hrecord
      obtain ⟨e, he, rfl⟩ := List.mem_map.mp hrecord
      have hlevel : e.record.level ≠ .warn := (hlogs.topic e he).2
      simpa using hlevel
    rw [hquiet]
    split
    · next h hop => rw [ha.inForce_eq, hlive h (.inl hop), if_pos rfl]
    · next h hop => rw [ha.inForce_eq, hlive h (.inr hop), if_pos rfl]
    · rfl

theorem countP_created (ha : Audited t s) :
    (t.map Event.text).countP (Line.begins "Created ") = s.counters.created := by
  rw [List.countP_map, ← ha.created]
  exact List.countP_congr fun e _ => by rw [Function.comp_apply, Event.begins_created]

theorem countP_destroyed (ha : Audited t s) :
    (t.map Event.text).countP (Line.begins "Destroyed ") = s.counters.destroyed := by
  rw [List.countP_map, ← ha.destroyed]
  exact List.countP_congr fun e _ => by rw [Function.comp_apply, Event.begins_destroyed]

theorem count_retirement (ha : Audited t s) (i : Nat) :
    (t.map Event.text).count (retirement i) = if s.HasTenancy i .retired then 1 else 0 := by
  have hcount : (t.map Event.text).count (retirement i) = t.count (.retired i) := by
    rw [List.count_eq_countP, List.countP_map, List.count_eq_countP]
    refine List.countP_congr fun e _ => ?_
    rw [Function.comp_apply, beq_iff_eq, beq_iff_eq]
    exact ⟨Event.eq_retired_of_text, fun heq => congrArg Event.text heq⟩
  rw [hcount, ha.retirements, Heap.retirements]
  simp only [ha.sound.retired_iff]

theorem endsIn_of_retirement (ha : Audited t s) {before after : List String} {i : Nat}
    (hlines : t.map Event.text = before ++ retirement i :: after) :
    ∃ line rest, after = line :: rest ∧ EndsIn i line := by
  obtain ⟨first, second, ht, -, hsecond⟩ := List.map_eq_append_iff.mp hlines
  obtain ⟨e, rest, rfl, htext, rfl⟩ := List.map_eq_cons_iff.mp hsecond
  obtain rfl := Event.eq_retired_of_text htext
  obtain ⟨h, value, rest, hindex, rfl⟩ := ha.followed first i _ ht
  refine ⟨_, _, List.map_cons, Event.begins_text_destroyed h value, h, hindex, ?_⟩
  exact Event.handle_text (Event.account?_destroyed h value)

end Audited

theorem Session.audited_leave (settings : Settings) (script : List (Allowance × Operation)) :
    Audited (logged ((ofSettings settings).history script))
      ((ofSettings settings).leave script).heap := by
  refine keeps (P := fun past s => Audited (logged past) s.heap) ?_ script [] _
    (.ofSettings settings)
  intro past m ha
  rw [logged_append]
  exact ha.step

/-- What can be read off the lines of the past about the heap that it leaves. -/
structure FaithfulTrail (past : List Moment) (s : Heap) : Prop where
  /-- A line tells its event: no other event has its text. -/
  tells : ∀ e ∈ logged past, ∀ f : Event, f.text = e.text → f = e
  created : (trail past).countP (Line.begins "Created ") = s.counters.created
  destroyed : (trail past).countP (Line.begins "Destroyed ") = s.counters.destroyed
  account : ∀ h, ∃ balance, Account h (account (trail past) h) balance
  warned : ∀ before m after, past = before ++ m :: after →
    (m.report.log.map Event.record).filter (·.level = .warn) = m.warnings (trail before)
  live : ∀ h, s.isLive h = true ↔ inForce (trail past) h = true
  refcount : ∀ h, s.isLive h = true → s.refcount h = .ok (lastCount (trail past) h)
  retired : ∀ i, (trail past).count (retirement i) = if s.HasTenancy i .retired then 1 else 0
  followed : ∀ before i after, trail past = before ++ retirement i :: after →
    ∃ line rest, after = line :: rest ∧ EndsIn i line

/-- After every run the log is a faithful trail, and the handles in it can be told apart. -/
theorem audit_law (settings : Settings) (script : List (Allowance × Operation)) :
    (∀ a b : Handle, a.render = b.render → a = b) ∧
    FaithfulTrail ((Session.ofSettings settings).history script)
      ((Session.ofSettings settings).leave script).heap := by
  have ha := Session.audited_leave settings script
  refine ⟨fun a b h => Handle.render_injective (congrArg String.toList h), ?_⟩
  constructor
  case tells => exact fun e he f htext => Event.eq_of_text (ha.topic e he) htext
  case created => exact ha.countP_created
  case destroyed => exact ha.countP_destroyed
  case account => exact fun h => ⟨_, ha.account h⟩
  case warned =>
    intro before m after hpast
    obtain ⟨first, rfl, hbefore⟩ := Session.history_before hpast
    have hthen := Session.audited_leave settings first
    rw [← hbefore] at hthen
    exact hthen.warnings_eq
  case live => exact fun h => by rw [trail, ha.inForce_eq]
  case refcount =>
    intro h hlive
    obtain ⟨e, hfind⟩ := Option.isSome_iff_exists.mp hlive
    rw [Heap.refcount, Heap.entry, hfind, trail, ha.lastCount_eq hfind]
    rfl
  case retired => exact ha.count_retirement
  case followed => exact fun before i after hlines => ha.endsIn_of_retirement hlines

example :
    trail ((Session.ofSettings .standard).history
      [(.ample, .createInteger 5), (.ample, .release ⟨0, 0⟩), (.ample, .retain ⟨0, 0⟩)]) =
      ["Created integer value #0v0", "Destroyed integer value #0v0 (5)",
        "Attempted to retain destroyed value #0v0"] := by decide

end CountedHeap
