import CountedHeap.Proofs.Economy
import CountedHeap.Proofs.Reserve
import CountedHeap.Proofs.SlotTable

/-! The limit on live values. Whatever a run does, at no time are more values alive than the limit
allows, the temporary text of a line among them; and a creation that the memory has room for fails
when as many are alive, and at no other time. -/
namespace CountedHeap

namespace Heap

/-- So many values are alive: so many are the live handles, told one by one. -/
def Alive (s : Heap) (count : Nat) : Prop :=
  ∃ handles : List Handle, handles.Nodup ∧ (∀ h, h ∈ handles ↔ s.isLive h = true) ∧
    handles.length = count

/-- The settings limit the values that are alive, and no more are counted. -/
structure Limited (s : Heap) (limit : Nat) : Prop where
  setting : s.settings.liveLimit = some limit
  live_le : s.counters.live ≤ limit

/-- A heap as runs under a limit leave it. -/
structure Governed (s : Heap) (limit : Nat) : Prop where
  sound : s.Sound
  tallied : s.Tallied
  limited : s.Limited limit

/-- What a creation may ask the memory for is granted, and not all slot numbers are taken. -/
structure SuppliedBy (s : Heap) (allowance : Allowance) : Prop where
  number : s.slots.length < maxSlots
  storage : allowance.storage (max s.settings.initialCapacity 1) = true
  table : s.NeedsTable → allowance.table = true

/-- The creations that a heap can be asked for under an allowance, with their outcomes. -/
inductive Creation (s : Heap) (allowance : Allowance) : Outcome Handle → Prop
  | integer (n : Int) : Creation s allowance (s.createInteger allowance n)
  | text : Creation s allowance (s.createText allowance)

/-- One more value can be created, and after it none. -/
def AdmitsOne (s : Heap) : Prop :=
  ∀ allowance outcome, s.SuppliedBy allowance → s.Creation allowance outcome →
    (∃ h, outcome.result = .ok h) ∧
      ∀ allowance second, outcome.heap.Creation allowance second →
        ∃ shortage, second.result = .error (.allocation shortage)

/-- What a limit on live values comes to. The count is right and within the limit. Values are
created as long as fewer are alive, and otherwise refused for the sake of the limit; then one value
that goes makes room for one other, and no line is begun. -/
structure Observes (s : Heap) (limit : Nat) : Prop where
  alive : s.Alive s.counters.live
  live_le : s.counters.live ≤ limit
  creates_iff : ∀ allowance outcome count, s.SuppliedBy allowance → s.Creation allowance outcome →
    s.Alive count → ((∃ h, outcome.result = .ok h) ↔ count < limit)
  refuses : ∀ allowance outcome fault, s.SuppliedBy allowance → s.Creation allowance outcome →
    outcome.result = .error fault →
      fault = .allocation .liveLimit ∧ outcome.heap = s ∧ s.Alive limit
  reopens : s.Alive limit → ∀ h, s.refcount h = .ok 1 → (s.release h).heap.AdmitsOne
  line : s.Alive limit → ∀ allowance input, ∃ shortage,
    s.readLine allowance input = ⟨.error (.allocation shortage), s, [], input⟩ ∧
      (allowance.storage (max s.settings.initialCapacity 1) = true →
        shortage = .liveLimit ∧ shortage.refused = false)

variable {s t : Heap} {limit count : Nat} {allowance : Allowance} {outcome : Outcome Handle}

/-! How many values are alive. -/

theorem Alive.unique {other : Nat} (h : s.Alive count) (h' : s.Alive other) : count = other := by
  obtain ⟨handles, hnodup, hmem, rfl⟩ := h
  obtain ⟨others, hnodup', hmem', rfl⟩ := h'
  apply List.Perm.length_eq
  rw [List.perm_ext_iff_of_nodup hnodup hnodup']
  intro g
  rw [hmem, hmem']

/-- A live handle names an occupied slot by its present generation. -/
theorem Sound.isLive_iff_occupied (hs : s.Sound) {h : Handle} :
    s.isLive h = true ↔ s.HasTenancy h.index .occupied ∧ s.generation h.index = h.generation := by
  constructor
  · intro hlive
    obtain ⟨e, hfind⟩ := Option.isSome_iff_exists.mp hlive
    exact ⟨hs.occupied_of_isLive hlive, generation_eq (find?_eq_some_iff.mp hfind)⟩
  · rintro ⟨hoccupied, hgeneration⟩
    obtain ⟨⟨g, entry⟩, hslot, hsome⟩ := hs.occupied_iff.mp hoccupied
    obtain ⟨e, rfl⟩ := Option.isSome_iff_exists.mp hsome
    obtain rfl : g = h.generation := (generation_eq hslot).symm.trans hgeneration
    rw [isLive, find?_eq_some_iff.mpr hslot]
    rfl

/-- The counter of live values is right. -/
theorem Tallied.alive (htally : s.Tallied) (hs : s.Sound) : s.Alive s.counters.live := by
  let occupied := (List.range s.slots.length).filter fun i => s.HasTenancy i .occupied
  refine ⟨occupied.map fun i => ⟨i, s.generation i⟩, ?_, ?_, ?_⟩
  · exact (List.nodup_range.filter _).map fun i j hij => congrArg Handle.index hij
  · intro h
    rw [hs.isLive_iff_occupied, List.mem_map]
    constructor
    · rintro ⟨i, hi, rfl⟩
      exact ⟨of_decide_eq_true (List.mem_filter.mp hi).2, rfl⟩
    · rintro ⟨hoccupied, hgeneration⟩
      obtain ⟨slot, hslot, -⟩ := id hoccupied
      have hlength := (List.getElem?_eq_some_iff.mp hslot).1
      exact ⟨h.index, List.mem_filter.mpr ⟨List.mem_range.mpr hlength, decide_eq_true hoccupied⟩,
        Handle.ext rfl hgeneration⟩
  · rw [List.length_map, htally.live_eq_census hs, census, List.countP_eq_length_filter]

theorem Governed.alive_iff (h : s.Governed limit) : s.Alive count ↔ s.counters.live = count := by
  have hlive := h.tallied.alive h.sound
  constructor
  · exact hlive.unique
  · rintro rfl
    exact hlive

/-! The limit is kept. -/

/-- A value is created only below the limit, and no other change adds one. -/
theorem Changes.limited {c : Change} (hc : Changes s c t) (_ : s.Sound) (h : s.Limited limit) :
    t.Limited limit := by
  obtain ⟨hsetting, hle⟩ := h
  cases hc with
  | reuse _ hbelow | extend _ hbelow =>
    have hlt : s.counters.live < limit := by simpa [atLiveLimit, hsetting] using hbelow
    exact ⟨hsetting, hlt⟩
  | retain | release | write => exact ⟨hsetting, hle⟩
  | destroy => exact ⟨hsetting, (Nat.sub_le _ 1).trans hle⟩

theorem Path.governed {changes : List Change} (hpath : Path s changes t) (h : s.Governed limit) :
    t.Governed limit where
  sound := hpath.sound h.sound
  tallied := hpath.keeps Changes.tallied h.sound h.tallied
  limited := hpath.keeps Changes.limited h.sound h.limited

theorem Governed.atLimit_iff (h : s.Governed limit) : s.AtLimit ↔ s.counters.live = limit := by
  obtain ⟨hsetting, hle⟩ := h.limited
  rw [AtLimit, hsetting]
  constructor
  · rintro ⟨_, ⟨⟩, hge⟩
    exact Nat.le_antisymm hle hge
  · intro heq
    exact ⟨limit, rfl, Nat.le_of_eq heq.symm⟩

/-! Creations, below the limit and at it. -/

theorem Creation.cases (h : s.Creation allowance outcome) :
    (∃ value, Changes s (.create s.nextHandle value) outcome.heap ∧
      outcome.result = .ok s.nextHandle) ∨
    ∃ shortage, outcome = s.refuse (.allocation shortage) := by
  cases h with
  | integer n =>
    obtain hcreated | hrefused := s.insert_cases allowance (.integer n)
    · exact .inl ⟨_, hcreated⟩
    · exact .inr hrefused
  | text =>
    obtain ⟨buffer, -, hcreated⟩ | hrefused := s.createText_cases allowance
    · exact .inl ⟨_, hcreated⟩
    · exact .inr hrefused

/-- A creation that the memory has room for fails at the limit only. -/
theorem Creation.error_iff (h : s.Creation allowance outcome) (hsupplied : s.SuppliedBy allowance)
    {fault : Fault} :
    outcome.result = .error fault ↔ s.AtLimit ∧ fault = .allocation .liveLimit := by
  obtain ⟨hlength, hstorage, htable⟩ := hsupplied
  have hgranted : ¬(¬s.AtLimit ∧ s.NeedsTable ∧ allowance.table = false ∧
      fault = .allocation .slotTable) := by
    rintro ⟨-, hneeds, hrefused, -⟩
    cases (htable hneeds).symm.trans hrefused
  cases h with
  | integer n => rw [createInteger, insert_error_iff hlength, or_iff_left hgranted]
  | text =>
    rw [createText_error_iff hlength, hstorage, or_iff_left hgranted]
    simp

theorem Creation.ok_iff (h : s.Creation allowance outcome) (hsupplied : s.SuppliedBy allowance) :
    (∃ g, outcome.result = .ok g) ↔ ¬s.AtLimit := by
  constructor
  · rintro ⟨g, hok⟩ hat
    cases hok.symm.trans ((h.error_iff hsupplied).mpr ⟨hat, rfl⟩)
  · intro hbelow
    obtain ⟨_, -, hok⟩ | ⟨shortage, rfl⟩ := h.cases
    · exact ⟨_, hok⟩
    · exact absurd ((h.error_iff hsupplied).mp rfl).1 hbelow

/-- At the limit no creation succeeds, whatever the memory grants. -/
theorem Creation.refused_of_atLimit (h : s.Creation allowance outcome) (hat : s.AtLimit) :
    ∃ shortage, outcome.result = .error (.allocation shortage) := by
  obtain ⟨_, hc, -⟩ | ⟨shortage, rfl⟩ := h.cases
  · cases hc.limit_create.symm.trans (atLiveLimit_iff.mpr hat)
  · exact ⟨shortage, rfl⟩

/-- With one value less than the limit, the next creation takes the last place. -/
theorem Governed.admitsOne (h : s.Governed limit) (hlast : s.counters.live + 1 = limit) :
    s.AdmitsOne := by
  intro allowance outcome hsupplied hcreation
  have hbelow : ¬s.AtLimit := by
    rw [h.atLimit_iff]
    omega
  obtain ⟨g, hok⟩ := (hcreation.ok_iff hsupplied).mpr hbelow
  refine ⟨⟨g, hok⟩, ?_⟩
  intro allowance' second hsecond
  obtain ⟨_, hc, -⟩ | ⟨shortage, rfl⟩ := hcreation.cases
  · have hnext : outcome.heap.Governed limit := hc.path.governed h
    have hlive : outcome.heap.counters.live = limit := by rw [hc.counters_create]; exact hlast
    exact hsecond.refused_of_atLimit (hnext.atLimit_iff.mpr hlive)
  · cases hok

/-- The last owner of a value takes it along. -/
theorem changes_of_last {h : Handle} (hlast : s.refcount h = .ok 1) :
    ∃ e, s.find? h = some e ∧ Changes s (.destroy h) (s.release h).heap := by
  unfold refcount entry at hlast
  cases hfind : s.find? h with
  | none => simp [hfind, Except.map] at hlast
  | some e =>
    have hone : e.refcount = 1 := by simpa [hfind, Except.map] using hlast
    rw [release_of_last hfind (by omega)]
    exact ⟨e, rfl, .destroy hfind (by omega)⟩

/-- At the limit the temporary text of a line cannot be had, if not for its storage then for the
limit. -/
theorem createText_of_atLimit (hat : s.AtLimit) (allowance : Allowance) :
    s.createText allowance = s.refuse (.allocation
      (if allowance.storage (max s.settings.initialCapacity 1) = true then .liveLimit
        else .newBuffer)) := by
  rw [← atLiveLimit_iff] at hat
  unfold createText Text.Buffer.ofCapacity?
  by_cases hstorage : allowance.storage (max s.settings.initialCapacity 1) = true
  · rw [if_pos hstorage, if_pos hstorage]
    exact if_pos hat
  · rw [if_neg hstorage, if_neg hstorage]

theorem Governed.observes (h : s.Governed limit) : s.Observes limit where
  alive := h.tallied.alive h.sound
  live_le := h.limited.live_le
  creates_iff := by
    intro allowance outcome count hsupplied hcreation halive
    have hle := h.limited.live_le
    rw [h.alive_iff] at halive
    rw [hcreation.ok_iff hsupplied, h.atLimit_iff]
    omega
  refuses := by
    intro allowance outcome fault hsupplied hcreation hfault
    obtain ⟨hat, rfl⟩ := (hcreation.error_iff hsupplied).mp hfault
    refine ⟨rfl, ?_, h.alive_iff.mpr (h.atLimit_iff.mp hat)⟩
    obtain ⟨_, -, hok⟩ | ⟨shortage, rfl⟩ := hcreation.cases
    · cases hok.symm.trans hfault
    · rfl
  reopens := by
    intro halive g hlast
    rw [h.alive_iff] at halive
    obtain ⟨e, hfind, hc⟩ := changes_of_last hlast
    have hpos := h.tallied.live_pos hfind
    refine (hc.path.governed h).admitsOne ?_
    rw [hc.live_destroy]
    omega
  line := by
    intro halive allowance input
    rw [h.alive_iff, ← h.atLimit_iff] at halive
    have hrefused := createText_of_atLimit halive allowance
    refine ⟨_, readLine_of_refused hrefused input, ?_⟩
    intro hgranted
    rw [if_pos hgranted]
    exact ⟨rfl, rfl⟩

end Heap

/-- The heaps that a step passes through: the one that it meets, the one that it leaves and, when it
reads a line, those in between, with the temporary text as far as the input has been taken. -/
inductive Moment.Passes (m : Moment) : Heap → Prop
  | before : Passes m m.before.heap
  | after : Passes m m.after.heap
  | reading {line : Handle} (hop : m.operation = .readLine)
      (hcreated : (m.before.heap.createText m.allowance).result = .ok line) (taken : Nat) :
      Passes m (m.before.heap.assembleLine m.allowance line (m.before.input.take taken)).heap

theorem Moment.Passes.path {m : Moment} {u : Heap} (h : m.Passes u) (hs : m.before.heap.Sound) :
    ∃ changes, m.before.heap.Path changes u := by
  cases h with
  | before => exact ⟨[], .nil _⟩
  | after =>
    obtain ⟨changes, -, hpath⟩ := m.amounts hs
    exact ⟨changes, hpath⟩
  | reading hop hcreated taken =>
    obtain ⟨old, new, hrun⟩ :=
      Heap.readLine_of_created hs hcreated (m.before.input.take taken)
    exact ⟨_, .cons hrun.created hrun.written.path⟩

theorem Session.governed_leave {settings : Settings} {limit : Nat}
    (hlimit : settings.liveLimit = some limit) (script : List (Allowance × Operation)) :
    ((ofSettings settings).leave script).heap.Governed limit where
  sound := sound_leave settings script
  tallied := tallied_leave settings script
  limited := keeps_of_changes ⟨hlimit, Nat.zero_le limit⟩ Heap.Changes.limited script

/-- Under a limit on live values, every heap that a run passes through observes the limit, those in
the midst of a line included. -/
theorem live_limit_law {settings : Settings} {limit : Nat}
    (hlimit : settings.liveLimit = some limit) (script : List (Allowance × Operation)) :
    ((Session.ofSettings settings).leave script).heap.Observes limit ∧
      ∀ m ∈ (Session.ofSettings settings).history script, ∀ u, m.Passes u → u.Observes limit := by
  refine ⟨(Session.governed_leave hlimit script).observes, ?_⟩
  intro m hm u hpasses
  obtain ⟨before, after, hsplit⟩ := List.append_of_mem hm
  obtain ⟨first, -, hbefore⟩ := Session.history_before hsplit
  have hgoverned : m.before.heap.Governed limit := by
    rw [hbefore]
    exact Session.governed_leave hlimit first
  obtain ⟨changes, hpath⟩ := hpasses.path hgoverned.sound
  exact (hpath.governed hgoverned).observes

/-- With a limit of one, the text of a line comes and goes before an integer takes its slot; then a
text is refused until the integer is released. -/
theorem live_limit_of_one :
    let settings : Settings := ⟨.exactFit, 1, some 1⟩
    let s := ((Session.ofSettings settings).leave [(.ample, .supply [.octet 0x68]),
      (.ample, .readLine), (.ample, .createInteger 7)]).heap
    settings.liveLimit = some 1 ∧ s.Observes 1 ∧ s.Alive 1 ∧
      (s.createText .ample).result = .error (.allocation .liveLimit) ∧
      (s.release ⟨0, 1⟩).heap.AdmitsOne := by
  intro settings s
  obtain ⟨hobserves, -⟩ : s.Observes 1 ∧ _ := live_limit_law (rfl : settings.liveLimit = some 1) _
  have hsupplied : s.SuppliedBy .ample := ⟨by decide, by decide, fun _ => rfl⟩
  have hrefused : (s.createText .ample).result = .error (.allocation .liveLimit) := by decide
  obtain ⟨-, -, halive⟩ := hobserves.refuses _ _ _ hsupplied .text hrefused
  exact ⟨rfl, hobserves, halive, hrefused, hobserves.reopens halive ⟨0, 1⟩ (by decide)⟩

end CountedHeap
