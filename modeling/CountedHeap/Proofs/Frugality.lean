import CountedHeap.Proofs.Doubling
import CountedHeap.Proofs.GrowthLaw

/-! Exact storage is never the dearer one. Whatever a text of any policy can hold under a limit that
stays the same, a text that fits exactly can hold too, in no more storage; so a line that can be read
through texts that grow geometrically can be read through texts that fit exactly. -/
namespace CountedHeap

namespace Text.Buffer

/-- How a buffer of any policy stands under a limit that began with some storage: what it has is
the first storage, or else was granted. -/
structure Bounded (first limit : Nat) (b : Buffer) : Prop where
  used_le : b.used ≤ b.capacity
  le_capacity : first ≤ b.capacity
  capacity_le : b.capacity ≤ max first limit

/-- An exact buffer stands in for another one that began with the same storage: it holds the same. -/
structure StandsFor (first limit : Nat) (small large : Buffer) : Prop where
  fitted : small.Fitted first limit
  bounded : large.Bounded first limit
  content : small.content = large.content

variable {first limit : Nat} {b new small large : Buffer}

theorem bounded_empty (growth : Growth) (capacity limit : Nat) :
    (empty growth capacity).Bounded (max capacity 1) limit :=
  ⟨Nat.le_max_right _ _, Nat.le_refl _, Nat.le_max_left _ _⟩

theorem Bounded.append (h : b.Bounded first limit) {text : List Char}
    (happend : b.append? (upTo limit) text = some new) : new.Bounded first limit := by
  obtain ⟨hused, hlower, hupper⟩ := h
  obtain ⟨-, -, hhouses⟩ := append?_houses happend
  cases hhouses with
  | spare hcapacity hroom =>
    exact ⟨hcapacity ▸ hroom hused, hcapacity ▸ hlower, hcapacity ▸ hupper⟩
  | moved hfull hcapacity hgrant =>
    have hneeded := b.growth.needed_le_request b.capacity new.used
    have hlimit : new.capacity ≤ limit := of_decide_eq_true hgrant
    exact ⟨by omega, by omega, by omega⟩

theorem used_congr (hcontent : small.content = large.content) : small.used = large.used := by
  rw [used, used, ← small.size_content, ← large.size_content, hcontent]

theorem ofCapacity?_congr {grant : Nat → Bool} {growth other : Growth} {capacity : Nat}
    (h : ofCapacity? grant growth capacity = some b) :
    ofCapacity? grant other capacity = some (empty other capacity) := by
  unfold ofCapacity? at h ⊢
  split at h
  · next hgrant => rw [if_pos hgrant]
  · cases h

theorem standsFor_empty (growth : Growth) (capacity limit : Nat) :
    (empty .exactFit capacity).StandsFor (max capacity 1) limit (empty growth capacity) where
  fitted := fitted_self (b := empty .exactFit capacity) rfl (Nat.le_max_right _ _) limit
  bounded := bounded_empty growth capacity limit
  content := rfl

/-- The exact buffer has at least the first storage and what it uses, and the other one has both. -/
theorem StandsFor.capacity_le (h : small.StandsFor first limit large) :
    small.capacity ≤ large.capacity := by
  have hsame := used_congr h.content
  have hexact := h.fitted.capacity
  have hused := h.bounded.used_le
  have hlower := h.bounded.le_capacity
  omega

/-- An append that the other buffer can make, the exact one can make too. It may have to ask for
storage where the other one has some to spare, but never for more than was granted there before. -/
theorem StandsFor.append (h : small.StandsFor first limit large) {text : List Char} {later : Buffer}
    (happend : large.append? (upTo limit) text = some later) :
    ∃ new, small.append? (upTo limit) text = some new ∧ new.StandsFor first limit later := by
  have hbounded := h.bounded.append happend
  obtain ⟨capacity, rfl, -⟩ := append?_eq_some happend
  have hfits : small.used + Text.size (beforeTerminator text) ≤ max first limit := by
    have hused := hbounded.used_le
    have hupper := hbounded.capacity_le
    rw [used_extend, ← used_congr h.content] at hused
    omega
  have hexact := h.fitted.append?_eq text
  rw [if_pos hfits] at hexact
  refine ⟨_, hexact, h.fitted.append hexact, hbounded, ?_⟩
  rw [content_extend, content_extend, h.content]

theorem StandsFor.appendAll (h : small.StandsFor first limit large) {texts : List (List Char)}
    {later : Buffer} (hall : large.appendAll? (upTo limit) texts = some later) :
    ∃ new, small.appendAll? (upTo limit) texts = some new ∧ new.StandsFor first limit later := by
  induction texts generalizing small large with
  | nil =>
    obtain rfl := Option.some.inj hall
    exact ⟨small, rfl, h⟩
  | cons text texts ih =>
    rw [appendAll?_cons, Option.bind_eq_some_iff] at hall
    obtain ⟨next, happend, hrest⟩ := hall
    obtain ⟨mid, hmid, hstands⟩ := h.append happend
    obtain ⟨new, hnew, hlast⟩ := ih hstands hrest
    refine ⟨new, ?_, hlast⟩
    rw [appendAll?_cons, hmid]
    exact hnew

theorem appendAll?_append (grant : Nat → Bool) (b : Buffer) (done rest : List (List Char)) :
    b.appendAll? grant (done ++ rest) =
      (b.appendAll? grant done).bind fun new => new.appendAll? grant rest :=
  List.foldlM_append

end Text.Buffer

/-- Two heaps that differ in growth alone: they hold the same values in the same slots, but their
texts may have other policies and capacities, and new texts fit exactly in the first heap and grow
geometrically in the second. -/
structure Heap.DifferInGrowth (small large : Heap) : Prop where
  alike : Blur.storage.heap small = Blur.storage.heap large
  capacity : small.settings.initialCapacity = large.settings.initialCapacity
  exact : small.settings.growth = .exactFit
  amortized : large.settings.growth = .amortized

theorem granted_map {α β : Type} {result : Except Fault α} (hgranted : Granted result) (f : α → β) :
    Granted (result.map f) := by
  cases result with
  | error fault => exact granted_error_iff.mpr (granted_error_iff.mp hgranted)
  | ok a => exact granted_ok (f a)

namespace Blur

variable (β : Blur) {s t : Heap}

theorem fits_slot_iff (x : Slot) (free : Prop) : (β.slot x).Fits free ↔ x.Fits free := by
  obtain ⟨g, entry⟩ := x
  cases entry with
  | none => rfl
  | some e =>
    constructor <;>
    · intro hfits
      obtain ⟨hle, howned, hfree⟩ := hfits.of_occupied
      exact .occupied hle howned hfree

/-- A heap is sound or not whatever is out of view. -/
theorem sound_heap_iff : (β.heap s).Sound ↔ s.Sound := by
  have hslots : (∀ (i : Nat) (x : Slot), (β.heap s).slots[i]? = some x → x.Fits (i ∈ s.free)) ↔
      ∀ (i : Nat) (x : Slot), s.slots[i]? = some x → x.Fits (i ∈ s.free) := by
    simp only [heap, List.getElem?_map, Option.map_eq_some_iff, forall_exists_index, and_imp]
    constructor
    · intro h i x hx
      exact (β.fits_slot_iff x _).mp (h i _ x hx rfl)
    · rintro h i _ x hx rfl
      exact (β.fits_slot_iff x _).mpr (h i x hx)
  have hlength := β.length_heap s
  constructor
  · rintro ⟨hnodup, hlt, hfits, hle⟩
    exact ⟨hnodup, hlength ▸ hlt, hslots.mp hfits, hlength ▸ hle⟩
  · rintro ⟨hnodup, hlt, hfits, hle⟩
    exact ⟨hnodup, hlength.symm ▸ hlt, hslots.mpr hfits, hlength.symm ▸ hle⟩

/-- Whether a value can be created, and under which handle, does not hang on what is out of view. -/
theorem insert_result_congr (hst : β.heap s = β.heap t) (allowance : Allowance) (v w : Value) :
    (s.insert allowance v).result = (t.insert allowance w).result := by
  have hcomm : ∀ u : Heap, ∀ x : Value,
      (u.insert allowance x).result = ((β.heap u).insert allowance w).result := by
    intro u x
    have hroom : (β.heap u).room = u.room := rfl
    unfold Heap.insert
    rw [atLiveLimit_heap, nextHandle_heap, length_heap, free_heap, hroom]
    by_cases hlimit : u.atLiveLimit = true
    · simp only [if_pos hlimit]
      rfl
    · simp only [if_neg hlimit]
      cases u.free with
      | cons index free => rfl
      | nil =>
        by_cases hlength : Heap.maxSlots ≤ u.slots.length
        · simp only [if_pos hlength]
          rfl
        · simp only [if_neg hlength]
          split <;> rfl
  rw [hcomm s v, hst, ← hcomm t w]

end Blur

namespace Heap

variable {s t : Heap}

theorem createText_result_congr (hst : Blur.storage.heap s = Blur.storage.heap t)
    (hcapacity : s.settings.initialCapacity = t.settings.initialCapacity) (allowance : Allowance) :
    (s.createText allowance).result = (t.createText allowance).result := by
  unfold createText Text.Buffer.ofCapacity?
  rw [hcapacity]
  cases allowance.storage (max t.settings.initialCapacity 1) with
  | false => rfl
  | true => exact Blur.storage.insert_result_congr hst allowance _ _

/-- Where the line goes through with one buffer it goes through with an exact buffer that stands for
it. -/
theorem assemble_granted_of_standsFor {first limit n : Nat} {table : Bool} {line : Handle}
    (input : List Arrival) (p : Progress) {small large : Text.Buffer}
    (hstands : small.StandsFor first limit large) (hsmall : s.find? line = some ⟨n, .text small⟩)
    (hlarge : t.find? line = some ⟨n, .text large⟩)
    (hgranted : Granted (t.assemble ⟨Text.Buffer.upTo limit, table⟩ line p input).result) :
    Granted (s.assemble ⟨Text.Buffer.upTo limit, table⟩ line p input).result := by
  induction input generalizing s t small large p with
  | nil => exact hgranted
  | cons arrival rest ih =>
    cases arrival with
    | interruption => exact ih p hstands hsmall hlarge hgranted
    | failure cause => exact hgranted
    | octet b =>
      rw [assemble] at hgranted ⊢
      by_cases hline : b = newline ∧ p.gathered = []
      · rw [if_pos hline] at hgranted ⊢
        exact hgranted
      · simp only [if_neg hline] at hgranted ⊢
        cases hread : Text.Decoder.read (p.gathered ++ [b]) with
        | incomplete =>
          simp only [hread] at hgranted
          exact ih _ hstands hsmall hlarge hgranted
        | invalid =>
          simp only [hread] at hgranted
          exact hgranted
        | complete c =>
          simp only [hread, append_of_find? _ [c] hlarge] at hgranted
          simp only [append_of_find? _ [c] hsmall]
          cases happend : large.append? (Text.Buffer.upTo limit) [c] with
          | none =>
            simp only [happend] at hgranted
            have hrefused : (Fault.allocation .moreText).refused = false :=
              granted_error_iff.mp hgranted
            cases hrefused
          | some later =>
            obtain ⟨new, hnew, hnext⟩ := hstands.append happend
            simp only [happend] at hgranted
            simp only [hnew]
            exact ih _ hnext (find?_put _ hsmall) (find?_put _ hlarge) hgranted

/-- A line that can be read through geometric texts can be read through exact ones. -/
theorem DifferInGrowth.readLine_granted {small large : Heap} (h : small.DifferInGrowth large)
    (hs : small.Sound) (ht : large.Sound) {limit : Nat} {table : Bool} {input : List Arrival}
    (hgranted : Granted (large.readLine ⟨Text.Buffer.upTo limit, table⟩ input).result) :
    Granted (small.readLine ⟨Text.Buffer.upTo limit, table⟩ input).result := by
  have hresult := createText_result_congr h.alike h.capacity ⟨Text.Buffer.upTo limit, table⟩
  cases hcreated : (large.createText ⟨Text.Buffer.upTo limit, table⟩).result with
  | error fault =>
    rw [hcreated] at hresult
    rw [readLine, hcreated] at hgranted
    rw [readLine, hresult]
    exact hgranted
  | ok line =>
    rw [hcreated] at hresult
    obtain ⟨exact, hexact, hsmall⟩ := createText_created hresult
    obtain ⟨roomy, hroomy, hlarge⟩ := createText_created hcreated
    rw [Text.Buffer.ofCapacity?_eq_some hexact, h.exact, h.capacity] at hsmall
    rw [Text.Buffer.ofCapacity?_eq_some hroomy] at hlarge
    obtain ⟨_, _, hrun⟩ := readLine_of_created hs hresult input
    obtain ⟨_, _, hother⟩ := readLine_of_created ht hcreated input
    rw [hrun.result]
    rw [hother.result] at hgranted
    refine granted_map ?_ _
    exact assemble_granted_of_standsFor input ⟨[], 0⟩ (Text.Buffer.standsFor_empty _ _ limit)
      (phase_eq_live_iff.mp (phase_created hsmall hs))
      (phase_eq_live_iff.mp (phase_created hlarge ht)) (granted_of_map hgranted)

end Heap

/-- Exact storage needs no more memory than geometric storage, under a limit that stays the same.
Texts that can all be appended to a geometric buffer can all be appended to an exact one that is made
with the same wish, and step by step it holds the same in no more storage. Likewise for lines, on two
heaps that differ in growth alone: unless the heap of geometric texts is refused memory, the line that
is read through exact texts is the same, as is the input that is left and the heap but for capacities. -/
theorem frugality_law :
    (∀ (grant : Nat → Bool) (capacity : Nat) (large : Text.Buffer),
      Text.Buffer.ofCapacity? grant .amortized capacity = some large →
        ∃ small, Text.Buffer.ofCapacity? grant .exactFit capacity = some small ∧
          ∀ (limit : Nat) (texts : List (List Char)),
            (large.appendAll? (Text.Buffer.upTo limit) texts).isSome →
              ∀ done rest, texts = done ++ rest → ∃ l s,
                large.appendAll? (Text.Buffer.upTo limit) done = some l ∧
                small.appendAll? (Text.Buffer.upTo limit) done = some s ∧
                s.content = l.content ∧ s.capacity ≤ l.capacity) ∧
    ∀ small large : Heap, large.Reachable → small.DifferInGrowth large →
      ∀ (limit : Nat) (table : Bool) (input : List Arrival),
        let allowance : Allowance := ⟨Text.Buffer.upTo limit, table⟩
        Granted (large.readLine allowance input).result →
          (small.readLine allowance input).result = (large.readLine allowance input).result ∧
          (small.readLine allowance input).rest = (large.readLine allowance input).rest ∧
          Blur.storage.heap (small.readLine allowance input).heap =
            Blur.storage.heap (large.readLine allowance input).heap := by
  constructor
  · intro grant capacity large hlarge
    refine ⟨_, Text.Buffer.ofCapacity?_congr hlarge, ?_⟩
    obtain rfl := Text.Buffer.ofCapacity?_eq_some hlarge
    rintro limit texts hall done rest rfl
    obtain ⟨last, hlast⟩ := Option.isSome_iff_exists.mp hall
    rw [Text.Buffer.appendAll?_append, Option.bind_eq_some_iff] at hlast
    obtain ⟨l, hdone, -⟩ := hlast
    obtain ⟨s, hsmall, hstands⟩ :=
      (Text.Buffer.standsFor_empty .amortized capacity limit).appendAll hdone
    exact ⟨l, s, hdone, hsmall, hstands.content, hstands.capacity_le⟩
  · intro small large hreachable h limit table input allowance hgranted
    have ht := hreachable.sound
    have hs : small.Sound := by
      rw [← Blur.storage.sound_heap_iff, h.alike, Blur.storage.sound_heap_iff]
      exact ht
    have hline : Blur.storage.lineOutcome (small.readLine .unbounded input) =
        Blur.storage.lineOutcome (large.readLine .unbounded input) :=
      Blur.storage.congr_of_comm (F := fun u => Blur.storage.lineOutcome (u.readLine _ input))
        (fun u => Blur.storage.lineOutcome_readLine u input) h.alike
    rw [← Heap.readLine_of_granted ht hgranted,
      ← Heap.readLine_of_granted hs (h.readLine_granted hs ht hgranted)] at hline
    simp only [Blur.lineOutcome, LineOutcome.mk.injEq] at hline
    obtain ⟨hresult, hheap, -, hrest⟩ := hline
    exact ⟨hresult, hrest, hheap⟩

/-- Two heaps that ran alike under the two policies. Under a limit of eight octets both read the same
short line; under one of five, the exact heap reads what is too much for the geometric one. -/
theorem frugality_of_short_line :
    let script := [(Allowance.ample, Operation.createText),
      (Allowance.ample, Operation.append ⟨0, 0⟩ ['a', 'é', 'b'])]
    let small := ((Session.ofSettings ⟨.exactFit, 2, none⟩).leave script).heap
    let large := ((Session.ofSettings ⟨.amortized, 2, none⟩).leave script).heap
    let input := [0x68, 0xC3, 0xA9, 0x79, 0x0A, 0x78].map Arrival.octet
    (large.Reachable ∧ small.DifferInGrowth large ∧ small ≠ large) ∧
      (large.readLine ⟨Text.Buffer.upTo 8, true⟩ input).result = .ok ['h', 'é', 'y'] ∧
      (small.readLine ⟨Text.Buffer.upTo 8, true⟩ input).result = .ok ['h', 'é', 'y'] ∧
      (large.readLine ⟨Text.Buffer.upTo 5, true⟩ input).result = .error (.allocation .moreText) ∧
      (small.readLine ⟨Text.Buffer.upTo 5, true⟩ input).result = .ok ['h', 'é', 'y'] := by
  intro script small large input
  have hreachable : large.Reachable := ⟨_, script, rfl⟩
  have hdiffer : small.DifferInGrowth large := ⟨by decide, by decide, by decide, by decide⟩
  have hlarge : (large.readLine ⟨Text.Buffer.upTo 8, true⟩ input).result = .ok ['h', 'é', 'y'] := by
    decide
  obtain ⟨-, hlines⟩ := frugality_law
  obtain ⟨hsame, -⟩ := hlines small large hreachable hdiffer 8 true input
    (by rw [hlarge]; exact granted_ok _)
  exact ⟨⟨hreachable, hdiffer, by decide⟩, hlarge, hsame.trans hlarge, by decide, by decide⟩

end CountedHeap
