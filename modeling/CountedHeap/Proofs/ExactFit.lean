import CountedHeap.Proofs.FirstLine
import CountedHeap.Proofs.TextContent

/-! The storage of a text that fits exactly. It is what the text began with, or just what its content
and the terminator need when that is more, and so it does not hang on how the content was cut into
appends. The appends of a text go through as long as all of it fits into the first storage or into
what is granted. -/
namespace CountedHeap.Text.Buffer

/-- Storage is granted up to a limit. -/
def upTo (limit size : Nat) : Bool := size ≤ limit

/-- Texts appended one after another, as long as none is refused. -/
def appendAll? (grant : Nat → Bool) (b : Buffer) (texts : List (List Char)) : Option Buffer :=
  texts.foldlM (fun b text => b.append? grant text) b

/-- What the texts add to a content. -/
def additions (texts : List (List Char)) : List Char := texts.flatMap beforeTerminator

/-- Texts appended one after another, those that are refused left out. -/
def offer (grant : Nat → Bool) (b : Buffer) (texts : List (List Char)) : Buffer :=
  b.attempts (texts.map fun text => ⟨grant, text⟩)

/-- How a buffer that began with some storage stands under a limit: its storage is the first one, or
just what is in use, and no more is in use than the first storage or the limit allows. -/
structure Fitted (first limit : Nat) (b : Buffer) : Prop where
  growth : b.growth = .exactFit
  capacity : b.capacity = max first b.used
  used_le : b.used ≤ max first limit

variable {first limit : Nat} {b : Buffer}

theorem fitted_self (hfit : b.growth = .exactFit) (hroom : b.used ≤ b.capacity) (limit : Nat) :
    b.Fitted b.capacity limit :=
  ⟨hfit, (Nat.max_eq_left hroom).symm, hroom.trans (Nat.le_max_left _ _)⟩

@[simp] theorem used_extend (b : Buffer) (addition : List Char) (capacity : Nat) :
    (b.extend addition capacity).used = b.used + Text.size addition := by
  simp only [used, extend]
  omega

theorem extend_nil (b : Buffer) : b.extend [] b.capacity = b :=
  eq_of_content (by simp) rfl rfl

theorem extend_extend (b : Buffer) (addition more : List Char) (capacity room : Nat) :
    (b.extend addition capacity).extend more room = b.extend (addition ++ more) room :=
  eq_of_content (by simp) rfl rfl

theorem size_pos_of_ne_nil {text : List Char} (h : text ≠ []) : 0 < Text.size text := by
  obtain ⟨c, rest, rfl⟩ := List.exists_cons_of_ne_nil h
  have hpos := Char.utf8Size_pos c
  rw [size_cons]
  omega

/-- An append to a fitted buffer: it is refused when the content would pass both the first storage
and the limit, and else takes no more storage than it needs. -/
theorem Fitted.append?_eq (h : b.Fitted first limit) (text : List Char) :
    b.append? (upTo limit) text =
      if b.used + Text.size (beforeTerminator text) ≤ max first limit then
        some (b.extend (beforeTerminator text)
          (max first (b.used + Text.size (beforeTerminator text))))
      else none := by
  obtain ⟨hgrowth, hcapacity, hused⟩ := h
  unfold append?
  by_cases hempty : beforeTerminator text = []
  · have hsame : b.extend [] (max first b.used) = b := hcapacity ▸ extend_nil b
    simp [hempty, hused, hsame]
  · have hpos := size_pos_of_ne_nil hempty
    simp only [List.isEmpty_iff, if_neg hempty]
    by_cases hfits : b.used + Text.size (beforeTerminator text) ≤ b.capacity
    · -- Room to spare can only be left of the first storage.
      have hspare : b.capacity = max first (b.used + Text.size (beforeTerminator text)) := by omega
      rw [if_pos hfits, if_pos (by omega), hspare]
    · have hrequest : b.growth.request b.capacity (b.used + Text.size (beforeTerminator text)) =
          max first (b.used + Text.size (beforeTerminator text)) := by
        rw [hgrowth, Growth.request]
        omega
      rw [if_neg hfits, hrequest]
      simp only [upTo, decide_eq_true_eq]
      by_cases hlimit : b.used + Text.size (beforeTerminator text) ≤ max first limit
      · rw [if_pos hlimit, if_pos (by omega)]
      · rw [if_neg hlimit, if_neg (by omega)]

theorem Fitted.append (h : b.Fitted first limit) {text : List Char} {new : Buffer}
    (happend : b.append? (upTo limit) text = some new) : new.Fitted first limit := by
  rw [h.append?_eq] at happend
  split at happend
  · next hlimit =>
    obtain rfl := Option.some.inj happend
    refine ⟨h.growth, ?_, ?_⟩
    · rw [used_extend]
      rfl
    · rwa [used_extend]
  · cases happend

/-- Appends keep a buffer fitted, whether they are refused or not. -/
theorem Fitted.offer (h : b.Fitted first limit) (texts : List (List Char)) :
    (b.offer (upTo limit) texts).Fitted first limit := by
  induction texts generalizing b with
  | nil => exact h
  | cons text texts ih =>
    apply ih
    unfold attempt
    cases happend : b.append? (upTo limit) text with
    | none => exact h
    | some new => exact h.append happend

theorem appendAll?_cons (grant : Nat → Bool) (b : Buffer) (text : List Char)
    (texts : List (List Char)) :
    b.appendAll? grant (text :: texts) =
      (b.append? grant text).bind fun new => new.appendAll? grant texts :=
  List.foldlM_cons

/-- Appends one after another come to one append of all that they add. -/
theorem Fitted.appendAll?_eq (h : b.Fitted first limit) (texts : List (List Char)) :
    b.appendAll? (upTo limit) texts =
      if b.used + Text.size (additions texts) ≤ max first limit then
        some (b.extend (additions texts) (max first (b.used + Text.size (additions texts))))
      else none := by
  induction texts generalizing b with
  | nil =>
    have hsame : b.extend [] (max first b.used) = b := h.capacity ▸ extend_nil b
    simp [appendAll?, additions, h.used_le, hsame]
  | cons text texts ih =>
    have hsize : Text.size (additions (text :: texts)) =
        Text.size (beforeTerminator text) + Text.size (additions texts) := by
      simp [additions]
    rw [appendAll?_cons, hsize]
    cases happend : b.append? (upTo limit) text with
    | none =>
      rw [h.append?_eq] at happend
      rw [Option.bind_none, if_neg]
      intro hlimit
      rw [if_pos (by omega)] at happend
      cases happend
    | some new =>
      rw [Option.bind_some, ih (h.append happend)]
      rw [h.append?_eq] at happend
      split at happend
      · obtain rfl := Option.some.inj happend
        rw [used_extend, extend_extend, Nat.add_assoc]
        rfl
      · cases happend

/-- What the content needs with more text and the terminator behind it. -/
theorem size_content_append (b : Buffer) (addition : List Char) :
    Text.size (b.content ++ addition) + 1 = b.used + Text.size addition := by
  have hused : b.used = b.size + 1 := rfl
  rw [size_append, size_content, hused]
  omega

/-- Without terminators, texts add all that they hold. -/
theorem additions_of_clean {texts : List (List Char)} (hclean : ∀ text ∈ texts, terminator ∉ text) :
    additions texts = texts.flatten := by
  rw [additions, List.flatMap_def]
  congr 1
  conv_rhs => rw [← List.map_id texts]
  apply List.map_congr_left
  intro text htext
  exact takeWhile_ne_of_not_mem (hclean text htext)

/-- A buffer that fits exactly, under a limit that stays the same; that it has room for what it uses
holds of every buffer that can be had. Whatever is appended, its storage is the first one, or what its
content needs with the terminator; and an append is refused exactly when the content would need more
than both the first storage and the limit. So appends one after another all go through exactly if what
they come to fits, and the ways of cutting a text into appends come to the same. -/
theorem exact_fit_law {b : Buffer} (hfit : b.growth = .exactFit) (hroom : b.used ≤ b.capacity)
    (limit : Nat) :
    (∀ texts, let later := b.offer (upTo limit) texts
      later.capacity = max b.capacity (later.size + 1) ∧
      ∀ text, later.append? (upTo limit) text = none ↔
        max b.capacity limit < Text.size (later.content ++ beforeTerminator text) + 1) ∧
    (∀ texts, (b.appendAll? (upTo limit) texts).isSome ↔
      Text.size (b.content ++ additions texts) + 1 ≤ max b.capacity limit) ∧
    (∀ texts later, b.appendAll? (upTo limit) texts = some later →
      later.content = b.content ++ additions texts ∧
      later.capacity = max b.capacity (later.size + 1)) ∧
    ∀ texts texts', (∀ text ∈ texts ++ texts', terminator ∉ text) →
      texts.flatten = texts'.flatten →
        additions texts = texts.flatten ∧
        b.appendAll? (upTo limit) texts = b.appendAll? (upTo limit) texts' := by
  have hfitted := fitted_self hfit hroom limit
  refine ⟨?_, ?_, ?_, ?_⟩
  · intro texts later
    have hlater : later.Fitted b.capacity limit := hfitted.offer texts
    refine ⟨hlater.capacity, fun text => ?_⟩
    rw [hlater.append?_eq, size_content_append]
    simp
  · intro texts
    rw [hfitted.appendAll?_eq, size_content_append]
    simp
  · intro texts later hall
    rw [hfitted.appendAll?_eq] at hall
    split at hall
    · obtain rfl := Option.some.inj hall
      refine ⟨content_extend _ _ _, ?_⟩
      have hused := b.used_extend (additions texts)
        (max b.capacity (b.used + Text.size (additions texts)))
      change max _ _ = max _ (used _)
      rw [hused]
    · cases hall
  · intro texts texts' hclean hsame
    have hleft := additions_of_clean fun text htext => hclean text (List.mem_append_left _ htext)
    have hright := additions_of_clean fun text htext => hclean text (List.mem_append_right _ htext)
    have hadditions : additions texts = additions texts' := hleft.trans (hsame.trans hright.symm)
    refine ⟨hleft, ?_⟩
    rw [hfitted.appendAll?_eq, hfitted.appendAll?_eq, hadditions]

/-- Six octets of storage where there were four: a text of two octets takes three of them with its
terminator, three letters more fit, and a fourth does not, however they are cut. -/
theorem exact_fit_of_four :
    let b := ((empty .exactFit 4).append? (upTo 6) ['é']).getD fresh
    b.growth = .exactFit ∧ b.used ≤ b.capacity ∧
      (b.offer (upTo 6) [['a', 'b'], ['c', 'd'], ['e', '\x00', 'f']]).capacity = 6 ∧
      (b.appendAll? (upTo 6) [['a', 'b'], ['c', 'd']]).isSome = false ∧
      b.appendAll? (upTo 6) [['a'], [], ['b', 'c']] = b.appendAll? (upTo 6) [['a', 'b'], ['c']] := by
  intro b
  have hfit : b.growth = .exactFit := by decide
  have hroom : b.used ≤ b.capacity := by decide
  obtain ⟨hoffer, hall, -, hcuts⟩ := exact_fit_law hfit hroom 6
  refine ⟨hfit, hroom, (hoffer _).1.trans (by decide), ?_, ?_⟩
  · rw [Bool.eq_false_iff, Ne, hall]
    decide
  · exact (hcuts _ _ (by decide) rfl).2

end CountedHeap.Text.Buffer
