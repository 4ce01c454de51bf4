import CountedHeap.Template.Basic

/-! Where the placeholders of a template are. A template is split at the first one, and only the
first one takes a single argument. -/
namespace CountedHeap.Template

/-- There is a placeholder somewhere in the text. -/
def HasPlaceholder (text : List Char) : Prop := ['\x7b', '\x7d'] <:+: text

/-- The output is the template with its first placeholder filled, or the template itself when it has
none. -/
inductive Fills (argument : List Char) : List Char → List Char → Prop
  | first {before after : List Char} (hfirst : ¬HasPlaceholder (before ++ ['\x7b'])) :
      Fills argument (before ++ '\x7b' :: '\x7d' :: after) (before ++ argument ++ after)
  | none {template : List Char} (hnone : ¬HasPlaceholder template) :
      Fills argument template template

theorem hasPlaceholder_cons_iff {c : Char} {text : List Char} :
    HasPlaceholder (c :: text) ↔
      c = '\x7b' ∧ text.head? = some '\x7d' ∨ HasPlaceholder text := by
  unfold HasPlaceholder
  rw [List.infix_cons_iff]
  cases text with
  | nil => simp
  | cons d text => simp [List.cons_prefix_cons, eq_comm]

theorem split?_eq_none {template : List Char} (h : split? template = none) :
    ¬HasPlaceholder template := by
  fun_induction split? template with
  | case1 rest => cases h
  | case2 c rest hbraces ih =>
    rw [Option.map_eq_none_iff] at h
    rw [hasPlaceholder_cons_iff]
    rintro (⟨rfl, hhead⟩ | hrest)
    · cases rest with
      | nil => cases hhead
      | cons d rest =>
        obtain rfl := Option.some.inj hhead
        exact hbraces rest rfl rfl
    · exact ih h hrest
  | case3 => simp [HasPlaceholder]

theorem split?_eq_some {template before after : List Char}
    (h : split? template = some (before, after)) :
    template = before ++ '\x7b' :: '\x7d' :: after ∧ ¬HasPlaceholder (before ++ ['\x7b']) := by
  fun_induction split? template generalizing before with
  | case1 rest =>
    obtain ⟨rfl, rfl⟩ := Prod.mk.inj (Option.some.inj h)
    refine ⟨rfl, ?_⟩
    intro hbraces
    have hlength := hbraces.length_le
    simp at hlength
  | case2 c rest hbraces ih =>
    rw [Option.map_eq_some_iff] at h
    obtain ⟨⟨start, rest'⟩, hsplit, heq⟩ := h
    obtain ⟨rfl, rfl⟩ := Prod.mk.inj heq
    obtain ⟨rfl, hstart⟩ := ih hsplit
    refine ⟨rfl, ?_⟩
    rw [List.cons_append, hasPlaceholder_cons_iff]
    rintro (⟨rfl, hhead⟩ | hrest)
    · cases start with
      | nil => simp at hhead
      | cons d start =>
        obtain rfl := Option.some.inj hhead
        exact hbraces _ rfl rfl
    · exact hstart hrest
  | case3 => cases h

theorem split?_of_first {before after : List Char}
    (hfirst : ¬HasPlaceholder (before ++ ['\x7b'])) :
    split? (before ++ '\x7b' :: '\x7d' :: after) = some (before, after) := by
  induction before with
  | nil => rfl
  | cons c before ih =>
    rw [List.cons_append, hasPlaceholder_cons_iff, not_or] at hfirst
    obtain ⟨hbraces, hrest⟩ := hfirst
    rw [List.cons_append, split?, ih hrest]
    · rfl
    · intro rest hc heq
      refine hbraces ⟨hc, ?_⟩
      cases before with
      | nil => cases heq
      | cons d before => exact congrArg List.head? heq

theorem split?_of_none {template : List Char} (hnone : ¬HasPlaceholder template) :
    split? template = none := by
  cases hsplit : split? template with
  | none => rfl
  | some parts =>
    obtain ⟨rfl, -⟩ := split?_eq_some hsplit
    exact absurd ⟨parts.1, parts.2, by simp⟩ hnone

theorem fills_render (template argument : List Char) :
    Fills argument template (render template [argument]) := by
  rw [render]
  cases hsplit : split? template with
  | none => exact .none (split?_eq_none hsplit)
  | some parts =>
    obtain ⟨before, after⟩ := parts
    obtain ⟨rfl, hfirst⟩ := split?_eq_some hsplit
    simp only [render_nil]
    exact .first hfirst

/-- A template is filled in one way. -/
theorem fills_iff {argument template output : List Char} :
    Fills argument template output ↔ output = render template [argument] := by
  constructor
  · intro hfills
    rw [render]
    cases hfills with
    | first hfirst => simp only [split?_of_first hfirst, render_nil]
    | none hnone => simp only [split?_of_none hnone]
  · rintro rfl
    exact fills_render template argument

end CountedHeap.Template
