import CountedHeap.Proofs.Placeholder
import Mathlib.Data.List.Infix

/-! The pieces of a template are the texts around its placeholders. A template is cut into pieces in
one way, and what it is rendered to can be told from them. -/
namespace CountedHeap.Template

def placeholder : List Char := ['\x7b', '\x7d']

/-- Pieces with placeholders between them. -/
def joined (pieces : List (List Char)) : List Char := placeholder.intercalate pieces

/-- The texts around the placeholders, in which there are no others. -/
structure Parts (template : List Char) (pieces : List (List Char)) : Prop where
  nonempty : pieces ≠ []
  eq_joined : template = joined pieces
  clear : ∀ piece ∈ pieces, ¬HasPlaceholder piece

/-- At how many places a placeholder begins. -/
def occurrences (template : List Char) : Nat := template.tails.countP placeholder.isPrefixOf

/-- So many pieces, each with an argument behind it. -/
def woven (pieces arguments : List (List Char)) (count : Nat) : List Char :=
  ((pieces.zip arguments).take count).flatMap fun (piece, argument) => piece ++ argument

@[simp] theorem joined_singleton (piece : List Char) : joined [piece] = piece :=
  List.intercalate_singleton

theorem joined_cons (piece next : List Char) (rest : List (List Char)) :
    joined (piece :: next :: rest) = piece ++ '\x7b' :: '\x7d' :: joined (next :: rest) := by
  rw [joined, List.intercalate_cons_cons, List.append_assoc]
  rfl

/-- The first pieces stand in front of the rest, each with its placeholder behind it. -/
theorem joined_eq {pieces : List (List Char)} {count : Nat} (hlt : count < pieces.length) :
    joined pieces = (pieces.take count).flatMap (· ++ placeholder) ++ joined (pieces.drop count) := by
  induction count generalizing pieces with
  | zero => simp
  | succ count ih =>
    match pieces with
    | [] | [_] => simp at hlt
    | piece :: next :: rest =>
      have hrest := @ih (next :: rest) (Nat.lt_of_succ_lt_succ hlt)
      rw [joined_cons, hrest]
      simp [placeholder]

@[simp] theorem woven_zero (pieces arguments : List (List Char)) : woven pieces arguments 0 = [] :=
  rfl

@[simp] theorem woven_succ (piece argument : List Char) (pieces arguments : List (List Char))
    (count : Nat) :
    woven (piece :: pieces) (argument :: arguments) (count + 1) =
      piece ++ argument ++ woven pieces arguments count := rfl

/-- A placeholder does not begin at the end of a piece. -/
theorem hasPlaceholder_snoc {text : List Char} :
    HasPlaceholder (text ++ ['\x7b']) ↔ HasPlaceholder text := by
  unfold HasPlaceholder
  rw [List.infix_concat_iff, or_iff_right]
  rintro ⟨start, heq⟩
  have hlast := congrArg List.getLast? heq
  simp at hlast

/-! Cutting a template. -/

/-- The first piece is the whole template, or what stands before the first placeholder. -/
theorem Parts.cases {template : List Char} {pieces : List (List Char)} (h : Parts template pieces) :
    (split? template = none ∧ pieces = [template]) ∨
      ∃ before after rest, split? template = some (before, after) ∧ pieces = before :: rest ∧
        Parts after rest := by
  obtain ⟨hnonempty, rfl, hclear⟩ := h
  cases pieces with
  | nil => exact absurd rfl hnonempty
  | cons piece rest =>
    have hpiece := hclear piece List.mem_cons_self
    cases rest with
    | nil =>
      rw [joined_singleton]
      exact .inl ⟨split?_of_none hpiece, rfl⟩
    | cons next rest =>
      rw [joined_cons]
      refine .inr ⟨piece, _, _, split?_of_first (mt hasPlaceholder_snoc.mp hpiece), rfl, ?_⟩
      exact ⟨List.cons_ne_nil _ _, rfl, fun p hp => hclear p (List.mem_cons_of_mem _ hp)⟩

theorem parts_of_split_none {template : List Char} (h : split? template = none) :
    Parts template [template] := by
  refine ⟨List.cons_ne_nil _ _, (joined_singleton template).symm, ?_⟩
  rw [List.forall_mem_singleton]
  exact split?_eq_none h

theorem Parts.cons {template before after : List Char} {rest : List (List Char)}
    (h : Parts after rest) (hsplit : split? template = some (before, after)) :
    Parts template (before :: rest) := by
  obtain ⟨hnonempty, rfl, hclear⟩ := h
  obtain ⟨rfl, hfirst⟩ := split?_eq_some hsplit
  refine ⟨List.cons_ne_nil _ _, ?_, ?_⟩
  · obtain ⟨next, rest, rfl⟩ := List.exists_cons_of_ne_nil hnonempty
    exact (joined_cons before next rest).symm
  · rw [List.forall_mem_cons]
    exact ⟨mt hasPlaceholder_snoc.mpr hfirst, hclear⟩

theorem exists_parts (template : List Char) : ∃ pieces, Parts template pieces := by
  induction hlength : template.length using Nat.strongRecOn generalizing template with
  | ind length ih =>
    cases hsplit : split? template with
    | none => exact ⟨_, parts_of_split_none hsplit⟩
    | some parts =>
      obtain ⟨before, after⟩ := parts
      obtain ⟨htemplate, -⟩ := split?_eq_some hsplit
      have hshorter : after.length < length := by
        rw [← hlength, htemplate]
        simp only [List.length_append, List.length_cons]
        omega
      obtain ⟨rest, hrest⟩ := ih _ hshorter after rfl
      exact ⟨_, hrest.cons hsplit⟩

theorem Parts.unique {template : List Char} {pieces others : List (List Char)}
    (h : Parts template pieces) (hothers : Parts template others) : others = pieces := by
  induction pieces generalizing template others with
  | nil => exact absurd rfl h.nonempty
  | cons piece rest ih =>
    obtain ⟨hnone, hpieces⟩ | ⟨before, after, rest', hsome, hpieces, hrest⟩ := h.cases
    · obtain ⟨-, hwhole⟩ | ⟨_, _, _, hsome, -⟩ := hothers.cases
      · rw [hwhole, hpieces]
      · cases hnone.symm.trans hsome
    · obtain ⟨rfl, rfl⟩ := List.cons.inj hpieces
      obtain ⟨hnone, -⟩ | ⟨before', after', rest', hsome', rfl, hrest'⟩ := hothers.cases
      · cases hnone.symm.trans hsome
      · obtain ⟨rfl, rfl⟩ := Prod.mk.inj (Option.some.inj (hsome.symm.trans hsome'))
        rw [ih hrest hrest']

/-! Counting placeholders. -/

theorem occurrences_cons (c : Char) (rest : List Char) :
    occurrences (c :: rest) =
      occurrences rest + if placeholder.isPrefixOf (c :: rest) then 1 else 0 := by
  rw [occurrences, List.tails_cons, List.countP_cons]
  rfl

/-- Behind the first placeholder there is one less. -/
theorem occurrences_eq (template : List Char) :
    occurrences template = (split? template).elim 0 fun parts => occurrences parts.2 + 1 := by
  fun_induction split? template with
  | case1 rest => simp [occurrences_cons, placeholder]
  | case2 c rest hbraces ih =>
    have hnot : placeholder.isPrefixOf (c :: rest) = false := by
      rw [Bool.eq_false_iff, ne_eq, List.isPrefixOf_iff_prefix]
      rintro ⟨more, heq⟩
      obtain ⟨rfl, rfl⟩ := List.cons.inj heq
      exact hbraces more rfl rfl
    rw [occurrences_cons, hnot, ih, Option.elim_map]
    rfl
  | case3 => rfl

theorem Parts.length_eq {template : List Char} {pieces : List (List Char)}
    (h : Parts template pieces) : pieces.length = occurrences template + 1 := by
  induction pieces generalizing template with
  | nil => exact absurd rfl h.nonempty
  | cons piece rest ih =>
    obtain ⟨hnone, hpieces⟩ | ⟨before, after, rest', hsome, hpieces, hrest⟩ := h.cases
    · rw [hpieces, occurrences_eq, hnone]
      rfl
    · obtain ⟨rfl, rfl⟩ := List.cons.inj hpieces
      rw [occurrences_eq, hsome, List.length_cons, ih hrest]
      rfl

/-! Rendering a template. -/

/-- Arguments fill as many placeholders as they can, and what stands behind the last of these is left
as it is. -/
theorem Parts.render_eq {template : List Char} {pieces : List (List Char)}
    (h : Parts template pieces) (arguments : List (List Char)) :
    let filled := min (occurrences template) arguments.length
    render template arguments = woven pieces arguments filled ++ joined (pieces.drop filled) := by
  induction arguments generalizing template pieces with
  | nil => simp [h.eq_joined]
  | cons argument arguments ih =>
    rw [render, occurrences_eq]
    obtain ⟨hnone, rfl⟩ | ⟨before, after, rest, hsome, rfl, hrest⟩ := h.cases
    · simp [hnone]
    · simp only [hsome, Option.elim_some, List.length_cons, Nat.add_min_add_right, woven_succ,
        List.drop_succ_cons, List.append_assoc]
      rw [ih hrest]

end CountedHeap.Template
