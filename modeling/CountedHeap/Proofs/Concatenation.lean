import CountedHeap.Proofs.Pieces
import CountedHeap.Text.Octets
import Mathlib.Algebra.Order.Ring.Nat

/-! Two templates one behind the other. Unless a placeholder comes about where they meet, each is
filled as if it stood alone, and the second goes on with the arguments that the first leaves. The
size of a rendering follows from the number of arguments that are filled in. -/
namespace CountedHeap.Template

open Text

/-- The last character of one text and the first of another make up a placeholder. -/
def Straddles (left right : List Char) : Prop :=
  left.getLast? = some '\x7b' ∧ right.head? = some '\x7d'

instance (left right : List Char) : Decidable (Straddles left right) :=
  inferInstanceAs (Decidable (_ ∧ _))

theorem straddles_cons_cons {c d : Char} {left right : List Char} :
    Straddles (c :: d :: left) right ↔ Straddles (d :: left) right := by
  unfold Straddles
  rw [List.getLast?_cons_cons]

/-- Whatever a text begins with, only its end meets the next one. -/
theorem Straddles.append {front left right : List Char} (h : Straddles left right) :
    Straddles (front ++ left) right := by
  refine ⟨?_, h.2⟩
  rw [List.getLast?_append, h.1, Option.some_or]

/-- Two texts hold the placeholders that each of them holds, and perhaps one more between them. -/
theorem hasPlaceholder_append {left right : List Char} :
    HasPlaceholder (left ++ right) ↔
      HasPlaceholder left ∨ HasPlaceholder right ∨ Straddles left right := by
  induction left with
  | nil => simp [HasPlaceholder, Straddles]
  | cons c left ih =>
    rw [List.cons_append, hasPlaceholder_cons_iff, hasPlaceholder_cons_iff, ih]
    cases left with
    | nil => simp [HasPlaceholder, Straddles, or_comm]
    | cons d left => rw [straddles_cons_cons, List.cons_append, List.head?_cons, or_assoc]; rfl

/-- A placeholder begins where an opening brace stands before a closing one. -/
theorem occurrences_cons_eq (c : Char) (rest : List Char) :
    occurrences (c :: rest) =
      occurrences rest + if c = '\x7b' ∧ rest.head? = some '\x7d' then 1 else 0 := by
  have hbraces : placeholder.isPrefixOf (c :: rest) = true ↔
      c = '\x7b' ∧ rest.head? = some '\x7d' := by
    rw [List.isPrefixOf_iff_prefix, placeholder, List.cons_prefix_cons]
    cases rest with
    | nil => simp
    | cons d rest => simp [List.cons_prefix_cons, eq_comm]
  rw [occurrences_cons, if_congr hbraces rfl rfl]

theorem occurrences_append (left right : List Char) :
    occurrences (left ++ right) =
      occurrences left + occurrences right + if Straddles left right then 1 else 0 := by
  induction left with
  | nil => simp [occurrences, Straddles, placeholder]
  | cons c left ih =>
    rw [List.cons_append, occurrences_cons_eq, occurrences_cons_eq, ih]
    cases left with
    | nil =>
      have hmeet : Straddles [c] right ↔ c = '\x7b' ∧ right.head? = some '\x7d' := by
        simp [Straddles]
      have hempty : ¬Straddles [] right := by simp [Straddles]
      simp [hmeet, hempty]
    | cons d left =>
      have hhead : (d :: left ++ right).head? = (d :: left).head? := rfl
      rw [if_congr straddles_cons_cons rfl rfl, hhead]
      omega

/-! The first placeholder of two templates. -/

theorem split?_append_of_some {left before after : List Char}
    (hleft : split? left = some (before, after)) (right : List Char) :
    split? (left ++ right) = some (before, after ++ right) := by
  obtain ⟨rfl, hfirst⟩ := split?_eq_some hleft
  rw [List.append_assoc]
  exact split?_of_first hfirst

theorem split?_append_of_none {left right : List Char} (hleft : split? left = none)
    (hmeet : ¬Straddles left right) :
    split? (left ++ right) = (split? right).map fun parts => (left ++ parts.1, parts.2) := by
  have hnone := split?_eq_none hleft
  cases hright : split? right with
  | none =>
    apply split?_of_none
    rw [hasPlaceholder_append, not_or, not_or]
    exact ⟨hnone, split?_eq_none hright, hmeet⟩
  | some parts =>
    obtain ⟨before, after⟩ := parts
    obtain ⟨rfl, hfirst⟩ := split?_eq_some hright
    rw [← List.append_assoc]
    apply split?_of_first
    rw [List.append_assoc, hasPlaceholder_append, not_or, not_or]
    refine ⟨hnone, hfirst, fun hopen => hmeet ⟨hopen.1, ?_⟩⟩
    -- What meets the left template is the first character before the placeholder of the right one.
    have hclose := hopen.2
    cases before with
    | nil => cases hclose
    | cons d before => exact hclose

/-! Rendering two templates. -/

/-- The first template is filled first. -/
theorem render_append_of_le {left : List Char} {arguments : List (List Char)}
    (hle : arguments.length ≤ occurrences left) (right : List Char) :
    render (left ++ right) arguments = render left arguments ++ right := by
  induction arguments generalizing left with
  | nil => rw [render_nil, render_nil]
  | cons argument arguments ih =>
    rw [occurrences_eq] at hle
    cases hleft : split? left with
    | none => simp [hleft] at hle
    | some parts =>
      obtain ⟨before, after⟩ := parts
      have hrest : arguments.length ≤ occurrences after := by simpa [hleft] using hle
      simp only [render, hleft, split?_append_of_some hleft right, ih hrest, List.append_assoc]

/-- The second template is filled with what the first one leaves. -/
theorem render_append {left right : List Char} (hmeet : ¬Straddles left right)
    (arguments : List (List Char)) :
    render (left ++ right) arguments =
      render left (arguments.take (occurrences left)) ++
        render right (arguments.drop (occurrences left)) := by
  induction arguments generalizing left with
  | nil => simp
  | cons argument arguments ih =>
    rw [occurrences_eq]
    cases hleft : split? left with
    | none =>
      simp only [Option.elim_none, List.take_zero, List.drop_zero, render_nil]
      rw [render, render, split?_append_of_none hleft hmeet]
      cases split? right with
      | none => rfl
      | some parts => simp only [Option.map_some, List.append_assoc]
    | some parts =>
      obtain ⟨before, after⟩ := parts
      obtain ⟨hparts, -⟩ := split?_eq_some hleft
      have hrest : ¬Straddles after right := by
        intro hopen
        apply hmeet
        rw [hparts, List.append_cons, List.append_cons]
        exact hopen.append
      simp only [Option.elim_some, List.take_succ_cons, List.drop_succ_cons, render, hleft,
        split?_append_of_some hleft right, ih hrest, List.append_assoc]

/-- Where two templates make up a placeholder, it takes the argument behind those of the first. -/
theorem render_straddling (front back : List Char) {arguments rest : List (List Char)}
    {argument : List Char} (hdrop : arguments.drop (occurrences front) = argument :: rest) :
    render (front ++ placeholder ++ back) arguments =
      render front (arguments.take (occurrences front)) ++ argument ++ render back rest := by
  have hmeet : ¬Straddles front (placeholder ++ back) := fun hopen => by cases hopen.2
  rw [List.append_assoc, render_append hmeet, hdrop, List.append_assoc]
  rfl

/-- Each argument that is filled in takes the place of the two octets of its placeholder. -/
theorem size_render (template : List Char) (arguments : List (List Char)) :
    let filled := min (occurrences template) arguments.length
    size (render template arguments) + 2 * filled =
      size template + ((arguments.take filled).map size).sum := by
  induction arguments generalizing template with
  | nil => simp
  | cons argument arguments ih =>
    rw [render, occurrences_eq]
    cases hsplit : split? template with
    | none => simp
    | some parts =>
      obtain ⟨before, after⟩ := parts
      obtain ⟨rfl, -⟩ := split?_eq_some hsplit
      have hbraces : Char.utf8Size '\x7b' = 1 ∧ Char.utf8Size '\x7d' = 1 := by decide
      have hrest := ih after
      simp only [Option.elim_some, List.length_cons, Nat.add_min_add_right, List.take_succ_cons,
        List.map_cons, List.sum_cons, size_append, size_cons, hbraces] at hrest ⊢
      omega

/-- What becomes of two templates one behind the other. As long as no placeholder comes about where
they meet, there are as many as in both of them, the first is filled with as many arguments as it
has, and the second with the others; when there are no others it stays as it is. A placeholder that
does come about takes its argument between the two. In size, each argument that is filled in
replaces two octets. -/
theorem concatenation_law (arguments : List (List Char)) :
    (∀ left right : List Char,
      let k := occurrences left
      occurrences (left ++ right) =
        k + occurrences right + (if Straddles left right then 1 else 0) ∧
      (¬Straddles left right → render (left ++ right) arguments =
        render left (arguments.take k) ++ render right (arguments.drop k)) ∧
      (arguments.length ≤ k →
        render (left ++ right) arguments = render left arguments ++ right)) ∧
    (∀ front back argument rest, arguments.drop (occurrences front) = argument :: rest →
      render (front ++ placeholder ++ back) arguments =
        render front (arguments.take (occurrences front)) ++ argument ++ render back rest) ∧
    ∀ template : List Char,
      let m := min (occurrences template) arguments.length
      size (render template arguments) + 2 * m =
        size template + ((arguments.take m).map size).sum := by
  refine ⟨fun left right => ⟨?_, ?_, ?_⟩, ?_, ?_⟩
  · exact occurrences_append left right
  · intro hmeet
    exact render_append hmeet arguments
  · intro hle
    exact render_append_of_le hle right
  · intro front back argument rest hdrop
    exact render_straddling front back hdrop
  · intro template
    exact size_render template arguments

/-- Braces that look like a placeholder at the border and are none, with arguments for both
templates and for the first alone; then a border that is a placeholder itself. -/
theorem concatenation_of_braces :
    let front := "\x7d\x7b\x7d".toList
    let left := front ++ ['\x7b']
    let right := "\x7b\x7d\x7d".toList
    let first := "é".toList
    let second := "\x7b\x7d".toList
    (¬Straddles left right ∧ [first].length ≤ occurrences left ∧
      Straddles left ['\x7d'] ∧ [first, second].drop (occurrences front) = [second]) ∧
    render (left ++ right) [first, second] = render left [first] ++ render right [second] ∧
    render (left ++ right) [first] = render left [first] ++ right ∧
    render (front ++ placeholder ++ []) [first, second] =
      render front [first] ++ second ++ render [] [] := by
  intro front left right first second
  obtain ⟨hboth, hmeet, -⟩ := concatenation_law [first, second]
  obtain ⟨hone, -⟩ := concatenation_law [first]
  obtain ⟨-, hfilled, -⟩ := hboth left right
  obtain ⟨-, -, hleft⟩ := hone left right
  have hdrop : [first, second].drop (occurrences front) = [second] := by decide
  exact ⟨⟨by decide, by decide, by decide, hdrop⟩, hfilled (by decide), hleft (by decide),
    hmeet _ _ _ _ hdrop⟩

end CountedHeap.Template
