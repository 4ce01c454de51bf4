import CountedHeap.Template.Basic
import CountedHeap.Text.Octets

/-!
Rendering into a writer with a bounded number of octets. The writer takes whole characters while
they fit and fails at the first that does not; the rendering then stops. Arguments are drawn one
by one, each before its placeholder is looked for. -/
namespace CountedHeap.Template

/-- What became of a text offered to a bounded writer. -/
structure Fitting where
  taken : List Char
  room : Nat
  whole : Bool
deriving DecidableEq, Repr

/-- Takes characters while they fit into the room that is left. -/
def fit (room : Nat) : List Char → Fitting
  | [] => ⟨[], room, true⟩
  | c :: rest =>
    if c.utf8Size ≤ room then
      let later := fit (room - c.utf8Size) rest
      { later with taken := c :: later.taken }
    else ⟨[], room, false⟩

/-- The result of a bounded rendering: whether all was written, what was written, and how many
arguments were drawn. -/
structure Rendering where
  whole : Bool
  output : List Char
  drawn : Nat
deriving DecidableEq, Repr

/-- Renders a template into a writer with the given room. -/
def renderBounded (room : Nat) (template : List Char) : List (List Char) → Rendering
  | [] =>
    let tail := fit room template
    ⟨tail.whole, tail.taken, 0⟩
  | argument :: rest =>
    match split? template with
    | none =>
      let tail := fit room template
      ⟨tail.whole, tail.taken, 1⟩
    | some (before, after) =>
      let piece := fit room (before ++ argument)
      if piece.whole then
        let later := renderBounded piece.room after rest
        ⟨later.whole, piece.taken ++ later.output, later.drawn + 1⟩
      else ⟨false, piece.taken, 1⟩

@[simp] theorem renderBounded_nil (room : Nat) (template : List Char) :
    renderBounded room template [] =
      ⟨(fit room template).whole, (fit room template).taken, 0⟩ := rfl

theorem size_fit (room : Nat) (text : List Char) :
    Text.size (fit room text).taken + (fit room text).room = room := by
  induction text generalizing room with
  | nil => simp [fit]
  | cons c text ih =>
    by_cases hc : c.utf8Size ≤ room
    · have hrest := ih (room - c.utf8Size)
      simp only [fit, if_pos hc, Text.size_cons]
      omega
    · simp [fit, hc]

/-- What the writer takes is the text itself, cut off somewhere. -/
theorem fit_taken (room : Nat) (text : List Char) :
    ∃ cut, text = (fit room text).taken ++ cut ∧ ((fit room text).whole = true ↔ cut = []) := by
  induction text generalizing room with
  | nil => exact ⟨[], by simp [fit]⟩
  | cons c text ih =>
    by_cases hc : c.utf8Size ≤ room
    · obtain ⟨cut, hcut, hwhole⟩ := ih (room - c.utf8Size)
      refine ⟨cut, ?_, ?_⟩
      · simp only [fit, if_pos hc, List.cons_append]
        exact congrArg (c :: ·) hcut
      · simpa only [fit, if_pos hc] using hwhole
    · exact ⟨c :: text, by simp [fit, hc]⟩

end CountedHeap.Template
