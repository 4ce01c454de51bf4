import CountedHeap.Heap.Content
import CountedHeap.Heap.Create
import CountedHeap.Proofs.Numeral
import CountedHeap.Proofs.Pieces
import CountedHeap.Template.EndMarked
import Mathlib.Data.List.TakeWhile
import Mathlib.Data.Option.Basic

/-! Arguments that carry their own end. Only the head of a list is filled in, what stands before its
first mark; so lists of integers and of texts are rendered as their heads are, and a live value as a
list of its own, unless it is the integer that marks the end. -/
namespace CountedHeap

namespace Template

open Text

/-- What stands in a list before its first mark, or all of it when there is none. -/
inductive Heads {α : Type} (mark : α) : List α → List α → Prop
  | marked {before : List α} (rest : List α) (hnone : mark ∉ before) :
      Heads mark (before ++ mark :: rest) before
  | unmarked {all : List α} (hnone : mark ∉ all) : Heads mark all all

/-- An integer as an argument among texts. The mark of integers becomes the mark of texts. -/
def numeral? (n : Int) : Option (List Char) :=
  if n = integerMark then none else some (Decimal.ofInt n)

theorem Heads.cons {α : Type} {mark a : α} {all before : List α} (hne : a ≠ mark)
    (h : Heads mark all before) : Heads mark (a :: all) (a :: before) := by
  have hcons : ∀ {l : List α}, mark ∉ l → mark ∉ a :: l := fun hnone =>
    List.not_mem_cons_of_ne_of_not_mem hne.symm hnone
  cases h with
  | marked rest hnone => exact .marked rest (hcons hnone)
  | unmarked hnone => exact .unmarked (hcons hnone)

/-- Every list has one head. -/
theorem heads_iff {α : Type} [DecidableEq α] {mark : α} {all before : List α} :
    Heads mark all before ↔ all.takeWhile (· ≠ mark) = before := by
  constructor
  · have hclear : ∀ {l : List α}, mark ∉ l → ∀ a ∈ l, decide (a ≠ mark) = true := by
      intro l hnone a ha
      rw [decide_eq_true_eq]
      rintro rfl
      exact hnone ha
    intro h
    cases h with
    | marked rest hnone =>
      rw [List.takeWhile_append_of_pos (hclear hnone), List.takeWhile_cons_of_neg (by simp),
        List.append_nil]
    | unmarked hnone => exact List.takeWhile_eq_self_iff.mpr (hclear hnone)
  · rintro rfl
    induction all with
    | nil => exact .unmarked List.not_mem_nil
    | cons a all ih =>
      by_cases ha : a = mark
      · subst ha
        rw [List.takeWhile_cons_of_neg (by simp)]
        exact (.marked all List.not_mem_nil : Heads a ([] ++ a :: all) [])
      · rw [List.takeWhile_cons_of_pos (by simpa using ha)]
        exact ih.cons ha

theorem map_textsBeforeMark (arguments : List (Option (List Char))) :
    (textsBeforeMark arguments).map some = arguments.takeWhile (· ≠ none) := by
  induction arguments with
  | nil => rfl
  | cons argument arguments ih =>
    cases argument with
    | none => rfl
    | some text =>
      rw [textsBeforeMark, List.map_cons, ih]
      rfl

/-- Lists with one head have the same arguments. -/
theorem textsBeforeMark_congr {arguments others before : List (Option (List Char))}
    (h : Heads none arguments before) (hothers : Heads none others before) :
    textsBeforeMark arguments = textsBeforeMark others := by
  apply List.map_injective_iff.mpr (Option.some_injective _)
  rw [map_textsBeforeMark, map_textsBeforeMark, heads_iff.mp h, heads_iff.mp hothers]

/-- The integers before their mark are the texts before theirs. -/
theorem textsBeforeMark_map_numeral? (arguments : List Int) :
    textsBeforeMark (arguments.map numeral?) =
      (integersBeforeMark arguments).map Decimal.ofInt := by
  unfold integersBeforeMark
  induction arguments with
  | nil => rfl
  | cons n arguments ih =>
    rw [List.map_cons, numeral?]
    by_cases hn : n = integerMark
    · rw [if_pos hn, List.takeWhile_cons_of_neg (by simpa using hn)]
      rfl
    · rw [if_neg hn, List.takeWhile_cons_of_pos (by simpa using hn), textsBeforeMark, ih]
      rfl

/-! One argument, in its place or not. -/

/-- No number is written like a placeholder. -/
theorem ofInt_ne_placeholder (n : Int) : Decimal.ofInt n ≠ placeholder := by
  intro heq
  cases n with
  | ofNat n =>
    have hdigit := (Decimal.plain_ofNat n).isDigit '\x7b'
    rw [Decimal.ofInt] at heq
    rw [heq] at hdigit
    cases hdigit List.mem_cons_self
  | negSucc n => cases (List.cons.inj heq).1

/-- An argument that is no placeholder shows wherever there is a place for it. -/
theorem render_ne_iff {template argument : List Char} (hne : argument ≠ placeholder) :
    render template [argument] ≠ template ↔ HasPlaceholder template := by
  have hfills := fills_render template argument
  generalize hout : render template [argument] = output at hfills
  cases hfills with
  | @first before after =>
    refine ⟨fun _ => ⟨before, after, by simp⟩, fun _ heq => hne ?_⟩
    rw [List.append_assoc, List.append_right_inj] at heq
    exact List.append_cancel_right (heq : argument ++ after = placeholder ++ after)
  | none hnone => exact ⟨fun hsame => absurd rfl hsame, fun hsome => absurd hsome hnone⟩

end Template

open Template Text

/-- A value is displayed as what stands for it is filled in. -/
theorem Heap.display_of_read {s : Heap} {h : Handle} {view : View} (hread : s.read h = .ok view)
    (template : List Char) : s.display h template = .ok (render template [view.display]) := by
  rw [display, hread]
  rfl

/-- Lists that carry their own end are rendered as their heads are, whatever follows the first mark,
and integers as their numerals. A text is displayed as a list of its own is rendered, and so is
every integer but the mark, which is displayed all the same and is missed wherever there is a place
for it. -/
theorem end_mark_law (template : List Char) :
    (∀ arguments : List Int, ∃ before, Heads integerMark arguments before ∧
      renderIntegers template arguments = render template (before.map Decimal.ofInt) ∧
      renderTexts template (arguments.map numeral?) =
        render template (before.map Decimal.ofInt)) ∧
    (∀ arguments : List (Option (List Char)), ∃ before, Heads none arguments (before.map some) ∧
      renderTexts template arguments = render template before) ∧
    (∀ arguments others before, Heads integerMark arguments before →
      Heads integerMark others before →
        renderIntegers template arguments = renderIntegers template others) ∧
    (∀ arguments others before, Heads none arguments before → Heads none others before →
      renderTexts template arguments = renderTexts template others) ∧
    ∀ (s : Heap) (h : Handle),
      (∀ content, s.read h = .ok (.text content) →
        s.display h template = .ok (renderTexts template [some content])) ∧
      (∀ n, s.read h = .ok (.integer n) → n ≠ integerMark →
        s.display h template = .ok (renderIntegers template [n])) ∧
      (s.read h = .ok (.integer integerMark) →
        (s.display h template ≠ .ok (renderIntegers template [integerMark]) ↔
          HasPlaceholder template)) := by
  refine ⟨?_, ?_, ?_, ?_, fun s h => ⟨?_, ?_, ?_⟩⟩
  · intro arguments
    refine ⟨integersBeforeMark arguments, heads_iff.mpr rfl, rfl, ?_⟩
    rw [renderTexts, textsBeforeMark_map_numeral?]
  · intro arguments
    exact ⟨textsBeforeMark arguments, heads_iff.mpr (map_textsBeforeMark arguments).symm, rfl⟩
  · intro arguments others before hbefore hothers
    have hsame : integersBeforeMark arguments = integersBeforeMark others :=
      (heads_iff.mp hbefore).trans (heads_iff.mp hothers).symm
    rw [renderIntegers, renderIntegers, hsame]
  · intro arguments others before hbefore hothers
    rw [renderTexts, renderTexts, textsBeforeMark_congr hbefore hothers]
  · intro content hread
    exact Heap.display_of_read hread template
  · intro n hread hn
    have hhead : integersBeforeMark [n] = [n] := List.takeWhile_cons_of_pos (decide_eq_true hn)
    rw [Heap.display_of_read hread, renderIntegers, hhead]
    rfl
  · intro hread
    have hhead : integersBeforeMark [integerMark] = [] := by decide
    rw [Heap.display_of_read hread, renderIntegers, hhead, List.map_nil, render_nil, Ne,
      Except.ok.injEq]
    exact render_ne_iff (ofInt_ne_placeholder integerMark)

/-- The mark alone in a list leaves the template as it is; kept in a heap it is displayed. What
follows it in a list is not seen, another mark no more than a number. -/
theorem end_mark_of_greatest :
    let template := ['<', '\x7b', '\x7d', '>']
    let s := ((Heap.ofSettings .standard).createInteger .ample integerMark).heap
    let h : Handle := ⟨0, 0⟩
    (Heads integerMark [1, integerMark, 2, integerMark] [1] ∧ Heads integerMark [1] [1] ∧
      Heads none [none, some ['a']] [] ∧ Heads (none : Option (List Char)) [none] [] ∧
      s.read h = .ok (.integer integerMark)) ∧
    renderIntegers template [1, integerMark, 2, integerMark] = renderIntegers template [1] ∧
    renderTexts template [none, some ['a']] = renderTexts template [none] ∧
    s.display h template ≠ .ok (renderIntegers template [integerMark]) := by
  intro template s h
  obtain ⟨-, -, hintegers, htexts, hvalues⟩ := end_mark_law template
  obtain ⟨-, -, hmark⟩ := hvalues s h
  have hlong : Heads integerMark [1, integerMark, 2, integerMark] [1] := heads_iff.mpr (by decide)
  have hshort : Heads integerMark [1] [1] := heads_iff.mpr (by decide)
  have hfollowed : Heads (none : Option (List Char)) [none, some ['a']] [] :=
    heads_iff.mpr (by decide)
  have halone : Heads (none : Option (List Char)) [none] [] := heads_iff.mpr (by decide)
  have hread : s.read h = .ok (.integer integerMark) := by rfl
  exact ⟨⟨hlong, hshort, hfollowed, halone, hread⟩, hintegers _ _ _ hlong hshort,
    htexts _ _ _ hfollowed halone, (hmark hread).mpr ⟨['<'], ['>'], rfl⟩⟩

end CountedHeap
