import CountedHeap.Proofs.Pieces
import CountedHeap.Proofs.Storage
import CountedHeap.Template.Bounded

/-! Rendering into a writer that takes so many octets and no more. What the writer has taken in the
end is the longest beginning of the rendering that fits, and the place of the first character that
does not fit tells how many arguments were drawn. A rendering that cuts its template by octets, and
checks that no character is cut, comes to the same. -/
namespace CountedHeap.Template

open Text

/-- The output is the longest beginning of the text that fits. -/
structure Longest (room : Nat) (text output : List Char) : Prop where
  front : output <+: text
  fits : size output ≤ room
  longest : ∀ other, other <+: text → size other ≤ room → other <+: output

/-! A writer with little room. -/

theorem whole_fit_iff {room : Nat} {text : List Char} :
    (fit room text).whole = true ↔ size text ≤ room := by
  induction text generalizing room with
  | nil => simp [fit]
  | cons c text ih =>
    by_cases hc : c.utf8Size ≤ room
    · simp only [fit, if_pos hc, size_cons]
      rw [ih]
      omega
    · simp only [fit, if_neg hc, size_cons, Bool.false_eq_true, false_iff]
      omega

theorem taken_of_whole {room : Nat} {text : List Char} (hwhole : (fit room text).whole = true) :
    (fit room text).taken = text := by
  obtain ⟨cut, htext, hcut⟩ := fit_taken room text
  rw [hcut.mp hwhole, List.append_nil] at htext
  exact htext.symm

theorem length_taken_lt {room : Nat} {text : List Char} (hwhole : ¬(fit room text).whole = true) :
    (fit room text).taken.length < text.length := by
  obtain ⟨cut, htext, hcut⟩ := fit_taken room text
  have hlength := congrArg List.length htext
  have hpos := List.length_pos_iff.mpr (mt hcut.mpr hwhole)
  rw [List.length_append] at hlength
  omega

theorem longest_fit (room : Nat) (text : List Char) : Longest room text (fit room text).taken := by
  refine ⟨?_, ?_, ?_⟩
  · obtain ⟨cut, htext, -⟩ := fit_taken room text
    exact ⟨cut, htext.symm⟩
  · have hsize := size_fit room text
    omega
  · induction text generalizing room with
    | nil => exact fun other hother _ => hother
    | cons c text ih =>
      rintro other hother hfits
      obtain rfl | ⟨more, rfl, hmore⟩ := List.prefix_cons_iff.mp hother
      · exact List.nil_prefix
      · rw [size_cons] at hfits
        rw [fit, if_pos (by omega), List.prefix_cons_inj]
        exact ih _ more hmore (by omega)

/-- Two texts one after the other are taken as one. -/
theorem fit_append (room : Nat) (left right : List Char) :
    fit room (left ++ right) =
      let first := fit room left
      if first.whole then
        let second := fit first.room right
        ⟨first.taken ++ second.taken, second.room, second.whole⟩
      else first := by
  induction left generalizing room with
  | nil => rfl
  | cons c left ih =>
    by_cases hc : c.utf8Size ≤ room
    · simp only [List.cons_append, fit, if_pos hc, ih]
      split <;> rfl
    · simp [fit, hc]

/-- The writer takes of the pieces and arguments what it would take of the rendering. -/
theorem renderBounded_eq_fit (room : Nat) (template : List Char) (arguments : List (List Char)) :
    let written := fit room (render template arguments)
    (renderBounded room template arguments).whole = written.whole ∧
      (renderBounded room template arguments).output = written.taken := by
  induction arguments generalizing room template with
  | nil => exact ⟨rfl, rfl⟩
  | cons argument arguments ih =>
    rw [render, renderBounded]
    cases split? template with
    | none => exact ⟨rfl, rfl⟩
    | some parts =>
      obtain ⟨hwhole, houtput⟩ := ih (fit room (parts.1 ++ argument)).room parts.2
      dsimp only
      rw [fit_append room (parts.1 ++ argument)]
      by_cases hpiece : (fit room (parts.1 ++ argument)).whole = true
      · simp only [if_pos hpiece]
        exact ⟨hwhole, congrArg (_ ++ ·) houtput⟩
      · rw [if_neg hpiece, if_neg hpiece]
        exact ⟨(Bool.eq_false_iff.mpr hpiece).symm, rfl⟩

/-- Where the output ends tells how many arguments were drawn: each one together with its piece, and
one more if there is any when the placeholders are used up. -/
theorem Parts.drawn_eq {template : List Char} {pieces : List (List Char)}
    (h : Parts template pieces) (room : Nat) (arguments : List (List Char)) :
    let k := occurrences template
    let n := arguments.length
    let r := renderBounded room template arguments
    (∀ j < min k n, (woven pieces arguments j).length ≤ r.output.length →
      r.output.length < (woven pieces arguments (j + 1)).length → r.drawn = j + 1) ∧
    ((woven pieces arguments (min k n)).length ≤ r.output.length → r.drawn = min n (k + 1)) := by
  induction arguments generalizing template pieces room with
  | nil => simp
  | cons argument arguments ih =>
    rw [renderBounded, occurrences_eq]
    obtain ⟨hnone, rfl⟩ | ⟨before, after, rest, hsome, rfl, hrest⟩ := h.cases
    · simp [hnone]
    · simp only [hsome, Option.elim_some, List.length_cons, Nat.add_min_add_right, woven_succ]
      by_cases hpiece : (fit room (before ++ argument)).whole = true
      · have hlater := ih hrest (fit room (before ++ argument)).room
        rw [if_pos hpiece]
        simp only [taken_of_whole hpiece, List.length_append, Nat.add_le_add_iff_left,
          Nat.add_right_cancel_iff]
        refine ⟨fun j hj hle hlt => ?_, hlater.2⟩
        cases j with
        | zero =>
          simp only [woven_zero, List.length_nil] at hlt
          omega
        | succ j =>
          simp only [woven_succ, List.length_append, Nat.add_le_add_iff_left,
            Nat.add_lt_add_iff_left] at hle hlt
          exact hlater.1 j (by omega) hle hlt
      · -- The output ends within the first piece or its argument.
        have hshort := length_taken_lt hpiece
        rw [if_neg hpiece]
        simp only [List.length_append] at hshort ⊢
        refine ⟨fun j hj hle hlt => ?_, fun hle => ?_⟩
        · cases j with
          | zero => rfl
          | succ j =>
            simp only [woven_succ, List.length_append] at hle
            omega
        · omega

/-! Cutting the template by octets. -/

/-- The first place among octets where those of a placeholder begin. -/
def find? : List UInt8 → Option Nat
  | [] => none
  | b :: rest =>
    if (octets placeholder).isPrefixOf (b :: rest) then some 0 else (find? rest).map (· + 1)

/-- A text cut in two, where a character has to end. -/
def sliceAt (place : Nat) (text : List Char) : Except Storage.Breach (List Char × List Char) :=
  (Storage.cut place text).map fun before => (before, text.drop before.length)

/-- Renders a template into a writer with the given room. The placeholders are found by their octets,
and what stands before and behind them is written as it is cut off. -/
def renderSliced (room : Nat) (template : List Char) :
    List (List Char) → Except Storage.Breach Rendering
  | [] =>
    let tail := fit room template
    .ok ⟨tail.whole, tail.taken, 0⟩
  | argument :: rest =>
    match find? (octets template) with
    | none =>
      let tail := fit room template
      .ok ⟨tail.whole, tail.taken, 1⟩
    | some place => do
      let (before, _) ← sliceAt place template
      let first := fit room before
      if first.whole then
        let second := fit first.room argument
        if second.whole then
          let (_, after) ← sliceAt (place + size placeholder) template
          let later ← renderSliced second.room after rest
          return ⟨later.whole, first.taken ++ second.taken ++ later.output, later.drawn + 1⟩
        else return ⟨false, first.taken ++ second.taken, 1⟩
      else return ⟨false, first.taken, 1⟩

/-- Octets that cannot begin a placeholder are passed over. -/
theorem find?_append {front : List UInt8} (hfront : 0x7B ∉ front) (rest : List UInt8) :
    find? (front ++ rest) = (find? rest).map (front.length + ·) := by
  induction front with
  | nil => simp
  | cons b front ih =>
    rw [List.mem_cons, not_or] at hfront
    obtain ⟨hb, hfront⟩ := hfront
    have hnot : (octets placeholder).isPrefixOf (b :: (front ++ rest)) = false := by
      rw [Bool.eq_false_iff, ne_eq, List.isPrefixOf_iff_prefix]
      exact fun hstart => hb (List.cons_prefix_cons.mp hstart).1
    rw [List.cons_append, find?, hnot, if_neg Bool.false_ne_true, ih hfront, Option.map_map]
    congr 1
    funext place
    simp only [List.length_cons, Function.comp_apply]
    omega

/-- The first octet of a closing brace is not that of another character. -/
theorem head?_of_head?_octets {text : List Char} (hhead : (octets text).head? = some 0x7D) :
    text.head? = some '\x7d' := by
  cases text with
  | nil => cases hhead
  | cons c text =>
    have hnonempty : String.utf8EncodeChar c ≠ [] := by
      rw [← List.length_pos_iff, String.length_utf8EncodeChar]
      exact c.utf8Size_pos
    rw [octets_cons, List.head?_append_of_ne_nil _ hnonempty] at hhead
    exact congrArg some ((Decoder.mem_encode_iff (by decide)).mp (List.mem_of_mem_head? hhead))

/-- Among the octets of a template the first placeholder is where it is among the characters. -/
theorem find?_octets (template : List Char) :
    find? (octets template) = (split? template).map fun parts => size parts.1 := by
  fun_induction split? template with
  | case1 rest => rfl
  | case2 c rest hbraces ih =>
    have hpassed : find? (octets (c :: rest)) = (find? (octets rest)).map (c.utf8Size + ·) := by
      by_cases hc : c = '\x7b'
      · subst hc
        have hnot : (octets placeholder).isPrefixOf (octets ('\x7b' :: rest)) = false := by
          rw [Bool.eq_false_iff, ne_eq, List.isPrefixOf_iff_prefix]
          rintro ⟨more, heq⟩
          have hhead : (octets rest).head? = some 0x7D :=
            (congrArg List.head? (List.cons.inj heq).2).symm
          obtain ⟨rest, rfl⟩ := List.head?_eq_some_iff.mp (head?_of_head?_octets hhead)
          exact hbraces rest rfl rfl
        change (if (octets placeholder).isPrefixOf (octets ('\x7b' :: rest)) then some 0
          else (find? (octets rest)).map (· + 1)) = _
        rw [hnot]
        exact congrArg (Option.map · _) (funext fun place => Nat.add_comm place 1)
      · have hfront : 0x7B ∉ String.utf8EncodeChar c :=
          fun hmem => hc ((Decoder.mem_encode_iff (by decide)).mp hmem)
        rw [octets_cons, find?_append hfront, String.length_utf8EncodeChar]
    rw [hpassed, ih, Option.map_map, Option.map_map]
    rfl
  | case3 => rfl

theorem sliceAt_size (before after : List Char) :
    sliceAt (size before) (before ++ after) = .ok (before, after) := by
  rw [sliceAt, Storage.cut_append]
  change Except.ok (before, (before ++ after).drop before.length) = _
  rw [List.drop_left]

/-- No cut fails. -/
theorem renderSliced_eq (room : Nat) (template : List Char) (arguments : List (List Char)) :
    renderSliced room template arguments = .ok (renderBounded room template arguments) := by
  induction arguments generalizing room template with
  | nil => rfl
  | cons argument arguments ih =>
    rw [renderSliced, renderBounded, find?_octets]
    cases hsplit : split? template with
    | none => rfl
    | some parts =>
      obtain ⟨before, after⟩ := parts
      obtain ⟨htemplate, -⟩ := split?_eq_some hsplit
      have hbefore : sliceAt (size before) template = .ok (before, '\x7b' :: '\x7d' :: after) := by
        rw [htemplate, sliceAt_size]
      have hafter : sliceAt (size before + size placeholder) template =
          .ok (before ++ placeholder, after) := by
        have hbraces : before ++ '\x7b' :: '\x7d' :: after = before ++ placeholder ++ after := by
          rw [List.append_assoc]
          rfl
        rw [htemplate, hbraces, ← size_append, sliceAt_size]
      simp only [Option.map_some, hbefore, hafter, ih, fit_append, bind, Except.bind, pure,
        Except.pure]
      by_cases hfirst : (fit room before).whole = true
      · simp only [if_pos hfirst]
        split <;> rfl
      · simp only [if_neg hfirst]

/-- What becomes of a template. It is cut into pieces in one way, and the rendering is woven from the
pieces and the arguments as far as both go, with the rest of the template behind them as it is. A
writer with little room takes the whole rendering if it fits, and else the longest beginning that
does; an argument is drawn with the piece before it, and one more when no placeholder is left for
it. Where the template is cut, no character is. -/
theorem template_law (template : List Char) (arguments : List (List Char)) :
    ∃ pieces, Parts template pieces ∧ (∀ others, Parts template others → others = pieces) ∧
      let k := occurrences template
      let n := arguments.length
      let m := min k n
      let rest := joined (pieces.drop m)
      let rendering := woven pieces arguments m ++ rest
      pieces.length = k + 1 ∧
      template = (pieces.take m).flatMap (· ++ placeholder) ++ rest ∧
      render template arguments = rendering ∧
      ∀ room,
        let r := renderBounded room template arguments
        renderSliced room template arguments = .ok r ∧
        (size rendering ≤ room → r = ⟨true, rendering, min n (k + 1)⟩) ∧
        (room < size rendering →
          r.whole = false ∧ Longest room rendering r.output ∧
          (∀ j < m, (woven pieces arguments j).length ≤ r.output.length →
            r.output.length < (woven pieces arguments (j + 1)).length → r.drawn = j + 1) ∧
          ((woven pieces arguments m).length ≤ r.output.length → r.drawn = min n (k + 1))) := by
  obtain ⟨pieces, hparts⟩ := exists_parts template
  refine ⟨pieces, hparts, fun others => hparts.unique, ?_⟩
  intro k n m rest rendering
  have hlength : pieces.length = k + 1 := hparts.length_eq
  have hrender : render template arguments = rendering := hparts.render_eq arguments
  refine ⟨hlength, ?_, hrender, fun room => ?_⟩
  · rw [hparts.eq_joined]
    exact joined_eq (by omega)
  intro r
  obtain ⟨hwhole, houtput⟩ := renderBounded_eq_fit room template arguments
  obtain ⟨hwithin, hbehind⟩ := hparts.drawn_eq room arguments
  rw [hrender] at hwhole houtput
  refine ⟨renderSliced_eq room template arguments, fun hfits => ?_, fun hshort => ?_⟩
  · have hall := whole_fit_iff.mpr hfits
    rw [taken_of_whole hall] at houtput
    -- The output goes on to the end, and so past the last argument that is filled in.
    have hdrawn : r.drawn = min n (k + 1) := by
      apply hbehind
      rw [houtput, List.length_append]
      exact Nat.le_add_right _ _
    calc
      r = ⟨r.whole, r.output, r.drawn⟩ := rfl
      _ = ⟨true, rendering, min n (k + 1)⟩ := by rw [hwhole.trans hall, houtput, hdrawn]
  · refine ⟨?_, ?_, hwithin, hbehind⟩
    · rw [hwhole, Bool.eq_false_iff]
      exact fun hall => Nat.not_le_of_lt hshort (whole_fit_iff.mp hall)
    · rw [houtput]
      exact longest_fit room rendering

/-- An argument that is a placeholder, between braces that it makes look like more of them. Without
room for the first character one argument is drawn, two if the second one does not fit, and the third
one as soon as only the end of the template is left. -/
theorem template_of_braces :
    let template := "é\x7b\x7d-\x7b\x7b\x7d\x7d".toList
    let arguments := ["x".toList, "\x7b\x7d".toList, "z".toList]
    Parts template ["é".toList, "-\x7b".toList, "\x7d".toList] ∧
      render template arguments = "éx-\x7b\x7b\x7d\x7d".toList ∧
      renderBounded 8 template arguments = ⟨true, "éx-\x7b\x7b\x7d\x7d".toList, 3⟩ ∧
      (renderBounded 7 template arguments).drawn = 3 ∧
      (renderBounded 5 template arguments).drawn = 2 ∧
      (renderBounded 1 template arguments).drawn = 1 ∧
      Longest 1 "éx-\x7b\x7b\x7d\x7d".toList [] := by
  intro template arguments
  have hexplicit : Parts template ["é".toList, "-\x7b".toList, "\x7d".toList] :=
    ⟨nofun, by decide, by unfold HasPlaceholder; decide⟩
  obtain ⟨pieces, -, hunique, -, -, hrender, hwriter⟩ := template_law template arguments
  obtain rfl := hunique _ hexplicit
  obtain ⟨-, hall, -⟩ := hwriter 8
  obtain ⟨-, -, hseven⟩ := hwriter 7
  obtain ⟨-, -, hfive⟩ := hwriter 5
  obtain ⟨-, -, hone⟩ := hwriter 1
  obtain ⟨-, hlongest, hfirst, -⟩ := hone (by decide)
  obtain ⟨-, -, hsecond, -⟩ := hfive (by decide)
  obtain ⟨-, -, -, hthird⟩ := hseven (by decide)
  exact ⟨hexplicit, hrender, hall (by decide), hthird (by decide),
    hsecond 1 (by decide) (by decide) (by decide), hfirst 0 (by decide) (by decide) (by decide),
    hlongest⟩

end CountedHeap.Template
