/-!
White space: the twenty-five characters of the Unicode property. A text is trimmed by dropping those
at its ends. No other characters are dropped, and what stays begins and ends with none of them. -/
namespace CountedHeap.Text

/-- The code points of white space, from the first to the last of each run. -/
def blankRuns : List (Nat × Nat) :=
  [(0x9, 0xD), (0x20, 0x20), (0x85, 0x85), (0xA0, 0xA0), (0x1680, 0x1680), (0x2000, 0x200A),
    (0x2028, 0x2029), (0x202F, 0x202F), (0x205F, 0x205F), (0x3000, 0x3000)]

/-- Whether a character is white space. -/
def isBlank (c : Char) : Bool := blankRuns.any fun run => run.1 ≤ c.toNat && c.toNat ≤ run.2

/-- A text without the white space at its ends. -/
def trim (text : List Char) : List Char :=
  ((text.dropWhile isBlank).reverse.dropWhile isBlank).reverse

example : (blankRuns.map fun run => run.2 + 1 - run.1).sum = 25 := by decide

theorem isBlank_of_isWhitespace {c : Char} (h : c.isWhitespace = true) : isBlank c = true := by
  simp [Char.isWhitespace] at h
  rcases h with ((h | h) | h) | h <;> subst h <;> decide

/-- Neither a space without width nor the mark of the byte order is white space. -/
example : isBlank '\u200b' = false ∧ isBlank '\ufeff' = false := by decide

/-- White space within a text is kept. -/
example : trim "\u3000a b\x0c ".toList = "a b".toList := by decide

theorem isBlank_of_head?_dropWhile {text : List Char} {c : Char}
    (h : (text.dropWhile isBlank).head? = some c) : isBlank c = false := by
  induction text with
  | nil => simp at h
  | cons d text ih =>
    cases hd : isBlank d with
    | true => exact ih (by simpa [hd] using h)
    | false => simp [hd] at h; exact h ▸ hd

theorem trim_append_takeWhile (text : List Char) :
    trim text ++ ((text.dropWhile isBlank).reverse.takeWhile isBlank).reverse =
      text.dropWhile isBlank := by
  rw [trim, ← List.reverse_append, List.takeWhile_append_dropWhile, List.reverse_reverse]

theorem exists_eq_append_trim (text : List Char) :
    ∃ before behind, before.all isBlank = true ∧ behind.all isBlank = true ∧
      text = before ++ trim text ++ behind := by
  refine ⟨text.takeWhile isBlank,
    ((text.dropWhile isBlank).reverse.takeWhile isBlank).reverse, List.all_takeWhile, ?_, ?_⟩
  · rw [List.all_reverse]; exact List.all_takeWhile
  · rw [List.append_assoc, trim_append_takeWhile, List.takeWhile_append_dropWhile]

theorem isBlank_of_head?_trim {text : List Char} {c : Char}
    (h : (trim text).head? = some c) : isBlank c = false := by
  apply isBlank_of_head?_dropWhile
  rw [← trim_append_takeWhile, List.head?_append, h]; rfl

theorem isBlank_of_getLast?_trim {text : List Char} {c : Char}
    (h : (trim text).getLast? = some c) : isBlank c = false := by
  rw [trim, List.getLast?_reverse] at h
  exact isBlank_of_head?_dropWhile h

end CountedHeap.Text
