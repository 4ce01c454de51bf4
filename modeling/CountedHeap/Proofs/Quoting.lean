import CountedHeap.Proofs.Scanning
import Mathlib.Data.List.TakeWhile

/-! Quoted texts, told by what is written between their marks and not by how it is scanned. Every
spelling is scanned to the text that it spells; a text that is scanned was spelled so. Hence a first
token that is a text or a word tells what stands at the beginning. -/
namespace CountedHeap.Settings

open Text.Decimal

/-- The letters that stand for a character behind a backslash. -/
def letters : List (Char × Char) :=
  [('b', '\x08'), ('t', '\t'), ('n', '\n'), ('f', '\x0c'), ('r', '\r'), ('e', '\x1b'), ('"', '"'),
    ('\\', '\\')]

/-- The letters that announce so many hexadecimal digits behind a backslash. -/
def digitCounts : List (Char × Nat) := [('x', 2), ('u', 4), ('U', 8)]

/-- What is written behind a backslash for a character. -/
inductive Escape : List Char → Char → Prop
  | letter {mark value : Char} (hmark : (mark, value) ∈ letters) : Escape [mark] value
  | digits {mark : Char} {digits : List Char} {v : Nat}
      (hmark : (mark, digits.length) ∈ digitCounts)
      (hvalue : continueNat? 16 0 digits = some v) (hvalid : v.isValidChar) :
      Escape (mark :: digits) (Char.ofNat v)

/-- Blanks and ends of lines, at least one of these: behind a backslash they stand for nothing. -/
def Fold (white : List Char) : Prop :=
  '\n' ∈ white ∧ ∀ c ∈ white, c = '\n' ∨ Token.isBlank c = true

/-- What is written for a text, in one line or in a block of lines. -/
inductive Spelled (inBlock : Bool) (q : Quote) : List Char → List Char → Prop
  | nil : Spelled inBlock q [] []
  | plain {c : Char} {text spelling : List Char} (hplain : Token.isPlain c = true)
      (hmark : c ≠ q.mark) (hslash : q = .basic → c ≠ '\\')
      (hrest : Spelled inBlock q text spelling) : Spelled inBlock q (c :: text) (c :: spelling)
  | escape {c : Char} {code text spelling : List Char} (hbasic : q = .basic) (hcode : Escape code c)
      (hrest : Spelled inBlock q text spelling) :
      Spelled inBlock q (c :: text) ('\\' :: (code ++ spelling))
  | fold {white text spelling : List Char} (hbasic : q = .basic) (hblock : inBlock = true)
      (hfold : Fold white) (hvisible : ∀ c ∈ spelling.head?, Token.isBlank c = false)
      (hrest : Spelled inBlock q text spelling) :
      Spelled inBlock q text ('\\' :: (white ++ spelling))

/-- The quotation marks on one side of a text. -/
def marks (inBlock : Bool) (q : Quote) : List Char :=
  if inBlock then [q.mark, q.mark, q.mark] else [q.mark]

/-- A text between its marks. One in a single line is not empty; a block may begin with the end of a
line, which does not count. -/
inductive Quoted : Name → List Char → Prop
  | once {q : Quote} {name spelling : List Char} (h : Spelled false q name spelling)
      (hne : spelling ≠ []) : Quoted name (marks false q ++ spelling ++ marks false q)
  | thrice {q : Quote} {name start spelling : List Char} (h : Spelled true q name spelling)
      (hstart : start = [] ∨ start = ['\n']) :
      Quoted name (marks true q ++ start ++ spelling ++ marks true q)

/-- A text without quotation marks, backslashes and control characters is spelled as it is. -/
theorem spelled_self {inBlock : Bool} {q : Quote} {text : List Char}
    (h : text.all (fun c => Token.isPlain c && c != q.mark && c != '\\') = true) :
    Spelled inBlock q text text := by
  induction text with
  | nil => exact .nil
  | cons c text ih =>
    simp only [List.all_cons, Bool.and_eq_true, bne_iff_ne] at h
    obtain ⟨⟨⟨hplain, hmark⟩, hslash⟩, htext⟩ := h
    exact .plain hplain hmark (fun _ => hslash) (ih htext)

namespace Token

/-- Within a text in one line, or in a block. -/
def within (inBlock : Bool) (q : Quote) (back : List Char) : Mode :=
  if inBlock then .block q back else .line q back

/-- The token of a quoted text. -/
def ofText (inBlock : Bool) (text : List Char) : Token :=
  if inBlock then .quotedBlock text else .quoted text

theorem value?_ofText (inBlock : Bool) (name : Name) :
    Statement.value? [ofText inBlock name] = some (.text name) := by
  cases inBlock <;> rfl

theorem ofText_inj {inBlock inOther : Bool} {text other : List Char}
    (h : ofText inBlock text = ofText inOther other) : text = other := by
  cases inBlock <;> cases inOther <;> cases h <;> rfl

/-! From what is written to what is scanned. -/

theorem scan_digits {digits : List Char} {value v : Nat} (hne : digits ≠ [])
    (hvalue : continueNat? 16 value digits = some v) (hvalid : v.isValidChar) (inBlock : Bool)
    (back rest : List Char) :
    scan (.code inBlock back digits.length value) (digits ++ rest) =
      scan (inText inBlock (Char.ofNat v :: back)) rest := by
  induction digits generalizing value with
  | nil => exact absurd rfl hne
  | cons c digits ih =>
    rw [continueNat?] at hvalue
    cases hdigit : digit? 16 c with
    | none => simp [hdigit] at hvalue
    | some d =>
      rw [hdigit] at hvalue
      dsimp only at hvalue
      cases digits with
      | nil =>
        obtain rfl := Option.some.inj hvalue
        have hstep : step (.code inBlock back [c].length value) c =
            some (inText inBlock (Char.ofNat (value * 16 + d) :: back), []) := by
          simp [step, stepCode, hdigit, hvalid]
        exact scan_silent hstep rest
      | cons e digits =>
        have hstep : step (.code inBlock back (c :: e :: digits).length value) c =
            some (.code inBlock back (e :: digits).length (value * 16 + d), []) := by
          simp [step, stepCode, hdigit]
        rw [List.cons_append, scan_silent hstep]
        exact ih (List.cons_ne_nil _ _) hvalue

theorem scan_escape {code : List Char} {c : Char} (h : Escape code c) (inBlock : Bool)
    (back rest : List Char) :
    scan (.escape inBlock back) (code ++ rest) = scan (inText inBlock (c :: back)) rest := by
  cases h with
  | letter hmark =>
    apply scan_silent
    simp only [letters, List.mem_cons, Prod.mk.injEq, List.not_mem_nil, or_false] at hmark
    rcases hmark with h | h | h | h | h | h | h | h <;> obtain ⟨rfl, rfl⟩ := h <;> rfl
  | @digits mark digits v hmark hvalue hvalid =>
    simp only [digitCounts, List.mem_cons, Prod.mk.injEq, List.not_mem_nil, or_false] at hmark
    have hne : digits ≠ [] := by
      rintro rfl
      simp at hmark
    have hstep : step (.escape inBlock back) mark =
        some (.code inBlock back digits.length 0, []) := by
      rcases hmark with ⟨rfl, hlength⟩ | ⟨rfl, hlength⟩ | ⟨rfl, hlength⟩ <;> rw [hlength] <;> rfl
    rw [List.cons_append, scan_silent hstep, scan_digits hne hvalue hvalid]

theorem step_fold {c : Char} (hc : c = '\n' ∨ isBlank c = true) (broken : Bool) (back : List Char) :
    step (.fold broken back) c = some (.fold (broken || c = '\n') back, []) := by
  obtain rfl | hc := hc
  · simp [step]
  · have hne : c ≠ '\n' := by
      rintro rfl
      cases hc
    simp [step, hc, hne]

/-- A fold goes on as it began, from blank to blank. -/
theorem scan_escape_white {c : Char} (hc : c = '\n' ∨ isBlank c = true) (back rest : List Char) :
    scan (.escape true back) (c :: rest) = scan (.fold false back) (c :: rest) := by
  have hstep : step (.escape true back) c = step (.fold false back) c := by
    obtain rfl | hc := hc
    · rfl
    · obtain rfl | rfl := space_or_tab hc
      · rfl
      · rfl
  rw [scan, scan, hstep]

theorem scan_white {white : List Char} (hwhite : ∀ c ∈ white, c = '\n' ∨ isBlank c = true)
    (broken : Bool) (back rest : List Char) :
    scan (.fold broken back) (white ++ rest) =
      scan (.fold (broken || '\n' ∈ white) back) rest := by
  induction white generalizing broken with
  | nil => simp
  | cons c white ih =>
    rw [List.cons_append, scan_silent (step_fold (hwhite c List.mem_cons_self) broken back),
      ih fun d hd => hwhite d (List.mem_cons_of_mem _ hd)]
    congr 2
    simp [Bool.or_assoc, eq_comm]

theorem scan_visible {c : Char} (hline : c ≠ '\n') (hblank : isBlank c = false)
    (back rest : List Char) :
    scan (.fold true back) (c :: rest) = scan (.block .basic back) (c :: rest) := by
  have hstep : step (.fold true back) c = step (.block .basic back) c := by
    simp [step, hline, hblank]
  rw [scan, scan, hstep]

theorem step_within (inBlock : Bool) (q : Quote) (back : List Char) (c : Char)
    (hmark : c ≠ q.mark) :
    step (within inBlock q back) c =
      if q = .basic ∧ c = '\\' then some (.escape inBlock back, [])
      else if isPlain c then some (within inBlock q (c :: back), [])
      else none := by
  cases inBlock <;> simp [within, step, stepLine, stepBlock, hmark]

theorem scan_marks (inBlock : Bool) (q : Quote) (back rest : List Char) :
    scan (within inBlock q back) (marks inBlock q ++ rest) =
      (scan .gap rest).map (ofText inBlock back.reverse :: ·) := by
  cases inBlock with
  | false =>
    have hstep : step (.line q back) q.mark = some (.gap, [.quoted back.reverse]) := by
      simp [step, stepLine]
    exact scan_cons hstep rest
  | true =>
    have hfirst : step (.block q back) q.mark = some (.blockEnd q back 2, []) := by
      simp [step, stepBlock]
    have hsecond : step (.blockEnd q back 2) q.mark = some (.blockEnd q back 1, []) := by
      simp [step]
    have hthird : step (.blockEnd q back 1) q.mark = some (.gap, [.quotedBlock back.reverse]) := by
      simp [step]
    exact (scan_silent hfirst _).trans ((scan_silent hsecond _).trans (scan_cons hthird rest))

/-- The first character of a spelling, or of the marks behind it. -/
theorem head_spelled {inBlock : Bool} {q : Quote} {text spelling : List Char}
    (h : Spelled inBlock q text spelling) (rest : List Char) :
    ∃ c more, spelling ++ (marks inBlock q ++ rest) = c :: more ∧ c ≠ '\n' ∧
      ((∀ d ∈ spelling.head?, isBlank d = false) → isBlank c = false) := by
  have hmark : q.mark ≠ '\n' ∧ isBlank q.mark = false := by
    cases q <;> decide
  cases h with
  | nil =>
    cases inBlock with
    | false => exact ⟨q.mark, rest, rfl, hmark.1, fun _ => hmark.2⟩
    | true => exact ⟨q.mark, q.mark :: q.mark :: rest, rfl, hmark.1, fun _ => hmark.2⟩
  | @plain c text spelling hplain =>
    refine ⟨c, _, rfl, ?_, fun hblank => hblank c rfl⟩
    rintro rfl
    cases hplain
  | escape => exact ⟨'\\', _, rfl, by decide, fun _ => rfl⟩
  | fold => exact ⟨'\\', _, rfl, by decide, fun _ => rfl⟩

theorem scan_fold {white : List Char} (hfold : Fold white) {text spelling : List Char}
    (h : Spelled true .basic text spelling) (hvisible : ∀ c ∈ spelling.head?, isBlank c = false)
    (back rest : List Char) :
    scan (.escape true back) (white ++ (spelling ++ (marks true .basic ++ rest))) =
      scan (.block .basic back) (spelling ++ (marks true .basic ++ rest)) := by
  obtain ⟨hline, hwhite⟩ := hfold
  obtain ⟨c, white, rfl⟩ := List.exists_cons_of_ne_nil (List.ne_nil_of_mem hline)
  obtain ⟨d, more, hmore, hd, hblank⟩ := head_spelled h rest
  rw [List.cons_append, scan_escape_white (hwhite c List.mem_cons_self), ← List.cons_append,
    scan_white hwhite, hmore]
  simp only [hline, decide_true, Bool.or_true]
  exact scan_visible hd (hblank hvisible) back more

/-- A spelling is scanned to the text that it spells. -/
theorem scan_spelled {inBlock : Bool} {q : Quote} {text spelling : List Char}
    (h : Spelled inBlock q text spelling) (back rest : List Char) :
    scan (within inBlock q back) (spelling ++ (marks inBlock q ++ rest)) =
      (scan .gap rest).map (ofText inBlock (back.reverse ++ text) :: ·) := by
  induction h generalizing back with
  | nil => rw [List.nil_append, scan_marks, List.append_nil]
  | @plain c text spelling hplain hmark hslash _ ih =>
    have hstep : step (within inBlock q back) c = some (within inBlock q (c :: back), []) := by
      rw [step_within inBlock q back c hmark, if_neg fun h => hslash h.1 h.2, if_pos hplain]
    rw [List.cons_append, scan_silent hstep, ih]
    simp
  | @escape c code text spelling hbasic hcode _ ih =>
    subst hbasic
    have hstep : step (within inBlock .basic back) '\\' = some (.escape inBlock back, []) :=
      step_within inBlock .basic back '\\' (by decide)
    rw [List.cons_append, scan_silent hstep, List.append_assoc, scan_escape hcode]
    refine (ih (c :: back)).trans ?_
    simp
  | @fold white text spelling hbasic hblock hfold hvisible hrest ih =>
    subst hbasic hblock
    have hstep : step (within true .basic back) '\\' = some (.escape true back, []) :=
      step_within true .basic back '\\' (by decide)
    rw [List.cons_append, scan_silent hstep, List.append_assoc, scan_fold hfold hrest hvisible]
    exact ih back

theorem start_mark (q : Quote) : start q.mark = (.oneQuote q, []) := by
  cases q <;> rfl

/-- Behind one mark, a text in one line has begun unless another mark follows. -/
theorem scan_oneQuote (q : Quote) {c : Char} (hc : c ≠ q.mark) (rest : List Char) :
    scan (.oneQuote q) (c :: rest) = scan (within false q []) (c :: rest) := by
  have hstep : step (.oneQuote q) c = step (within false q []) c := by simp [step, within, hc]
  rw [scan, scan, hstep]

/-- A second mark has to be followed by a third one. -/
theorem scan_twoQuotes (q : Quote) {c : Char} (hc : c ≠ q.mark) (rest : List Char) :
    scan (.twoQuotes q) (c :: rest) = none := by
  simp [scan, step, hc]

theorem scan_two_marks (q : Quote) (rest : List Char) :
    scan .gap (q.mark :: q.mark :: rest) = scan (.twoQuotes q) rest := by
  have hsecond : step (.oneQuote q) q.mark = some (.twoQuotes q, []) := by simp [step]
  rw [scan_start_silent (start_mark q), scan_silent hsecond]

theorem scan_three_marks (q : Quote) (rest : List Char) :
    scan .gap (marks true q ++ rest) = scan (.blockStart q) rest := by
  have hthird : step (.twoQuotes q) q.mark = some (.blockStart q, []) := by simp [step]
  exact (scan_two_marks q _).trans (scan_silent hthird rest)

theorem scan_blockStart (q : Quote) {c : Char} (hc : c ≠ '\n') (rest : List Char) :
    scan (.blockStart q) (c :: rest) = scan (within true q []) (c :: rest) := by
  have hstep : step (.blockStart q) c = step (within true q []) c := by simp [step, within, hc]
  rw [scan, scan, hstep]

theorem scan_blockStart_newline (q : Quote) (rest : List Char) :
    scan (.blockStart q) ('\n' :: rest) = scan (within true q []) rest := by
  have hstep : step (.blockStart q) '\n' = some (within true q [], []) := rfl
  exact scan_silent hstep rest

/-- A text that is not empty, in one line. -/
theorem scan_once {q : Quote} {name spelling : List Char} (h : Spelled false q name spelling)
    (hne : spelling ≠ []) (rest : List Char) :
    scan .gap (marks false q ++ spelling ++ marks false q ++ rest) =
      (scan .gap rest).map (Token.quoted name :: ·) := by
  have hhead : ∃ c more, spelling = c :: more ∧ c ≠ q.mark := by
    cases h with
    | nil => exact absurd rfl hne
    | plain _ hmark => exact ⟨_, _, rfl, hmark⟩
    | escape hbasic => exact ⟨_, _, rfl, by rw [hbasic]; decide⟩
    | fold hbasic => exact ⟨_, _, rfl, by rw [hbasic]; decide⟩
  have hscan := scan_spelled h [] rest
  obtain ⟨c, more, rfl, hc⟩ := hhead
  rw [List.append_assoc, List.append_assoc]
  exact (scan_start_silent (start_mark q) _).trans ((scan_oneQuote q hc _).trans hscan)

/-- A quoted text is one token, and its value is the text. -/
theorem scan_quoted {name text : List Char} (h : Quoted name text) (rest : List Char) :
    ∃ inBlock, scan .gap (text ++ rest) = (scan .gap rest).map (ofText inBlock name :: ·) := by
  cases h with
  | once h hne => exact ⟨false, scan_once h hne rest⟩
  | @thrice q _ start spelling h hstart =>
    refine ⟨true, ?_⟩
    have hscan := scan_spelled h [] rest
    rw [List.append_assoc, List.append_assoc, List.append_assoc, scan_three_marks]
    obtain rfl | rfl := hstart
    · obtain ⟨c, more, hmore, hc, -⟩ := head_spelled h rest
      rw [hmore] at hscan
      rw [List.nil_append, hmore, scan_blockStart q hc]
      exact hscan
    · exact (scan_blockStart_newline q _).trans hscan

/-! From what is scanned to what was written. -/

theorem exists_of_scan_code {inBlock : Bool} {back text : List Char} {missing value : Nat}
    {tokens : List Token} (hmissing : missing ≠ 0)
    (h : scan (.code inBlock back missing value) text = some tokens) :
    ∃ digits v rest, text = digits ++ rest ∧ digits.length = missing ∧
      continueNat? 16 value digits = some v ∧ v.isValidChar ∧
      scan (inText inBlock (Char.ofNat v :: back)) rest = some tokens := by
  induction text generalizing missing value with
  | nil => cases h
  | cons c text ih =>
    obtain ⟨next, first, others, hstep, hrest, rfl⟩ := exists_step_of_scan h
    simp only [step, stepCode] at hstep
    cases hdigit : digit? 16 c with
    | none => simp [hdigit] at hstep
    | some d =>
      rw [hdigit] at hstep
      dsimp only at hstep
      split at hstep
      · next hmore =>
        cases hstep
        obtain ⟨digits, v, rest, rfl, hlength, hvalue, hvalid, hscan⟩ := ih (by omega) hrest
        refine ⟨c :: digits, v, rest, rfl, ?_, ?_, hvalid, hscan⟩
        · rw [List.length_cons]
          omega
        · rwa [continueNat?, hdigit]
      · next hlast =>
        split at hstep
        · next hvalid =>
          cases hstep
          refine ⟨[c], value * 16 + d, text, rfl, ?_, ?_, hvalid, hrest⟩
          · rw [List.length_singleton]
            omega
          · rw [continueNat?, hdigit]
            rfl
        · cases hstep

theorem exists_of_scan_fold {broken : Bool} {back text : List Char} {tokens : List Token}
    (h : scan (.fold broken back) text = some tokens) :
    ∃ white rest, text = white ++ rest ∧ (broken = true ∨ '\n' ∈ white) ∧
      (∀ c ∈ white, c = '\n' ∨ isBlank c = true) ∧ (∀ c ∈ rest.head?, isBlank c = false) ∧
      scan (.block .basic back) rest = some tokens := by
  induction text generalizing broken with
  | nil => cases h
  | cons c text ih =>
    by_cases hc : c = '\n' ∨ isBlank c = true
    · rw [scan_silent (step_fold hc broken back)] at h
      obtain ⟨white, rest, rfl, hline, hwhite, hvisible, hscan⟩ := ih h
      refine ⟨c :: white, rest, rfl, ?_, List.forall_mem_cons.mpr ⟨hc, hwhite⟩, hvisible, hscan⟩
      rw [Bool.or_eq_true, decide_eq_true_eq] at hline
      obtain (hbroken | rfl) | hline := hline
      · exact .inl hbroken
      · exact .inr List.mem_cons_self
      · exact .inr (List.mem_cons_of_mem c hline)
    · rw [not_or, Bool.not_eq_true] at hc
      obtain ⟨hline, hblank⟩ := hc
      have hbroken : broken = true := by
        obtain ⟨next, first, others, hstep, -⟩ := exists_step_of_scan h
        by_contra hbroken
        simp [step, hline, hblank, hbroken] at hstep
      subst hbroken
      rw [scan_visible hline hblank] at h
      exact ⟨[], c :: text, rfl, .inl rfl, List.forall_mem_nil _, by simpa using hblank, h⟩

/-- A letter stands for a character or announces digits; white space begins a fold. -/
theorem stepEscape_cases {inBlock : Bool} {back : List Char} {c : Char} {next : Mode}
    {first : List Token} (h : stepEscape inBlock back c = some (next, first)) :
    (∃ value, (c, value) ∈ letters ∧ (inText inBlock (value :: back), []) = (next, first)) ∨
    (∃ count, (c, count) ∈ digitCounts ∧ (.code inBlock back count 0, []) = (next, first)) ∨
    (inBlock = true ∧ (c = '\n' ∨ isBlank c = true)) := by
  unfold stepEscape at h
  split at h
  case h_9 => exact .inr (.inl ⟨2, by decide, Option.some.inj h⟩)
  case h_10 => exact .inr (.inl ⟨4, by decide, Option.some.inj h⟩)
  case h_11 => exact .inr (.inl ⟨8, by decide, Option.some.inj h⟩)
  case h_12 =>
    split at h
    · next hblock => exact .inr (.inr ⟨hblock, .inl rfl⟩)
    · cases h
  case h_13 =>
    split at h
    · next hblock =>
      rw [Bool.and_eq_true] at hblock
      exact .inr (.inr ⟨hblock.1, .inr hblock.2⟩)
    · cases h
  all_goals exact .inl ⟨_, by decide, Option.some.inj h⟩

/-- Behind a backslash stand the code of a character or white space up to the next visible one. -/
theorem exists_of_scan_escape {inBlock : Bool} {back text : List Char} {tokens : List Token}
    (h : scan (.escape inBlock back) text = some tokens) :
    (∃ code c rest, Escape code c ∧ text = code ++ rest ∧
      scan (inText inBlock (c :: back)) rest = some tokens) ∨
    (inBlock = true ∧ ∃ white rest, Fold white ∧ text = white ++ rest ∧
      (∀ c ∈ rest.head?, isBlank c = false) ∧ scan (.block .basic back) rest = some tokens) := by
  cases text with
  | nil => cases h
  | cons c text =>
    obtain ⟨next, first, others, hstep, hrest, rfl⟩ := exists_step_of_scan h
    obtain ⟨value, hmem, hnext⟩ | ⟨count, hmem, hnext⟩ | ⟨rfl, hc⟩ := stepEscape_cases hstep
    · cases hnext
      exact .inl ⟨[c], value, text, .letter hmem, rfl, hrest⟩
    · cases hnext
      have hne : count ≠ 0 := by
        rintro rfl
        simp [digitCounts] at hmem
      obtain ⟨digits, v, rest, rfl, rfl, hvalue, hvalid, hscan⟩ := exists_of_scan_code hne hrest
      exact .inl ⟨c :: digits, Char.ofNat v, rest, .digits hmem hvalue hvalid, rfl, hscan⟩
    · rw [scan_escape_white hc] at h
      obtain ⟨white, rest, htext, hline, hwhite, hvisible, hscan⟩ := exists_of_scan_fold h
      have hfold : Fold white := ⟨hline.resolve_left Bool.false_ne_true, hwhite⟩
      exact .inr ⟨rfl, white, rest, hfold, htext, hvisible, hscan⟩

/-- A text that begins with a mark within quotation marks is closed there. -/
theorem exists_of_scan_marks {inBlock : Bool} {q : Quote} {back rest : List Char}
    {tokens : List Token} (h : scan (within inBlock q back) (q.mark :: rest) = some tokens) :
    ∃ behind others, q.mark :: rest = marks inBlock q ++ behind ∧
      tokens = ofText inBlock back.reverse :: others ∧ scan .gap behind = some others := by
  cases inBlock with
  | false =>
    have hscan := scan_marks false q back rest
    obtain ⟨others, hrest, rfl⟩ := Option.map_eq_some_iff.mp (hscan.symm.trans h)
    exact ⟨rest, others, rfl, rfl, hrest⟩
  | true =>
    have hfirst : step (within true q back) q.mark = some (.blockEnd q back 2, []) := by
      simp [within, step, stepBlock]
    have hend : ∀ {missing text}, scan (.blockEnd q back missing) text = some tokens →
        ∃ more, text = q.mark :: more := by
      intro missing text h
      cases text with
      | nil => cases h
      | cons c text =>
        obtain ⟨next, first, others, hstep, -⟩ := exists_step_of_scan h
        by_cases hc : c = q.mark
        · exact ⟨text, by rw [hc]⟩
        · simp [step, hc] at hstep
    have hsecond : step (.blockEnd q back 2) q.mark = some (.blockEnd q back 1, []) := by
      simp [step]
    have htail := h
    rw [scan_silent hfirst] at htail
    obtain ⟨rest, rfl⟩ := hend htail
    rw [scan_silent hsecond] at htail
    obtain ⟨rest, rfl⟩ := hend htail
    have hscan := scan_marks true q back rest
    obtain ⟨others, hrest, rfl⟩ := Option.map_eq_some_iff.mp (hscan.symm.trans h)
    exact ⟨rest, others, rfl, rfl, hrest⟩

/-- A text that is scanned to its end was spelled. -/
theorem exists_of_scan_within {inBlock : Bool} {q : Quote} {back text : List Char}
    {tokens : List Token} (h : scan (within inBlock q back) text = some tokens) :
    ∃ name spelling rest others, Spelled inBlock q name spelling ∧
      text = spelling ++ (marks inBlock q ++ rest) ∧
      tokens = ofText inBlock (back.reverse ++ name) :: others ∧ scan .gap rest = some others := by
  -- An escape and a fold are several characters long.
  induction hlength : text.length using Nat.strong_induction_on generalizing text back with
  | _ length ih =>
    subst hlength
    cases text with
    | nil => cases inBlock <;> cases h
    | cons c text =>
      by_cases hmark : c = q.mark
      · subst hmark
        obtain ⟨rest, others, htext, htokens, hrest⟩ := exists_of_scan_marks h
        exact ⟨[], [], rest, others, .nil, htext, by rw [htokens, List.append_nil], hrest⟩
      have hstep := step_within inBlock q back c hmark
      split at hstep
      · next hslash =>
        obtain ⟨rfl, rfl⟩ := hslash
        rw [scan_silent hstep] at h
        obtain ⟨code, c, text, hcode, rfl, hscan⟩ |
          ⟨rfl, white, text, hfold, rfl, hvisible, hscan⟩ := exists_of_scan_escape h
        · have hshort : text.length < ('\\' :: (code ++ text)).length := by
            rw [List.length_cons, List.length_append]
            omega
          obtain ⟨name, spelling, rest, others, hspelled, rfl, htokens, hrest⟩ :=
            ih _ hshort hscan rfl
          exact ⟨c :: name, '\\' :: (code ++ spelling), rest, others, .escape rfl hcode hspelled,
            by simp, by rw [htokens]; simp, hrest⟩
        · have hshort : text.length < ('\\' :: (white ++ text)).length := by
            rw [List.length_cons, List.length_append]
            omega
          obtain ⟨name, spelling, rest, others, hspelled, rfl, htokens, hrest⟩ :=
            ih _ hshort hscan rfl
          have hhead : ∀ c ∈ spelling.head?, isBlank c = false := by
            intro c hc
            exact hvisible c (by rw [List.head?_append, hc]; rfl)
          exact ⟨name, '\\' :: (white ++ spelling), rest, others,
            .fold rfl rfl hfold hhead hspelled, by simp, htokens, hrest⟩
      · next hslash =>
        split at hstep
        · next hplain =>
          rw [scan_silent hstep] at h
          obtain ⟨name, spelling, rest, others, hspelled, rfl, htokens, hrest⟩ :=
            ih _ (Nat.lt_succ_self _) h rfl
          exact ⟨c :: name, c :: spelling, rest, others,
            .plain hplain hmark (fun hbasic hc => hslash ⟨hbasic, hc⟩) hspelled, rfl,
            by rw [htokens]; simp, hrest⟩
        · obtain ⟨next, first, others, hsome, -⟩ := exists_step_of_scan h
          rw [hstep] at hsome
          cases hsome

theorem exists_of_scan_blockStart {q : Quote} {text : List Char} {tokens : List Token}
    (h : scan (.blockStart q) text = some tokens) :
    ∃ start name spelling rest others, (start = [] ∨ start = ['\n']) ∧
      Spelled true q name spelling ∧ text = start ++ (spelling ++ (marks true q ++ rest)) ∧
      tokens = .quotedBlock name :: others ∧ scan .gap rest = some others := by
  cases text with
  | nil => cases h
  | cons c text =>
    by_cases hc : c = '\n'
    · subst hc
      rw [scan_blockStart_newline] at h
      obtain ⟨name, spelling, rest, others, hspelled, rfl, htokens, hrest⟩ :=
        exists_of_scan_within h
      exact ⟨['\n'], name, spelling, rest, others, .inr rfl, hspelled, rfl, htokens, hrest⟩
    · rw [scan_blockStart q hc] at h
      obtain ⟨name, spelling, rest, others, hspelled, htext, htokens, hrest⟩ :=
        exists_of_scan_within h
      exact ⟨[], name, spelling, rest, others, .inl rfl, hspelled, htext, htokens, hrest⟩

/-- What begins with a quotation mark and can be scanned begins with a quoted text. -/
theorem exists_of_scan_mark {q : Quote} {text : List Char} {tokens : List Token}
    (h : scan .gap (q.mark :: text) = some tokens) :
    ∃ inBlock name quoted rest others, Quoted name quoted ∧ q.mark :: text = quoted ++ rest ∧
      tokens = ofText inBlock name :: others ∧ scan .gap rest = some others := by
  cases text with
  | nil =>
    rw [scan_start_silent (start_mark q)] at h
    cases h
  | cons c text =>
    by_cases hc : c = q.mark
    · subst hc
      cases text with
      | nil =>
        rw [scan_two_marks] at h
        cases h
      | cons c text =>
        by_cases hc : c = q.mark
        · subst hc
          have hblock := (scan_three_marks q text).symm.trans h
          obtain ⟨start, name, spelling, rest, others, hstart, hspelled, rfl, htokens, hrest⟩ :=
            exists_of_scan_blockStart hblock
          exact ⟨true, name, _, rest, others, .thrice hspelled hstart, by simp [marks], htokens,
            hrest⟩
        · rw [scan_two_marks, scan_twoQuotes q hc] at h
          cases h
    · rw [scan_start_silent (start_mark q), scan_oneQuote q hc] at h
      obtain ⟨name, spelling, rest, others, hspelled, htext, htokens, hrest⟩ :=
        exists_of_scan_within h
      have hne : spelling ≠ [] := by
        rintro rfl
        exact hc (List.cons.inj htext).1
      exact ⟨false, name, _, rest, others, .once hspelled hne, by simp [marks, htext], htokens,
        hrest⟩

/-! What stands at the beginning. -/

theorem start_cases (c : Char) :
    (∃ token, punctuation? c = some token ∧ start c = (.gap, [token])) ∨ isBlank c = true ∨
      (c = '#' ∧ start c = (.comment, [])) ∨ (∃ q : Quote, c = q.mark) ∨
      start c = (.word [c], []) := by
  cases hpunctuation : punctuation? c with
  | some token => exact .inl ⟨token, rfl, by rw [start, hpunctuation]⟩
  | none =>
    by_cases hblank : isBlank c = true
    · exact .inr (.inl hblank)
    by_cases hcomment : c = '#'
    · subst hcomment
      exact .inr (.inr (.inl ⟨rfl, rfl⟩))
    by_cases hbasic : c = Quote.basic.mark
    · exact .inr (.inr (.inr (.inl ⟨.basic, hbasic⟩)))
    by_cases hliteral : c = Quote.literal.mark
    · exact .inr (.inr (.inr (.inl ⟨.literal, hliteral⟩)))
    · refine .inr (.inr (.inr (.inr ?_)))
      simp [start, hpunctuation, hblank, hcomment, hbasic, hliteral]

theorem punctuation?_eq_lineEnd {c : Char} (h : punctuation? c = some .lineEnd) : c = '\n' := by
  unfold punctuation? at h
  split at h <;> first | rfl | cases h

theorem punctuation?_ne_word (c : Char) (word : List Char) :
    punctuation? c ≠ some (.word word) := by
  unfold punctuation?
  split <;> nofun

/-- The blanks at the beginning can be told from the rest. -/
theorem exists_gap (text : List Char) :
    ∃ gap rest, Gap gap ∧ text = gap ++ rest ∧ ∀ c ∈ rest.head?, isBlank c = false := by
  refine ⟨text.takeWhile isBlank, text.dropWhile isBlank, fun c hc => List.mem_takeWhile_imp hc,
    (List.takeWhile_append_dropWhile).symm, fun c hc => ?_⟩
  have hhead := List.head?_dropWhile_not isBlank text
  rw [Option.mem_def.mp hc] at hhead
  simpa using hhead

/-- A word that is scanned first is written first. -/
theorem exists_of_scan_first_word {text word : List Char} {others : List Token}
    (h : scan .gap text = some (.word word :: others)) :
    ∃ gap rest, Gap gap ∧ text = gap ++ (word ++ rest) ∧ scan .gap rest = some others := by
  obtain ⟨gap, text, hgap, rfl, hblank⟩ := exists_gap text
  rw [scan_gap hgap] at h
  refine ⟨gap, ?_⟩
  cases text with
  | nil => cases h
  | cons c text =>
    obtain ⟨token, htoken, hstart⟩ | hc | ⟨-, hstart⟩ | ⟨q, rfl⟩ | hstart := start_cases c
    · rw [scan_start, hstart] at h
      obtain ⟨more, -, heq⟩ := Option.map_eq_some_iff.mp h
      obtain ⟨rfl, -⟩ := List.cons.inj heq
      exact absurd htoken (punctuation?_ne_word c word)
    · exact absurd hc (by simp [hblank c rfl])
    · rw [scan_start_silent hstart] at h
      cases head?_of_scan_comment h _ rfl
    · obtain ⟨inBlock, name, _, _, _, _, _, heq, _⟩ := exists_of_scan_mark h
      cases inBlock <;> cases heq
    · rw [scan_start_silent hstart] at h
      obtain ⟨more, rest, _, rfl, heq, hrest⟩ := exists_of_scan_word h
      obtain ⟨hword, rfl⟩ := List.cons.inj heq
      obtain rfl := Token.word.inj hword
      exact ⟨rest, hgap, rfl, hrest⟩

/-- Where no token is left on the line, nothing but a comment is written on it. -/
theorem exists_of_scan_lineEnd {text : List Char} {tokens : List Token}
    (h : scan .gap text = some tokens) (hhead : ∀ token ∈ tokens.head?, token = .lineEnd) :
    ∃ gap rest, Gap gap ∧ text = gap ++ rest ∧ ∀ c ∈ rest.head?, c = '#' ∨ c = '\n' := by
  obtain ⟨gap, text, hgap, rfl, hblank⟩ := exists_gap text
  rw [scan_gap hgap] at h
  refine ⟨gap, text, hgap, rfl, ?_⟩
  rintro c hc
  obtain ⟨text, rfl⟩ := List.head?_eq_some_iff.mp hc
  obtain ⟨token, htoken, hstart⟩ | hc | ⟨hc, -⟩ | ⟨q, rfl⟩ | hstart := start_cases c
  · rw [scan_start, hstart] at h
    obtain ⟨more, -, rfl⟩ := Option.map_eq_some_iff.mp h
    obtain rfl := hhead token rfl
    exact .inr (punctuation?_eq_lineEnd htoken)
  · exact absurd hc (by simp [hblank c rfl])
  · exact .inl hc
  · obtain ⟨inBlock, name, _, _, _, _, _, rfl, _⟩ := exists_of_scan_mark h
    have htoken := hhead _ rfl
    cases inBlock <;> cases htoken
  · rw [scan_start_silent hstart] at h
    obtain ⟨_, _, _, _, rfl, _⟩ := exists_of_scan_word h
    cases hhead _ rfl

end Token

end CountedHeap.Settings
