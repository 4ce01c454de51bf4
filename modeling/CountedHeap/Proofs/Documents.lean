import CountedHeap.Proofs.DocumentLines

/-! Settings documents, told line by line. One in which each key occurs once decodes to what its
lines say, whatever the order of the lines and the spelling of the values; the settings are got back
from their printed document. A line for another key, a second line for a key and a value that is not
one of its key's make the document fail, whatever stands behind them. -/
namespace CountedHeap.Settings

open Numeral

/-- A document is lines, of which the last one may lack its end. -/
inductive Document : List Entry → List Char → Prop
  | intro {entries : List Entry} {e : Option Entry} {front line text : List Char}
      (hfront : Lines entries front) (hline : Line e line) (heven : Evens text (front ++ line)) :
      Document (entries ++ e.toList) text

/-- Such a value is written, and but for blanks and a comment nothing else is on its line. -/
def Holds (IsValue : List Char → Prop) (rest : List Char) : Prop :=
  ∃ before value after behind, Gap before ∧ IsValue value ∧ Gap after ∧
    (∀ c ∈ behind.head?, c = '#' ∨ c = '\n') ∧ rest = before ++ (value ++ (after ++ behind))

/-- What no document with these entries goes on with. -/
inductive Refused (entries : List Entry) : List Char → Prop
  | key {name : Name} {sign : Char} {opening rest : List Char}
      (hopening : Opening name sign opening) (hsign : sign = '=' ∨ sign = '.')
      (hname : (∀ e : Entry, e.key ≠ name) ∨ name ∈ entries.map Entry.key) :
      Refused entries (opening ++ rest)
  | number {name : Name} {opening rest : List Char} (hopening : Opening name '=' opening)
      (hname : name = Draft.initialCapacityKey ∨ name = Draft.liveLimitKey)
      (hvalue : ¬Holds (fun value => ∃ n, Spells n value ∧ n < bound) rest) :
      Refused entries (opening ++ rest)
  | growth {q : Quote} {opening gap rest : List Char}
      (hopening : Opening Draft.growthKey '=' opening) (hgap : Gap gap)
      (hvalue : ¬Holds (fun value => ∃ policy : Text.Growth, Quoted policy.name.toList value)
        (gap ++ q.mark :: rest)) :
      Refused entries (opening ++ (gap ++ q.mark :: rest))

/-! No document of these begins with a byte order mark, so nothing is dropped from it. -/

def Unmarked (text : List Char) : Prop := text.head? ≠ some '\ufeff'

theorem Unmarked.append {left right : List Char} (hleft : Unmarked left) (hright : Unmarked right) :
    Unmarked (left ++ right) := by
  cases left with
  | nil => exact hright
  | cons c left => exact hleft

theorem Gap.unmarked {gap : List Char} (h : Gap gap) : Unmarked gap := by
  intro hhead
  cases h _ (List.mem_of_mem_head? hhead)

theorem Key.unmarked {name key : List Char} (h : Key name key) : Unmarked key := by
  cases h with
  | bare _ hbare =>
    intro hhead
    cases hbare _ (List.mem_of_mem_head? hhead)
  | @quoted q => cases q <;> exact fun hhead => by cases hhead

theorem Opening.unmarked {name opening : List Char} {sign : Char} (h : Opening name sign opening)
    (hsign : sign = '=' ∨ sign = '.') (rest : List Char) : Unmarked (opening ++ rest) := by
  cases h with
  | intro hindent hkey hgap =>
    rw [List.append_assoc, List.append_assoc, List.append_assoc]
    refine hindent.unmarked.append (hkey.unmarked.append (hgap.unmarked.append ?_))
    obtain rfl | rfl := hsign <;> exact fun hhead => by cases hhead

theorem Trailer.unmarked {trailer : List Char} (h : Trailer trailer) : Unmarked trailer := by
  cases h with
  | gap hgap => exact hgap.unmarked
  | comment hgap => exact hgap.unmarked.append fun hhead => by cases hhead

theorem Line.unmarked {e : Option Entry} {line : List Char} (h : Line e line) : Unmarked line := by
  cases h with
  | blank htrailer => exact htrailer.unmarked
  | entry hopening => exact hopening.unmarked (.inl rfl) _

theorem Lines.unmarked {entries : List Entry} {front : List Char} (h : Lines entries front) :
    Unmarked front := by
  cases h with
  | nil => exact nofun
  | cons hline => exact hline.unmarked.append fun hhead => by cases hhead

theorem Refused.unmarked {entries : List Entry} {rest : List Char} (h : Refused entries rest) :
    Unmarked rest := by
  cases h with
  | key hopening hsign => exact hopening.unmarked hsign _
  | number hopening | growth hopening => exact hopening.unmarked (.inl rfl) _

/-- What a document is read as, once its lines all end with LF. -/
theorem ofDocument?_eq {text even : List Char} (heven : Evens text even) (hmark : Unmarked even) :
    ofDocument? text = (statements? even).bind fun statements =>
      (statements.foldlM Draft.add? Draft.empty).bind Draft.settings? := by
  have hdrop : dropMark text = text := by
    unfold dropMark
    split
    · cases heven with
      | char => exact absurd rfl hmark
    · rfl
  rw [ofDocument?, hdrop, Statement.ofDocument?, Token.ofDocument?,
    Token.lineEnds?_eq_some_iff.mpr heven, Option.bind_some, statements?]
  have hlines : (fun tokens => ((Statement.cut 0 [] tokens).filter (· ≠ [])).mapM
      Statement.ofTokens?) = fun tokens => Statement.ofLines? (Statement.cut 0 [] tokens) := rfl
  rw [hlines]
  cases (Token.scan .gap even).bind fun tokens => Statement.ofLines? (Statement.cut 0 [] tokens) <;>
    rfl

/-! What documents decode to. -/

theorem Document.decodes {entries : List Entry} {text : List Char} (h : Document entries text)
    (hnodup : (entries.map Entry.key).Nodup) :
    ∃ s, Tells entries s ∧ ofDocument? text = some s := by
  obtain ⟨s, htells, hs⟩ := exists_tells hnodup
  refine ⟨s, htells, ?_⟩
  cases h with
  | @intro entries e front line _ hfront hline heven =>
    have hmark := hfront.unmarked.append hline.unmarked
    have hstatements : statements? (front ++ line) =
        some ((entries ++ e.toList).map Entry.statement) := by
      rw [statements?_append hfront, statements?_last hline, Option.map_some]
      cases e <;> simp
    rw [ofDocument?_eq heven hmark, hstatements, Option.bind_some]
    exact (congrArg (·.bind Draft.settings?) (foldlM_statements [] hnodup)).trans hs

/-! Printed documents. -/

/-- The entries that settings are told by. -/
def entries (s : Settings) : List Entry :=
  .growth s.growth :: .initialCapacity s.initialCapacity :: s.liveLimit.toList.map .liveLimit

/-- The form in which the value of an entry is printed. -/
def Entry.print : Entry → List Char
  | growth policy => '"' :: policy.name.toList ++ ['"']
  | initialCapacity n | liveLimit n => Text.Decimal.ofNat n

/-- The document that settings are printed as. -/
def document (s : Settings) : List Char :=
  s.entries.flatMap fun e => e.key ++ " = ".toList ++ e.print ++ ['\n']

example : String.ofList (document ⟨.amortized, 16, some 1024⟩) =
    "growth = \"amortized\"\ninitial-text-capacity = 16\nmax-live-values = 1024\n" := by
  decide +kernel

theorem nodup_entries (s : Settings) : (s.entries.map Entry.key).Nodup := by
  rw [entries]
  cases s.liveLimit with
  | none =>
    have hkeys : [Draft.growthKey, Draft.initialCapacityKey].Nodup := by decide
    exact hkeys
  | some n =>
    have hkeys : [Draft.growthKey, Draft.initialCapacityKey, Draft.liveLimitKey].Nodup := by decide
    exact hkeys

/-- No other settings are told by these entries. -/
theorem eq_of_tells {s t : Settings} (hpositive : 1 ≤ s.initialCapacity) (h : Tells s.entries t) :
    t = s := by
  have hgrowth := h.growth s.growth List.mem_cons_self
  have hcapacity := h.initialCapacity s.initialCapacity
    (List.mem_cons_of_mem _ List.mem_cons_self)
  rw [max_eq_left hpositive] at hcapacity
  have hlimit : t.liveLimit = s.liveLimit := by
    cases hs : s.liveLimit with
    | none => exact h.noLiveLimit fun n hmem => by simp [entries, hs] at hmem
    | some n => exact h.liveLimit n (by simp [entries, hs])
  cases s
  cases t
  cases hgrowth
  cases hcapacity
  cases hlimit
  rfl

theorem writes_print {e : Entry} (h : ∀ n, e.value = .number n → n < bound) : Writes e e.print := by
  cases e with
  | growth policy =>
    have hspelled : Spelled false .basic policy.name.toList policy.name.toList :=
      spelled_self (by cases policy <;> decide)
    have hne : policy.name.toList ≠ [] := by
      cases policy <;> decide
    exact .growth (.once hspelled hne)
  | initialCapacity n => exact .initialCapacity (spells_ofNat n) (h n rfl)
  | liveLimit n => exact .liveLimit (spells_ofNat n) (h n rfl)

/-- A bare key with one blank behind it. -/
theorem opening_bare {name : Name} (hne : name ≠ []) (hbare : name.all Statement.isBare = true)
    (sign : Char) : Opening name sign (name ++ [' ', sign]) :=
  .intro gap_nil (.bare hne (List.all_eq_true.mp hbare)) gap_blank

theorem opening_key (e : Entry) : Opening e.key '=' (e.key ++ [' ', '=']) := by
  have hbare : e.key.all Statement.isBare = true := by
    cases e <;> simp only [Entry.key] <;> decide
  exact opening_bare e.key_ne_nil hbare '='

theorem line_print {e : Entry} (h : ∀ n, e.value = .number n → n < bound) :
    Line (some e) (e.key ++ " = ".toList ++ e.print) := by
  have hline := Line.entry (opening_key e) gap_blank (writes_print h) (.gap gap_nil)
  have htext : e.key ++ [' ', '='] ++ ([' '] ++ (e.print ++ [])) =
      e.key ++ " = ".toList ++ e.print := by simp
  rwa [htext] at hline

theorem lines_print {entries : List Entry}
    (h : ∀ e ∈ entries, ∀ n, e.value = .number n → n < bound) :
    Lines entries (entries.flatMap fun e => e.key ++ " = ".toList ++ e.print ++ ['\n']) := by
  induction entries with
  | nil => exact .nil
  | cons e entries ih =>
    obtain ⟨he, hentries⟩ := List.forall_mem_cons.mp h
    have hcons := Lines.cons (line_print he) (ih hentries)
    rw [List.flatMap_cons, List.append_assoc _ ['\n']]
    exact hcons

theorem not_mem_print (e : Entry) : '\r' ∉ e.key ++ " = ".toList ++ e.print ++ ['\n'] := by
  have hnumber : ∀ n, '\r' ∉ Text.Decimal.ofNat n := by
    intro n hmem
    cases (Text.Decimal.plain_ofNat n).isDigit _ hmem
  have hkey : '\r' ∉ e.key := by
    cases e <;> simp only [Entry.key] <;> decide
  have hprint : '\r' ∉ e.print := by
    cases e with
    | growth policy => cases policy <;> decide
    | initialCapacity n => exact hnumber n
    | liveLimit n => exact hnumber n
  simp [hkey, hprint]

/-- The printed document is one for the entries of the settings. -/
theorem document_printed {s : Settings} (hcapacity : s.initialCapacity < bound)
    (hlimit : ∀ n ∈ s.liveLimit, n < bound) : Document s.entries s.document := by
  have hrange : ∀ e ∈ s.entries, ∀ n, e.value = .number n → n < bound := by
    intro e he n hn
    simp only [entries, List.mem_cons, List.mem_map, Option.mem_toList] at he
    obtain rfl | rfl | ⟨m, hm, rfl⟩ := he
    · cases hn
    · cases hn
      exact hcapacity
    · cases hn
      exact hlimit _ hm
  have hreturn : '\r' ∉ s.document := by
    intro hmem
    obtain ⟨e, -, he⟩ := List.mem_flatMap.mp hmem
    exact not_mem_print e he
  have heven := evens_self hreturn
  rw [← List.append_nil s.document] at heven
  have hdocument := Document.intro (lines_print hrange) (.blank (.gap gap_nil)) heven
  simpa using hdocument

/-! What documents are refused. -/

/-- A number that is read from a line is all that is written there. -/
theorem holds_number {rest : List Char} {tokens first : List Token} {lines : List (List Token)}
    {n : Nat} (hscan : Token.scan .gap rest = some tokens)
    (hcut : Statement.cut 0 [] tokens = first :: lines)
    (hvalue : Statement.value? first = some (.number n)) :
    Holds (fun value => ∃ n, Spells n value ∧ n < bound) rest := by
  obtain ⟨word, rfl, hword⟩ := Statement.value?_number hvalue
  obtain ⟨others, rfl, hothers⟩ :=
    Statement.exists_of_cut_part (Statement.isPart_of_value? hvalue) hcut
  obtain ⟨before, rest, hbefore, rfl, hrest⟩ := Token.exists_of_scan_first_word hscan
  obtain ⟨after, behind, hafter, rfl, hbehind⟩ := Token.exists_of_scan_lineEnd hrest hothers
  have hspells := read?_eq_some_iff.mp hword
  exact ⟨before, word, after, behind, hbefore, ⟨n, hspells⟩, hafter, hbehind, rfl⟩

/-- So is a text that is read where a quotation mark stands first. -/
theorem holds_text {q : Quote} {gap rest : List Char} {tokens first : List Token}
    {lines : List (List Token)} {value : Assigned} (hgap : Gap gap)
    (hscan : Token.scan .gap (gap ++ q.mark :: rest) = some tokens)
    (hcut : Statement.cut 0 [] tokens = first :: lines)
    (hvalue : Statement.value? first = some value) :
    ∃ name, value = .text name ∧ Holds (Quoted name) (gap ++ q.mark :: rest) := by
  rw [Token.scan_gap hgap] at hscan
  obtain ⟨inBlock, name, quoted, behind, others, hquoted, htext, rfl, hothers⟩ :=
    Token.exists_of_scan_mark hscan
  have hpart : ∀ token ∈ [Token.ofText inBlock name], Statement.IsPart token :=
    List.forall_mem_singleton.mpr (Statement.isPart_of_value? (Token.value?_ofText inBlock name))
  obtain ⟨more, _, hmore, hfirst⟩ := Statement.exists_cut_parts hpart others
  obtain ⟨rfl, -⟩ := List.cons.inj (hfirst.symm.trans hcut)
  obtain ⟨rfl, rfl⟩ := Statement.value?_text hvalue
  obtain ⟨after, behind, hafter, rfl, hbehind⟩ :=
    Token.exists_of_scan_lineEnd hothers (Statement.head?_of_cut hmore)
  exact ⟨name, rfl, gap, quoted, after, behind, hgap, hquoted, hafter, hbehind, by rw [htext]⟩

/-- Behind a key and a sign, the first line goes on to a statement. -/
theorem Opening.exists_first {name opening rest : List Char} {sign : Char} {token : Token}
    (h : Opening name sign opening) (hsign : Token.punctuation? sign = some token)
    (hpart : Statement.IsPart token) {statements : List Statement}
    (hstatements : statements? (opening ++ rest) = some statements) :
    ∃ k tokens first lines s others, Statement.key? k = some name ∧
      Token.scan .gap rest = some tokens ∧ Statement.cut 0 [] tokens = first :: lines ∧
      Statement.ofTokens? (k :: token :: first) = some s ∧ statements = s :: others := by
  obtain ⟨tokens, hscan, hlines⟩ := Option.bind_eq_some_iff.mp hstatements
  by_cases hne : name = []
  · subst hne
    rw [Token.scan_empty_opening h hsign] at hscan
    cases hscan
  · obtain ⟨k, hk, hopening⟩ := Token.scan_opening h hne hsign rest
    obtain ⟨tokens, hrest, rfl⟩ := Option.map_eq_some_iff.mp (hopening.symm.trans hscan)
    obtain ⟨first, lines, s, others, hcut, hs, hfirst⟩ :=
      Statement.exists_of_ofLines? hk hpart hlines
    exact ⟨k, tokens, first, lines, s, others, hk, hrest, hcut, hs, hfirst⟩

theorem Opening.exists_value {name opening rest : List Char} (h : Opening name '=' opening)
    {statements : List Statement} (hstatements : statements? (opening ++ rest) = some statements) :
    ∃ tokens first lines value others, Token.scan .gap rest = some tokens ∧
      Statement.cut 0 [] tokens = first :: lines ∧ Statement.value? first = some value ∧
      statements = .assign [name] value :: others := by
  obtain ⟨k, tokens, first, lines, s, others, hk, hscan, hcut, hs, rfl⟩ :=
    h.exists_first rfl Statement.isPart_equals hstatements
  rw [Statement.ofTokens?_equals hk] at hs
  obtain ⟨value, hvalue, rfl⟩ := Option.map_eq_some_iff.mp hs
  exact ⟨tokens, first, lines, value, others, hscan, hcut, hvalue, rfl⟩

/-- Whichever sign stands behind a key, the key or a part of it is assigned to. -/
theorem Opening.exists_assign {name opening rest : List Char} {sign : Char}
    (h : Opening name sign opening) (hsign : sign = '=' ∨ sign = '.')
    {statements : List Statement} (hstatements : statements? (opening ++ rest) = some statements) :
    ∃ names value others, statements = .assign (name :: names) value :: others := by
  obtain rfl | rfl := hsign
  · obtain ⟨_, _, _, value, others, _, _, _, hfirst⟩ := h.exists_value hstatements
    exact ⟨[], value, others, hfirst⟩
  · obtain ⟨k, _, _, _, s, others, hk, _, _, hs, rfl⟩ :=
      h.exists_first rfl Statement.isPart_dot hstatements
    obtain ⟨names, value, rfl⟩ := Statement.ofTokens?_dot hk hs
    exact ⟨names, value, others, rfl⟩

/-- The first statement behind the entries cannot be added. -/
theorem Refused.exists_statement {entries : List Entry} {rest : List Char}
    (h : Refused entries rest) {statements : List Statement}
    (hstatements : statements? rest = some statements) :
    ∃ s others, statements = s :: others ∧ (draft entries).add? s = none := by
  cases h with
  | key hopening hsign hname =>
    obtain ⟨names, value, others, rfl⟩ := hopening.exists_assign hsign hstatements
    exact ⟨_, others, rfl, assign_refused hname names value⟩
  | number hopening hname hvalue =>
    obtain ⟨tokens, first, lines, value, others, hscan, hcut, hfirst, rfl⟩ :=
      hopening.exists_value hstatements
    refine ⟨_, others, rfl, Option.eq_none_iff_forall_ne_some.mpr fun d hd => ?_⟩
    obtain ⟨n, rfl⟩ := number_of_add? hname hd
    exact hvalue (holds_number hscan hcut hfirst)
  | growth hopening hgap hvalue =>
    obtain ⟨tokens, first, lines, value, others, hscan, hcut, hfirst, rfl⟩ :=
      hopening.exists_value hstatements
    refine ⟨_, others, rfl, Option.eq_none_iff_forall_ne_some.mpr fun d hd => ?_⟩
    obtain ⟨name, rfl, before, quoted, after, behind, hbefore, hquoted, hafter, hbehind, htext⟩ :=
      holds_text hgap hscan hcut hfirst
    obtain ⟨policy, rfl⟩ := name_of_add? hd
    exact hvalue ⟨before, quoted, after, behind, hbefore, ⟨policy, hquoted⟩, hafter, hbehind, htext⟩

theorem Refused.fails {entries : List Entry} {front rest text : List Char}
    (h : Refused entries rest) (hfront : Lines entries front) (heven : Evens text (front ++ rest)) :
    ofDocument? text = none := by
  rw [ofDocument?_eq heven (hfront.unmarked.append h.unmarked), statements?_append hfront]
  cases hrest : statements? rest with
  | none => rfl
  | some statements =>
    obtain ⟨s, others, rfl, hs⟩ := h.exists_statement hrest
    rw [Option.map_some, Option.bind_some, List.foldlM_append]
    cases hfold : (entries.map Entry.statement).foldlM Draft.add? Draft.empty with
    | none => rfl
    | some d =>
      obtain rfl := draft_of_foldlM [] hfold
      simp [hs]

/-! Which values are refused. -/

section Heads

variable {p : Char → Bool} {front rest : List Char} (hfront : ∀ c ∈ front, p c = true)
  (hrest : ∀ c ∈ rest.head?, p c = false)

include hfront hrest

theorem dropWhile_append_eq : (front ++ rest).dropWhile p = rest := by
  rw [List.dropWhile_append_of_pos hfront]
  cases rest with
  | nil => rfl
  | cons c rest => exact List.dropWhile_cons_of_neg (by simpa using hrest)

theorem takeWhile_append_eq : (front ++ rest).takeWhile p = front := by
  rw [List.takeWhile_append_of_pos hfront]
  cases rest with
  | nil => exact List.append_nil front
  | cons c rest => rw [List.takeWhile_cons_of_neg (by simpa using hrest), List.append_nil]

end Heads

theorem isWordly_blank {c : Char} (hc : Token.isBlank c = true) : isWordly c = false := by
  obtain rfl | rfl := Token.space_or_tab hc
  · rfl
  · rfl

/-- The word behind the blanks is a numeral, and more blanks, a comment or the end of the line
follow it. -/
def isNumeric (rest : List Char) : Bool :=
  (read? ((rest.dropWhile Token.isBlank).takeWhile isWordly)).isSome &&
    (((rest.dropWhile Token.isBlank).dropWhile isWordly).dropWhile Token.isBlank).head?.all
      fun c => c == '#' || c == '\n'

theorem isNumeric_of_holds {rest : List Char}
    (h : Holds (fun value => ∃ n, Spells n value ∧ n < bound) rest) : isNumeric rest = true := by
  obtain ⟨before, value, after, behind, hbefore, ⟨n, hspells, hn⟩, hafter, hbehind, rfl⟩ := h
  obtain ⟨hne, hwordly⟩ := hspells.wordly
  obtain ⟨c, value, rfl⟩ := List.exists_cons_of_ne_nil hne
  have hfirst : ∀ d ∈ (c :: value ++ (after ++ behind)).head?, Token.isBlank d = false := by
    intro d hd
    obtain rfl : c = d := Option.some.inj hd
    rw [Bool.eq_false_iff]
    intro hblank
    exact Token.ne_of_isWordly (hwordly c List.mem_cons_self) (isWordly_blank hblank) rfl
  have hstop : ∀ d ∈ behind.head?, Token.isBlank d = false ∧ isWordly d = false := by
    intro d hd
    obtain rfl | rfl := hbehind d hd <;> exact ⟨rfl, rfl⟩
  have hnext : ∀ d ∈ (after ++ behind).head?, isWordly d = false := by
    cases after with
    | nil => exact fun d hd => (hstop d hd).2
    | cons d after =>
      intro d' hd
      obtain rfl : d = d' := Option.some.inj hd
      exact isWordly_blank (hafter d List.mem_cons_self)
  have hend : behind.head?.all (fun c => c == '#' || c == '\n') = true := by
    cases behind with
    | nil => rfl
    | cons c behind => simpa using hbehind c rfl
  rw [isNumeric, dropWhile_append_eq hbefore hfirst, takeWhile_append_eq hwordly hnext,
    dropWhile_append_eq hwordly hnext, dropWhile_append_eq hafter fun d hd => (hstop d hd).1,
    read?_eq_some_iff.mpr ⟨hspells, hn⟩, hend]
  rfl

/-- One beginning of a text is not quoted for two names. -/
theorem Quoted.eq_of_append {name other text more : List Char} (h : Quoted name text)
    (hmore : Quoted other (text ++ more)) : name = other := by
  obtain ⟨inBlock, hscan⟩ := Token.scan_quoted h more
  obtain ⟨inOther, hother⟩ := Token.scan_quoted hmore []
  have hend : Token.scan .gap [] = some [] := rfl
  rw [List.append_nil, hend, hscan] at hother
  obtain ⟨tokens, -, htokens⟩ := Option.map_eq_some_iff.mp hother
  exact Token.ofText_inj (List.cons.inj htokens).1

/-- A text that is quoted for another name than those of the policies. -/
theorem not_holds_quoted {name value gap : List Char} (hquoted : Quoted name value)
    (hname : ∀ policy : Text.Growth, policy.name.toList ≠ name) (hgap : Gap gap)
    (rest : List Char) :
    ¬Holds (fun value => ∃ policy : Text.Growth, Quoted policy.name.toList value)
      (gap ++ (value ++ rest)) := by
  have hhead : ∀ {name value} more, Quoted name value →
      ∀ c ∈ (value ++ more).head?, Token.isBlank c = false := by
    intro name value more h c hc
    cases h with
    | @once q => cases q <;> cases hc <;> rfl
    | @thrice q => cases q <;> cases hc <;> rfl
  rintro ⟨before, other, after, behind, hbefore, ⟨policy, hother⟩, -, -, htext⟩
  have hsame := congrArg (List.dropWhile Token.isBlank) htext
  rw [dropWhile_append_eq hgap (hhead _ hquoted),
    dropWhile_append_eq hbefore (hhead _ hother)] at hsame
  obtain ⟨more, rfl, -⟩ | ⟨more, rfl, -⟩ := List.append_eq_append_iff.mp hsame
  · exact hname policy (hquoted.eq_of_append hother).symm
  · exact hname policy (hother.eq_of_append hquoted)

/-- Documents decode to what they say, printed settings are got back, and no document with a line
for another key, a second line for a key, or a value that its key does not take is decoded. -/
theorem document_law (file : String) :
    (∀ entries text, Document entries text → (entries.map Entry.key).Nodup →
      ∃ s, Tells entries s ∧ load file text = ⟨.ok s, [.loaded file s]⟩) ∧
    (∀ s : Settings, 1 ≤ s.initialCapacity → s.initialCapacity < bound →
      (∀ n ∈ s.liveLimit, n < bound) → load file s.document = ⟨.ok s, [.loaded file s]⟩) ∧
    ∀ entries front rest text, Lines entries front → Refused entries rest →
      Evens text (front ++ rest) → load file text = ⟨.error (.configuration file), []⟩ := by
  have hload : ∀ {text s}, ofDocument? text = some s →
      load file text = ⟨.ok s, [.loaded file s]⟩ := by
    intro text s h
    rw [load, h]
  refine ⟨fun entries text h hnodup => ?_, fun s hpositive hcapacity hlimit => ?_,
    fun entries front rest text hfront hrest heven => ?_⟩
  · obtain ⟨s, htells, hs⟩ := h.decodes hnodup
    exact ⟨s, htells, hload hs⟩
  · obtain ⟨t, htells, ht⟩ := (document_printed hcapacity hlimit).decodes (nodup_entries s)
    obtain rfl := eq_of_tells hpositive htells
    exact hload ht
  · rw [load, hrest.fails hfront heven]

/-- Documents that are spelled and printed; then values for a number key that are none, a key that
is misspelled behind another one, and a policy that there is not. -/
theorem document_of_spellings :
    (∃ s, Tells [.liveLimit 16, .growth .amortized] s ∧
      load inlineName "max-live-values = 0x1_0 # few\r\ngrowth = 'amortized'".toList =
        ⟨.ok s, [.loaded inlineName s]⟩) ∧
    load inlineName (document ⟨.exactFit, 18446744073709551615, none⟩) =
      ⟨.ok ⟨.exactFit, 18446744073709551615, none⟩,
        [.loaded inlineName ⟨.exactFit, 18446744073709551615, none⟩]⟩ ∧
    (∀ value ∈ ["\"8\"", "1.5", "true", "-1", "18446744073709551616"],
      load inlineName ("max-live-values = ".toList ++ value.toList) =
        ⟨.error (.configuration inlineName), []⟩) ∧
    load inlineName "max-live-values = 3\ngrwoth = \"exact-fit\"".toList =
      ⟨.error (.configuration inlineName), []⟩ ∧
    load inlineName "growth = \"fast\"".toList = ⟨.error (.configuration inlineName), []⟩ := by
  obtain ⟨hdecodes, hprinted, hrefused⟩ := document_law inlineName
  refine ⟨?_, hprinted _ (by decide) (by decide) (by simp), ?_, ?_, ?_⟩
  · have hnumber : Writes (.liveLimit 16) "0x1_0".toList :=
      .liveLimit (value?_eq_some_iff.mp (by decide)) (by decide)
    have hname : Spelled false .literal "amortized".toList "amortized".toList :=
      spelled_self (by decide)
    have hcomment : " few".toList.all Token.isPlain = true := by decide
    have hfirst := Line.entry (opening_key (.liveLimit 16)) gap_blank hnumber
      (.comment gap_blank (List.all_eq_true.mp hcomment))
    have hlast := Line.entry (opening_key (.growth .amortized)) gap_blank
      (.growth (.once hname (by decide))) (.gap gap_nil)
    have heven : Evens "max-live-values = 0x1_0 # few\r\ngrowth = 'amortized'".toList
        "max-live-values = 0x1_0 # few\ngrowth = 'amortized'".toList :=
      Token.lineEnds?_eq_some_iff.mp (by decide)
    exact hdecodes _ _ (.intro (.cons hfirst .nil) hlast heven) (by decide)
  · intro value hvalue
    have hother : ∀ value ∈ ["\"8\"", "1.5", "true", "-1", "18446744073709551616"],
        isNumeric (' ' :: value.toList) = false := by decide
    have hreturn : ∀ value ∈ ["\"8\"", "1.5", "true", "-1", "18446744073709551616"],
        '\r' ∉ "max-live-values = ".toList ++ value.toList := by decide
    have hrefuse : Refused [] _ := .number (opening_key (.liveLimit 0)) (.inr rfl)
      fun h => Bool.false_ne_true ((hother value hvalue).symm.trans (isNumeric_of_holds h))
    exact hrefused [] [] _ _ .nil hrefuse (evens_self (hreturn value hvalue))
  · have hfirst := Line.entry (opening_key (.liveLimit 3)) gap_blank
      (.liveLimit (spells_ofNat 3) (by decide)) (.gap gap_nil)
    have hname : ∀ e : Entry, e.key ≠ "grwoth".toList := by
      intro e
      cases e <;> simp only [Entry.key] <;> decide
    have hopening := opening_bare (show "grwoth".toList ≠ [] by decide) (by decide) '='
    have hrefuse : Refused [.liveLimit 3] (_ ++ " \"exact-fit\"".toList) :=
      .key hopening (.inl rfl) (.inl hname)
    exact hrefused [.liveLimit 3] _ _ _ (.cons hfirst .nil) hrefuse (evens_self (by decide))
  · have hspelled : Spelled false .basic "fast".toList "fast".toList :=
      spelled_self (by decide)
    have hquoted : Quoted "fast".toList "\"fast\"".toList := .once hspelled (by decide)
    have hname : ∀ policy : Text.Growth, policy.name.toList ≠ "fast".toList := by
      intro policy
      cases policy <;> decide
    have hother := not_holds_quoted hquoted hname gap_blank []
    have hrefuse : Refused [] _ := .growth (q := .basic) (opening_key (.growth .exactFit)) gap_blank
      hother
    exact hrefused [] [] _ _ .nil hrefuse (evens_self (by decide))

end CountedHeap.Settings
