import CountedHeap.Proofs.Entries
import CountedHeap.Proofs.Statements

/-! The lines of settings documents that set something or say nothing. Each is read as the statement
of its entry, whatever the lines behind it say. -/
namespace CountedHeap.Settings

open Numeral

/-- What is written for the value of an entry. -/
inductive Writes : Entry → List Char → Prop
  | growth {policy : Text.Growth} {text : List Char} (h : Quoted policy.name.toList text) :
      Writes (.growth policy) text
  | initialCapacity {n : Nat} {text : List Char} (h : Spells n text) (hn : n < bound) :
      Writes (.initialCapacity n) text
  | liveLimit {n : Nat} {text : List Char} (h : Spells n text) (hn : n < bound) :
      Writes (.liveLimit n) text

/-- What is written for a key: its name, bare or quoted in one line. -/
inductive Key : Name → List Char → Prop
  | bare {name : Name} (hne : name ≠ []) (hbare : ∀ c ∈ name, Statement.isBare c = true) :
      Key name name
  | quoted {q : Quote} {name spelling : List Char} (h : Spelled false q name spelling) :
      Key name (marks false q ++ spelling ++ marks false q)

/-- A key and the sign behind it. -/
inductive Opening (name : Name) (sign : Char) : List Char → Prop
  | intro {indent key gap : List Char} (hindent : Gap indent) (hkey : Key name key)
      (hgap : Gap gap) : Opening name sign (indent ++ (key ++ (gap ++ [sign])))

/-- A line, with the entry on it if there is one. -/
inductive Line : Option Entry → List Char → Prop
  | blank {trailer : List Char} (htrailer : Trailer trailer) : Line none trailer
  | entry {e : Entry} {opening gap value trailer : List Char} (hopening : Opening e.key '=' opening)
      (hgap : Gap gap) (hvalue : Writes e value) (htrailer : Trailer trailer) :
      Line (some e) (opening ++ (gap ++ (value ++ trailer)))

/-- Lines with their ends, and the entries on them. -/
inductive Lines : List Entry → List Char → Prop
  | nil : Lines [] []
  | cons {e : Option Entry} {entries : List Entry} {line rest : List Char} (hline : Line e line)
      (hrest : Lines entries rest) : Lines (e.toList ++ entries) (line ++ '\n' :: rest)

/-! Keys and values among the tokens. -/

namespace Token

theorem endsWord_of_blank {c : Char} (h : isBlank c = true) : endsWord c = true := by
  rw [endsWord, h, Bool.or_true, Bool.true_or]

/-- Behind blanks stands whatever ends a word if nothing but that follows them. -/
theorem endsWord_gap {gap rest : List Char} (hgap : Gap gap)
    (hrest : ∀ c ∈ rest.head?, endsWord c = true) :
    ∀ c ∈ (gap ++ rest).head?, endsWord c = true := by
  cases gap with
  | nil => exact hrest
  | cons d gap =>
    intro c hc
    obtain rfl : d = c := Option.some.inj hc
    exact endsWord_of_blank (hgap d List.mem_cons_self)

theorem endsWord_trailer {trailer rest : List Char} (h : Trailer trailer) (hrest : AtEnd rest) :
    ∀ c ∈ (trailer ++ rest).head?, endsWord c = true := by
  cases h with
  | gap hgap =>
    refine endsWord_gap hgap fun c hc => ?_
    rw [hrest c hc]
    rfl
  | comment hgap =>
    rw [List.append_assoc]
    refine endsWord_gap hgap fun c hc => ?_
    obtain rfl : '#' = c := Option.some.inj hc
    rfl

/-- A key that is not empty is one token. -/
theorem scan_key {name key rest : List Char} (h : Key name key) (hne : name ≠ [])
    (hrest : ∀ c ∈ rest.head?, endsWord c = true) :
    ∃ k, Statement.key? k = some name ∧
      scan .gap (key ++ rest) = (scan .gap rest).map (k :: ·) := by
  cases h with
  | bare _ hbare =>
    refine ⟨.word name, if_pos (List.all_eq_true.mpr hbare), ?_⟩
    exact scan_first_word hne (fun c hc => isWordly_of_isBare (hbare c hc)) hrest
  | @quoted q _ spelling h =>
    have hspelling : spelling ≠ [] := by
      rintro rfl
      cases h
      exact hne rfl
    exact ⟨.quoted name, rfl, scan_once h hspelling rest⟩

/-- An empty key cannot be scanned. -/
theorem scan_empty_key {key rest : List Char} {c : Char} (h : Key [] key)
    (hc : ∀ q : Quote, c ≠ q.mark) : scan .gap (key ++ c :: rest) = none := by
  cases h with
  | bare hne => exact absurd rfl hne
  | @quoted q _ spelling h =>
    cases h with
    | nil => exact (scan_two_marks q _).trans (scan_twoQuotes q (hc q) rest)
    | fold _ hblock => cases hblock

theorem start_punctuation {c : Char} {token : Token} (h : punctuation? c = some token) :
    start c = (.gap, [token]) := by
  rw [start, h]

theorem ne_mark_of_blank {c : Char} (h : isBlank c = true) (q : Quote) : c ≠ q.mark := by
  rintro rfl
  cases q <;> cases h

theorem scan_opening {name opening : List Char} {sign : Char} {token : Token}
    (h : Opening name sign opening) (hne : name ≠ []) (hsign : punctuation? sign = some token)
    (rest : List Char) :
    ∃ k, Statement.key? k = some name ∧
      scan .gap (opening ++ rest) = (scan .gap rest).map ([k, token] ++ ·) := by
  cases h with
  | @intro indent key gap hindent hkey hgap =>
    have hends : ∀ c ∈ (gap ++ sign :: rest).head?, endsWord c = true := by
      refine endsWord_gap hgap fun c hc => ?_
      obtain rfl : sign = c := Option.some.inj hc
      simp [endsWord, hsign]
    obtain ⟨k, hk, hscan⟩ := scan_key hkey hne hends
    refine ⟨k, hk, ?_⟩
    have htext : indent ++ (key ++ (gap ++ [sign])) ++ rest =
        indent ++ (key ++ (gap ++ sign :: rest)) := by simp
    rw [htext, scan_gap hindent, hscan, scan_gap hgap, scan_start, start_punctuation hsign,
      Option.map_map]
    rfl

theorem scan_empty_opening {opening : List Char} {sign : Char} {token : Token}
    (h : Opening [] sign opening) (hsign : punctuation? sign = some token) (rest : List Char) :
    scan .gap (opening ++ rest) = none := by
  cases h with
  | @intro indent key gap hindent hkey hgap =>
    have hmark : ∀ q : Quote, sign ≠ q.mark := by
      rintro q rfl
      cases q <;> cases hsign
    rw [List.append_assoc, scan_gap hindent, List.append_assoc, List.append_assoc,
      List.singleton_append]
    cases gap with
    | nil => exact scan_empty_key hkey hmark
    | cons c gap => exact scan_empty_key hkey (ne_mark_of_blank (hgap c List.mem_cons_self))

/-- The value of an entry is one token. -/
theorem scan_value {e : Entry} {value rest : List Char} (h : Writes e value)
    (hrest : ∀ c ∈ rest.head?, endsWord c = true) :
    ∃ v, Statement.value? [v] = some e.value ∧
      scan .gap (value ++ rest) = (scan .gap rest).map (v :: ·) := by
  have hnumber : ∀ {n}, Spells n value → n < bound →
      ∃ v, Statement.value? [v] = some (.number n) ∧
        scan .gap (value ++ rest) = (scan .gap rest).map (v :: ·) := by
    intro n hspells hn
    obtain ⟨hne, hwordly⟩ := hspells.wordly
    refine ⟨.word value, ?_, scan_first_word hne hwordly hrest⟩
    rw [Statement.value?, read?_eq_some_iff.mpr ⟨hspells, hn⟩]
    rfl
  cases h with
  | growth h =>
    obtain ⟨inBlock, hscan⟩ := scan_quoted h rest
    exact ⟨_, value?_ofText inBlock _, hscan⟩
  | initialCapacity h hn => exact hnumber h hn
  | liveLimit h hn => exact hnumber h hn

end Token

theorem Entry.key_ne_nil (e : Entry) : e.key ≠ [] := by
  cases e <;> exact List.cons_ne_nil _ _

theorem scan_blank_line {line rest : List Char} (h : Line none line) (hrest : AtEnd rest) :
    Token.scan .gap (line ++ rest) = Token.scan .gap rest := by
  cases h with
  | blank htrailer => exact Token.scan_trailer htrailer hrest

theorem scan_line {e : Entry} {line rest : List Char} (h : Line (some e) line)
    (hrest : AtEnd rest) :
    ∃ k v, Statement.key? k = some e.key ∧ Statement.value? [v] = some e.value ∧
      Token.scan .gap (line ++ rest) = (Token.scan .gap rest).map ([k, .equals, v] ++ ·) := by
  cases h with
  | @entry _ opening gap value trailer hopening hgap hvalue htrailer =>
    have hequals : Token.punctuation? '=' = some .equals := rfl
    obtain ⟨k, hk, hkey⟩ := Token.scan_opening hopening e.key_ne_nil hequals
      (gap ++ (value ++ (trailer ++ rest)))
    obtain ⟨v, hv, hscan⟩ := Token.scan_value hvalue (Token.endsWord_trailer htrailer hrest)
    refine ⟨k, v, hk, hv, ?_⟩
    have htext : opening ++ (gap ++ (value ++ trailer)) ++ rest =
        opening ++ (gap ++ (value ++ (trailer ++ rest))) := by simp
    rw [htext, hkey, Token.scan_gap hgap, hscan, Token.scan_trailer htrailer hrest, Option.map_map]
    rfl

/-- The statements of a document whose lines all end with LF. -/
def statements? (text : List Char) : Option (List Statement) :=
  (Token.scan .gap text).bind fun tokens => Statement.ofLines? (Statement.cut 0 [] tokens)

/-- A line is scanned to tokens that make up its statement. -/
theorem exists_parts {e : Option Entry} {line rest : List Char} (h : Line e line)
    (hrest : AtEnd rest) :
    ∃ parts, (∀ token ∈ parts, Statement.IsPart token) ∧
      Token.scan .gap (line ++ rest) = (Token.scan .gap rest).map (parts ++ ·) ∧
      ∀ lines, Statement.ofLines? (parts :: lines) =
        (Statement.ofLines? lines).map ((e.map Entry.statement).toList ++ ·) := by
  cases e with
  | none =>
    refine ⟨[], nofun, ?_, fun lines => ?_⟩
    · rw [scan_blank_line h hrest]
      simp
    · rw [Statement.ofLines?_blank]
      simp
  | some e =>
    obtain ⟨k, v, hk, hv, hscan⟩ := scan_line h hrest
    refine ⟨[k, .equals, v], ?_, hscan, fun lines => ?_⟩
    · simp [Statement.isPart_of_key? hk, Statement.isPart_of_value? hv, Statement.isPart_equals]
    · rw [Statement.ofLines?_cons (List.cons_ne_nil _ _), Statement.ofTokens?_equals hk, hv]
      rfl

theorem statements?_line {e : Option Entry} {line : List Char} (h : Line e line)
    (rest : List Char) :
    statements? (line ++ '\n' :: rest) =
      (statements? rest).map ((e.map Entry.statement).toList ++ ·) := by
  have hrest : AtEnd ('\n' :: rest) := fun c hc => (Option.some.inj hc).symm
  obtain ⟨parts, hparts, hscan, hlines⟩ := exists_parts h hrest
  rw [statements?, statements?, hscan, Token.scan_lineEnd]
  cases Token.scan .gap rest with
  | none => rfl
  | some tokens =>
    simp only [Option.map_some, Option.bind_some]
    rw [Statement.cut_parts hparts, Statement.cut_lineEnd, List.append_nil, List.reverse_reverse,
      hlines]

theorem statements?_last {e : Option Entry} {line : List Char} (h : Line e line) :
    statements? line = some (e.map Entry.statement).toList := by
  obtain ⟨parts, hparts, hscan, hlines⟩ := exists_parts h (show AtEnd [] from nofun)
  rw [List.append_nil] at hscan
  have hcut := Statement.cut_parts hparts [] []
  rw [List.append_nil, List.append_nil, Statement.cut, List.reverse_reverse] at hcut
  have hend : Token.scan .gap [] = some [] := rfl
  rw [statements?, hscan, hend, Option.map_some, Option.bind_some, List.append_nil, hcut, hlines]
  simp [Statement.ofLines?]

/-- Lines are read one by one, whatever stands behind them. -/
theorem statements?_append {entries : List Entry} {front : List Char} (h : Lines entries front)
    (rest : List Char) :
    statements? (front ++ rest) = (statements? rest).map (entries.map Entry.statement ++ ·) := by
  induction h with
  | nil => simp
  | @cons e entries line text hline _ ih =>
    rw [List.append_assoc, List.cons_append, statements?_line hline, ih, Option.map_map]
    cases e <;> rfl

end CountedHeap.Settings
