import CountedHeap.Proofs.Quoting

/-! The lines of tokens in a settings document, and the statements on them. Brackets and braces
apart, a line goes to the next end of a line; a key with an equals sign or a dot behind it begins an
assignment, and what is assigned is all that is left on the line. -/
namespace CountedHeap.Settings

open Numeral

namespace Statement

/-- The statements on lines of tokens, one on each line that is not blank. -/
def ofLines? (lines : List (List Token)) : Option (List Statement) :=
  (lines.filter (· ≠ [])).mapM ofTokens?

theorem ofLines?_blank (lines : List (List Token)) : ofLines? ([] :: lines) = ofLines? lines := rfl

theorem ofLines?_cons {line : List Token} (hne : line ≠ []) (lines : List (List Token)) :
    ofLines? (line :: lines) =
      (ofTokens? line).bind fun first => (ofLines? lines).map (first :: ·) := by
  have hfilter : (line :: lines).filter (· ≠ []) = line :: lines.filter (· ≠ []) :=
    List.filter_cons_of_pos (by simpa using hne)
  rw [ofLines?, hfilter, List.mapM_cons]
  cases ofTokens? line with
  | none => rfl
  | some first =>
    rw [ofLines?]
    cases (lines.filter (· ≠ [])).mapM ofTokens? <;> rfl

/-- A token that neither ends a line nor opens or closes anything. -/
def IsPart (token : Token) : Prop := token ≠ .lineEnd ∧ ∀ depth, depthAfter depth token = depth

theorem isPart_equals : IsPart .equals := ⟨nofun, fun _ => rfl⟩

theorem isPart_dot : IsPart .dot := ⟨nofun, fun _ => rfl⟩

theorem isPart_of_key? {k : Token} {name : Name} (h : key? k = some name) : IsPart k := by
  cases k with
  | word | quoted => exact ⟨nofun, fun _ => rfl⟩
  | _ => cases h

theorem isPart_of_value? {v : Token} {value : Assigned} (h : value? [v] = some value) :
    IsPart v := by
  cases v with
  | word | quoted | quotedBlock => exact ⟨nofun, fun _ => rfl⟩
  | _ => cases h

/-- The tokens already read from a line stand before all others on it. -/
theorem exists_cut (depth : Nat) (tokens : List Token) :
    ∃ first lines, ∀ back, cut depth back tokens = (back.reverse ++ first) :: lines := by
  induction tokens generalizing depth with
  | nil => exact ⟨[], [], fun back => by rw [cut, List.append_nil]⟩
  | cons token tokens ih =>
    by_cases hend : token = .lineEnd ∧ depth = 0
    · exact ⟨[], cut 0 [] tokens, fun back => by rw [cut, if_pos hend, List.append_nil]⟩
    · obtain ⟨first, lines, hcut⟩ := ih (depthAfter depth token)
      exact ⟨token :: first, lines, fun back => by rw [cut, if_neg hend, hcut]; simp⟩

theorem cut_lineEnd (back tokens : List Token) :
    cut 0 back (.lineEnd :: tokens) = back.reverse :: cut 0 [] tokens := by
  rw [cut, if_pos ⟨rfl, rfl⟩]

theorem cut_parts {parts : List Token} (h : ∀ token ∈ parts, IsPart token)
    (back tokens : List Token) :
    cut 0 back (parts ++ tokens) = cut 0 (parts.reverse ++ back) tokens := by
  induction parts generalizing back with
  | nil => rfl
  | cons token parts ih =>
    obtain ⟨⟨hend, hdepth⟩, hparts⟩ := List.forall_mem_cons.mp h
    rw [List.cons_append, cut, if_neg fun hboth => hend hboth.1, hdepth, ih hparts]
    simp

/-- The parts at the beginning of a line stand before what else is on it. -/
theorem exists_cut_parts {parts : List Token} (h : ∀ token ∈ parts, IsPart token)
    (tokens : List Token) :
    ∃ first lines, cut 0 [] tokens = first :: lines ∧
      cut 0 [] (parts ++ tokens) = (parts ++ first) :: lines := by
  obtain ⟨first, lines, hcut⟩ := exists_cut 0 tokens
  refine ⟨first, lines, hcut [], ?_⟩
  rw [cut_parts h, hcut, List.append_nil, List.reverse_reverse]

/-- A line is blank only if nothing stands on it. -/
theorem head?_of_cut {tokens : List Token} {lines : List (List Token)}
    (h : cut 0 [] tokens = [] :: lines) : ∀ token ∈ tokens.head?, token = .lineEnd := by
  cases tokens with
  | nil => nofun
  | cons token tokens =>
    intro first hfirst
    obtain rfl : token = first := Option.some.inj hfirst
    by_contra hend
    obtain ⟨first, rest, hcut⟩ := exists_cut (depthAfter 0 token) tokens
    rw [cut, if_neg fun hboth => hend hboth.1, hcut] at h
    cases h

/-- A single part on the first line is the first of all tokens. -/
theorem exists_of_cut_part {part : Token} (hpart : IsPart part) {tokens : List Token}
    {lines : List (List Token)} (h : cut 0 [] tokens = [part] :: lines) :
    ∃ others, tokens = part :: others ∧ ∀ token ∈ others.head?, token = .lineEnd := by
  cases tokens with
  | nil => cases h
  | cons token others =>
    have hfirst : token = part := by
      by_cases hend : token = .lineEnd
      · rw [hend, cut_lineEnd] at h
        cases h
      · obtain ⟨first, rest, hcut⟩ := exists_cut (depthAfter 0 token) others
        rw [cut, if_neg fun hboth => hend hboth.1, hcut] at h
        exact (List.cons.inj (List.cons.inj h).1).1
    subst hfirst
    refine ⟨others, rfl, ?_⟩
    obtain ⟨first, rest, hothers, hcut⟩ :=
      exists_cut_parts (List.forall_mem_singleton.mpr hpart) others
    obtain ⟨hfirst, -⟩ := List.cons.inj (hcut.symm.trans h)
    obtain ⟨-, rfl⟩ := List.cons.inj hfirst
    exact head?_of_cut hothers

theorem ofTokens?_equals {k : Token} {name : Name} (hk : key? k = some name) (rest : List Token) :
    ofTokens? (k :: .equals :: rest) = (value? rest).map (.assign [name]) := by
  have hpath : path? (k :: .equals :: rest) = some ([name], .equals :: rest) := by simp [path?, hk]
  rw [ofTokens?]
  · rw [hpath]
  · rintro _ heq
    rw [(List.cons.inj heq).1] at hk
    cases hk

theorem ofTokens?_dot {k : Token} {name : Name} (hk : key? k = some name) {rest : List Token}
    {s : Statement} (h : ofTokens? (k :: .dot :: rest) = some s) :
    ∃ names value, s = .assign (name :: names) value := by
  rw [ofTokens?] at h
  · split at h
    · next path tokens hpath =>
      rw [path?, hk] at hpath
      cases hmore : path? rest with
      | none => simp [hmore] at hpath
      | some more =>
        obtain ⟨names, left⟩ := more
        rw [hmore] at hpath
        cases hpath
        obtain ⟨value, -, rfl⟩ := Option.map_eq_some_iff.mp h
        exact ⟨_, value, rfl⟩
    · cases h
  · rintro _ heq
    rw [(List.cons.inj heq).1] at hk
    cases hk

/-- What begins with a key and a sign begins with the statement on the first line. -/
theorem exists_of_ofLines? {k sign : Token} {name : Name} (hk : key? k = some name)
    (hsign : IsPart sign) {tokens : List Token} {statements : List Statement}
    (h : ofLines? (cut 0 [] ([k, sign] ++ tokens)) = some statements) :
    ∃ first lines s others, cut 0 [] tokens = first :: lines ∧
      ofTokens? (k :: sign :: first) = some s ∧ statements = s :: others := by
  have hparts : ∀ token ∈ [k, sign], IsPart token :=
    List.forall_mem_cons.mpr ⟨isPart_of_key? hk, List.forall_mem_cons.mpr ⟨hsign, nofun⟩⟩
  obtain ⟨first, lines, htokens, hcut⟩ := exists_cut_parts hparts tokens
  rw [hcut, ofLines?_cons (by simp), Option.bind_eq_some_iff] at h
  obtain ⟨s, hs, h⟩ := h
  obtain ⟨others, -, rfl⟩ := Option.map_eq_some_iff.mp h
  exact ⟨first, lines, s, others, htokens, hs, rfl⟩

theorem value?_number {tokens : List Token} {n : Nat} (h : value? tokens = some (.number n)) :
    ∃ word, tokens = [.word word] ∧ read? word = some n := by
  unfold value? at h
  split at h
  · next word =>
    obtain ⟨m, hm, hnumber⟩ := Option.map_eq_some_iff.mp h
    cases hnumber
    exact ⟨word, rfl, hm⟩
  · cases h
  · cases h
  · split_ifs at h
    · cases h
    · split at h <;> cases h

/-- What begins with a text is that text alone. -/
theorem value?_text {inBlock : Bool} {name : Name} {rest : List Token} {value : Assigned}
    (h : value? (Token.ofText inBlock name :: rest) = some value) :
    rest = [] ∧ value = .text name := by
  cases rest with
  | nil =>
    rw [Token.value?_ofText] at h
    exact ⟨rfl, (Option.some.inj h).symm⟩
  | cons token rest => cases inBlock <;> simp [Token.ofText, value?, hollow?, choice?] at h

end Statement

end CountedHeap.Settings
