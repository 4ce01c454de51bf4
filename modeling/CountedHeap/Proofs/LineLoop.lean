import CountedHeap.Proofs.LineDecoding

/-! The loop that assembles a line, round by round. At the head of each round the octets passed so
far are a text, which the line holds but for the characters U+0000 in it, and behind it a part of
one more character. So each octet makes a character whole, or begins or continues one, or shows that
there is none; and a line never ends within a character. -/
namespace CountedHeap

open Source Text

/-- What the loop goes on with at the head of a round: the heap, how far the line has come, and the
input that is left. -/
structure Round where
  heap : Heap
  progress : Progress
  input : List Arrival

namespace Round

variable (allowance : Allowance) (line : Handle)

/-- One round takes one arrival. It ends the assembly, or leads to the next round. -/
def turn (r : Round) : Assembly ⊕ Round :=
  match r.input with
  | [] => .inl (r.heap.finishLine r.progress [])
  | .interruption :: rest => .inr ⟨r.heap, r.progress, rest⟩
  | .failure cause :: rest => .inl ⟨.error (.transfer cause), r.heap, rest⟩
  | .octet b :: rest =>
    if b = newline ∧ r.progress.gathered = [] then .inl (r.heap.finishLine r.progress rest)
    else
      let gathered := r.progress.gathered ++ [b]
      match Decoder.read gathered with
      | .incomplete => .inr ⟨r.heap, ⟨gathered, r.progress.offset⟩, rest⟩
      | .invalid => .inl ⟨.error (.invalidInput r.progress.offset), r.heap, rest⟩
      | .complete c =>
        let appended := r.heap.append allowance line [c]
        match appended.result with
        | .error fault => .inl ⟨.error fault, appended.heap, rest⟩
        | .ok () => .inr ⟨appended.heap, ⟨[], r.progress.offset + gathered.length⟩, rest⟩

/-- The assembly from this round on. -/
def assemble (r : Round) : Assembly := r.heap.assemble allowance line r.progress r.input

/-- What a round does with its arrival when it does not end the assembly. -/
inductive Advances (r : Round) : Arrival → Round → Prop
  | interruption {rest : List Arrival} (hinput : r.input = .interruption :: rest) :
      Advances r .interruption ⟨r.heap, r.progress, rest⟩
  | gather {b : UInt8} {rest : List Arrival} (hinput : r.input = .octet b :: rest)
      (hread : Decoder.read (r.progress.gathered ++ [b]) = .incomplete) :
      Advances r (.octet b) ⟨r.heap, ⟨r.progress.gathered ++ [b], r.progress.offset⟩, rest⟩
  | complete {b : UInt8} {rest : List Arrival} {c : Char} (hinput : r.input = .octet b :: rest)
      (hread : Decoder.read (r.progress.gathered ++ [b]) = .complete c)
      (happend : (r.heap.append allowance line [c]).result = .ok ()) :
      Advances r (.octet b)
        ⟨(r.heap.append allowance line [c]).heap,
          ⟨[], r.progress.offset + (r.progress.gathered ++ [b]).length⟩, rest⟩

/-- The rounds that follow one another, with the arrivals that are passed on the way. -/
inductive Reaches (start : Round) : List Arrival → Round → Prop
  | start : Reaches start [] start
  | turn {passed : List Arrival} {r next : Round} {arrival : Arrival}
      (hreaches : Reaches start passed r) (hturn : r.turn allowance line = .inr next)
      (hinput : r.input = arrival :: next.input) : Reaches start (passed ++ [arrival]) next

variable {allowance line}

/-- The loop consists of its rounds. -/
theorem assemble_eq (r : Round) :
    r.assemble allowance line =
      match r.turn allowance line with
      | .inl ending => ending
      | .inr next => next.assemble allowance line := by
  obtain ⟨s, p, input⟩ := r
  unfold assemble turn
  cases input with
  | nil => rfl
  | cons arrival rest =>
    cases arrival with
    | interruption => rfl
    | failure cause => rfl
    | octet b =>
      dsimp only
      rw [Heap.assemble]
      split
      · rfl
      · dsimp only
        cases Decoder.read (p.gathered ++ [b]) with
        | incomplete => rfl
        | invalid => rfl
        | complete c =>
          dsimp only
          cases (s.append allowance line [c]).result <;> rfl

theorem advances_of_turn {r next : Round} (hturn : r.turn allowance line = .inr next) :
    ∃ arrival, Advances allowance line r arrival next := by
  unfold turn at hturn
  split at hturn
  · cases hturn
  · next rest hinput =>
    obtain rfl := Sum.inr.inj hturn
    exact ⟨_, .interruption hinput⟩
  · cases hturn
  · next b rest hinput =>
    split at hturn
    · cases hturn
    · dsimp only at hturn
      split at hturn
      · next hread =>
        obtain rfl := Sum.inr.inj hturn
        exact ⟨_, .gather hinput hread⟩
      · cases hturn
      · next c hread =>
        split at hturn
        · cases hturn
        · next happend =>
          obtain rfl := Sum.inr.inj hturn
          exact ⟨_, .complete hinput hread happend⟩

theorem Advances.input_eq {r next : Round} {arrival : Arrival}
    (h : Advances allowance line r arrival next) : r.input = arrival :: next.input := by
  cases h with
  | interruption hinput => exact hinput
  | gather hinput => exact hinput
  | complete hinput => exact hinput

theorem Reaches.input_eq {start r : Round} {passed : List Arrival}
    (h : Reaches allowance line start passed r) : start.input = passed ++ r.input := by
  induction h with
  | start => rfl
  | turn _ _ hinput ih =>
    rw [ih, hinput, List.append_assoc]
    rfl

theorem Reaches.assemble_eq {start r : Round} {passed : List Arrival}
    (h : Reaches allowance line start passed r) :
    start.assemble allowance line = r.assemble allowance line := by
  induction h with
  | start => rfl
  | turn _ hturn _ ih => rw [ih, Round.assemble_eq, hturn]

/-- From every round the loop comes to an end. -/
theorem Reaches.exists_last {start r : Round} {passed : List Arrival}
    (h : Reaches allowance line start passed r) :
    ∃ passed' last ending, Reaches allowance line start passed' last ∧
      last.turn allowance line = .inl ending ∧ start.assemble allowance line = ending := by
  induction hlength : r.input.length using Nat.strongRecOn generalizing r passed with
  | ind length ih =>
    cases hturn : r.turn allowance line with
    | inl ending =>
      refine ⟨passed, r, ending, h, hturn, ?_⟩
      rw [h.assemble_eq, Round.assemble_eq, hturn]
    | inr next =>
      obtain ⟨arrival, hadvances⟩ := advances_of_turn hturn
      have hshorter : next.input.length < length := by
        rw [← hlength, hadvances.input_eq]
        exact Nat.lt_succ_self _
      exact ih _ hshorter (h.turn hturn hadvances.input_eq) rfl

end Round

namespace Source

theorem lead_append {first : List Arrival} (hfirst : stop first = none) (second : List Arrival) :
    lead (first ++ second) = lead first ++ lead second := by
  induction first with
  | nil => rfl
  | cons arrival first ih =>
    cases arrival with
    | octet b => exact congrArg (b :: ·) (ih hfirst)
    | interruption => exact ih hfirst
    | failure cause => cases hfirst

theorem stop_append {first : List Arrival} (hfirst : stop first = none) (second : List Arrival) :
    stop (first ++ second) = stop second := by
  induction first with
  | nil => rfl
  | cons arrival first ih =>
    cases arrival with
    | octet b => exact ih hfirst
    | interruption => exact ih hfirst
    | failure cause => cases hfirst

end Source

namespace Text

/-! One more octet behind a part of a character. -/

variable {start : List UInt8} {b : UInt8}

/-- A text that is there with the last octet, and not before it, is one character. -/
theorem exists_encode_of_isUtf8 (hstart : Decoder.read start = .incomplete)
    (h : IsUtf8 (start ++ [b])) : ∃ c, start ++ [b] = String.utf8EncodeChar c := by
  obtain ⟨text, htext⟩ := h
  cases text with
  | nil => simp at htext
  | cons c text =>
    have hc : String.utf8EncodeChar c <+: start ++ [b] := ⟨octets text, htext⟩
    obtain heq | hbegins := List.prefix_concat_iff.mp hc
    · exact ⟨c, heq.symm⟩
    · exact absurd hbegins (not_encode_begins hstart c)

theorem read_of_part (hstart : Decoder.read start = .incomplete) (h : BeginsUtf8 (start ++ [b]))
    (hnot : ¬IsUtf8 (start ++ [b])) : Decoder.read (start ++ [b]) = .incomplete := by
  obtain ⟨text, more, heq, hmore⟩ := h.cases
  cases text with
  | nil =>
    obtain rfl : start ++ [b] = more := heq
    exact hmore
  | cons c text =>
    have hc : String.utf8EncodeChar c <+: start ++ [b] := by
      rw [heq, octets_cons, List.append_assoc]
      exact List.prefix_append _ _
    obtain hwhole | hbegins := List.prefix_concat_iff.mp hc
    · exact absurd ⟨[c], by simpa using hwhole⟩ hnot
    · exact absurd hbegins (not_encode_begins hstart c)

theorem newline_mem_encode_iff {c : Char} : newline ∈ String.utf8EncodeChar c ↔ c = '\n' :=
  Decoder.mem_encode_iff (by decide)

/-- No text has a newline within a character. -/
theorem not_begins_newline (hstart : Decoder.read start = .incomplete) (hne : start ≠ []) :
    ¬BeginsUtf8 (start ++ [newline]) := by
  intro h
  have hnot : ∀ {c} more, String.utf8EncodeChar c ≠ start ++ [newline] ++ more := by
    intro c more heq
    have hc : c = '\n' := newline_mem_encode_iff.mp (by simp [heq])
    have hlength := congrArg List.length heq
    have hpos := List.length_pos_iff.mpr hne
    rw [hc, List.length_append, List.length_append] at hlength
    change 1 = _ + 1 + _ at hlength
    omega
  by_cases hwhole : IsUtf8 (start ++ [newline])
  · obtain ⟨c, heq⟩ := exists_encode_of_isUtf8 hstart hwhole
    exact hnot [] (by rw [List.append_nil, heq])
  · obtain ⟨c, more, -, heq⟩ := Decoder.read_eq_incomplete_iff.mp (read_of_part hstart h hwhole)
    exact hnot more heq

/-- A part of a character is empty or has one octet, two or three. -/
theorem waiting_of_incomplete (hstart : Decoder.read start = .incomplete) :
    start = [] ∨ (1 ≤ start.length ∧ start.length ≤ 3 ∧
      ∃ c more, more ≠ [] ∧ String.utf8EncodeChar c = start ++ more) := by
  obtain ⟨c, more, hmore, heq⟩ := Decoder.read_eq_incomplete_iff.mp hstart
  by_cases hne : start = []
  · exact .inl hne
  · have hlength := congrArg List.length heq
    have hsize := c.utf8Size_le_four
    have hpos := List.length_pos_iff.mpr hmore
    rw [String.length_utf8EncodeChar, List.length_append] at hlength
    exact .inr ⟨List.length_pos_iff.mpr hne, by omega, c, more, hmore, heq⟩

end Text

namespace Round

/-- How the line stands at the head of a round, once these arrivals have been passed. -/
structure Stands (line : Handle) (passed : List Arrival) (r : Round) : Prop where
  unbroken : stop passed = none
  waiting : r.progress.gathered = [] ∨
    (1 ≤ r.progress.gathered.length ∧ r.progress.gathered.length ≤ 3 ∧
      ∃ c more, more ≠ [] ∧ String.utf8EncodeChar c = r.progress.gathered ++ more)
  consumed : r.progress.offset + r.progress.gathered.length = (lead passed).length
  decoded : ∃ text, octets text = (lead passed).take r.progress.offset ∧
    r.heap.read line = .ok (.text (text.filter (· ≠ terminator)))

/-- What one more octet comes to. With what is gathered it is a character, or a part of one, or
neither; an octet that ends the line finds nothing gathered. -/
structure Takes (allowance : Allowance) (line : Handle) (r : Round) (b : UInt8)
    (rest : List Arrival) : Prop where
  few : (r.progress.gathered ++ [b]).length ≤ 4
  ended : b = newline → r.progress.gathered = [] →
    r.turn allowance line = .inl ⟨.ok r.progress.offset, r.heap, rest⟩
  character : IsUtf8 (r.progress.gathered ++ [b]) → ¬(b = newline ∧ r.progress.gathered = []) →
    ∃ c, r.progress.gathered ++ [b] = String.utf8EncodeChar c ∧ c ≠ '\n' ∧
      r.turn allowance line =
        match (r.heap.append allowance line [c]).result with
        | .ok () =>
          .inr ⟨(r.heap.append allowance line [c]).heap, ⟨[], r.progress.offset + c.utf8Size⟩, rest⟩
        | .error fault => .inl ⟨.error fault, (r.heap.append allowance line [c]).heap, rest⟩
  part : BeginsUtf8 (r.progress.gathered ++ [b]) → ¬IsUtf8 (r.progress.gathered ++ [b]) →
    r.turn allowance line =
      .inr ⟨r.heap, ⟨r.progress.gathered ++ [b], r.progress.offset⟩, rest⟩
  invalid : ¬BeginsUtf8 (r.progress.gathered ++ [b]) →
    r.turn allowance line = .inl ⟨.error (.invalidInput r.progress.offset), r.heap, rest⟩
  within : b = newline → r.progress.gathered ≠ [] →
    r.turn allowance line = .inl ⟨.error (.invalidInput r.progress.offset), r.heap, rest⟩

/-- What each round keeps: the octets passed are a text, which the line holds, and a part of one
more character. -/
structure Kept (line : Handle) (passed : List Arrival) (r : Round) : Prop where
  unbroken : stop passed = none
  gathered : Decoder.read r.progress.gathered = .incomplete
  held : ∃ text n buffer, lead passed = octets text ++ r.progress.gathered ∧
    r.progress.offset = size text ∧ r.heap.find? line = some ⟨n, .text buffer⟩ ∧
    buffer.content = text.filter (· ≠ terminator)

variable {allowance : Allowance} {line : Handle}

theorem Kept.stands {passed : List Arrival} {r : Round} (h : Kept line passed r) :
    Stands line passed r := by
  obtain ⟨text, n, buffer, hlead, hoffset, hfind, hcontent⟩ := h.held
  refine ⟨h.unbroken, waiting_of_incomplete h.gathered, ?_, text, ?_, ?_⟩
  · rw [hlead, hoffset, List.length_append, length_octets]
  · rw [hlead, hoffset, ← length_octets, List.take_left]
  · simp only [Heap.read, Heap.entry, hfind, ← hcontent]
    rfl

/-- The step that carries the invariant: an octet is gathered, or makes a character whole that the
line takes. -/
theorem Kept.advances {passed : List Arrival} {r next : Round} {arrival : Arrival}
    (h : Kept line passed r) (hadvances : Advances allowance line r arrival next) :
    Kept line (passed ++ [arrival]) next := by
  obtain ⟨hunbroken, hgathered, text, n, buffer, hlead, hoffset, hfind, hcontent⟩ := h
  have hmore := lead_append hunbroken [arrival]
  have hstop := stop_append hunbroken [arrival]
  rw [hlead] at hmore
  cases hadvances with
  | interruption hinput =>
    refine ⟨hstop, hgathered, text, n, buffer, ?_, hoffset, hfind, hcontent⟩
    rw [hmore]
    exact List.append_nil _
  | @gather b _ hinput hread =>
    refine ⟨hstop, hread, text, n, buffer, ?_, hoffset, hfind, hcontent⟩
    rw [hmore]
    exact List.append_assoc _ _ _
  | @complete b _ c hinput hread happend =>
    have hchar := Decoder.read_eq_complete_iff.mp hread
    rw [Heap.append_of_find? allowance [c] hfind] at happend ⊢
    cases hbuffer : buffer.append? allowance.storage [c] with
    | none =>
      rw [hbuffer] at happend
      cases happend
    | some new =>
      refine ⟨hstop, rfl, text ++ [c], n, new, ?_, ?_, Heap.find?_put _ hfind, ?_⟩
      · change lead _ = octets (text ++ [c]) ++ []
        change _ = octets text ++ r.progress.gathered ++ [b] at hmore
        rw [hmore, List.append_assoc, hchar]
        simp
      · change r.progress.offset + (r.progress.gathered ++ [b]).length = size (text ++ [c])
        rw [hchar, String.length_utf8EncodeChar, size_append, hoffset]
        rfl
      · rw [Heap.content_append? hbuffer, hcontent, ← List.filter_append]

/-- Whatever rounds it takes, the invariant holds at the head of each. -/
theorem Reaches.kept {start r : Round} {passed : List Arrival}
    (h : Reaches allowance line start passed r) (hstart : Kept line [] start) :
    Kept line passed r := by
  induction h with
  | start => exact hstart
  | turn _ hturn hinput ih =>
    obtain ⟨arrival, hadvances⟩ := advances_of_turn hturn
    obtain ⟨rfl, -⟩ := List.cons.inj (hadvances.input_eq.symm.trans hinput)
    exact ih.advances hadvances

/-- One octet, by what it makes of the octets gathered so far. -/
theorem Kept.takes {passed rest : List Arrival} {r : Round} {b : UInt8} (h : Kept line passed r)
    (hinput : r.input = .octet b :: rest) : Takes allowance line r b rest := by
  have hgathered := h.gathered
  have hinvalid : ¬BeginsUtf8 (r.progress.gathered ++ [b]) → r.turn allowance line =
      .inl ⟨.error (.invalidInput r.progress.offset), r.heap, rest⟩ := by
    intro hnot
    have htext : ¬BeginsUtf8 (octets [] ++ (r.progress.gathered ++ [b])) := hnot
    have hread := read_of_not_begins htext
    have hmid := Heap.not_line_end (p := r.progress) (b := b) (by simp [hread])
    simp only [turn, hinput, if_neg hmid, hread]
  refine ⟨?_, ?_, ?_, ?_, hinvalid, ?_⟩
  · rw [List.length_append]
    obtain hnil | ⟨-, hlength, -⟩ := waiting_of_incomplete hgathered
    · simp [hnil]
    · exact Nat.succ_le_succ hlength
  · intro hb hnil
    have hempty : r.progress.gathered.isEmpty = true := List.isEmpty_iff.mpr hnil
    simp only [turn, hinput, if_pos (And.intro hb hnil), Heap.finishLine, hempty, if_true]
  · intro htext hmid
    obtain ⟨c, hc⟩ := exists_encode_of_isUtf8 hgathered htext
    refine ⟨c, hc, ?_, ?_⟩
    · rintro rfl
      have hline : r.progress.gathered ++ [b] = [] ++ [newline] := hc
      obtain ⟨hnil, hb⟩ := List.append_inj' hline rfl
      exact hmid ⟨(List.cons.inj hb).1, hnil⟩
    · have hread := Decoder.read_eq_complete_iff.mpr hc
      have hlength : (r.progress.gathered ++ [b]).length = c.utf8Size := by
        rw [hc, String.length_utf8EncodeChar]
      simp only [turn, hinput, if_neg hmid, hread, hlength]
      cases (r.heap.append allowance line [c]).result <;> rfl
  · intro hbegins hnot
    have hread := read_of_part hgathered hbegins hnot
    have hmid := Heap.not_line_end (p := r.progress) (b := b) (by simp [hread])
    simp only [turn, hinput, if_neg hmid, hread]
  · rintro rfl hne
    exact hinvalid (not_begins_newline hgathered hne)

/-- A line that is accepted does not end within a character, and its end leaves the heap as it is.
-/
theorem ended_of_ok {r : Round} {ending : Assembly} {count : Nat}
    (hturn : r.turn allowance line = .inl ending) (hok : ending.result = .ok count) :
    r.progress.gathered = [] ∧ count = r.progress.offset ∧ ending.heap = r.heap := by
  have hfinish : ∀ rest, r.heap.finishLine r.progress rest = ending →
      r.progress.gathered = [] ∧ count = r.progress.offset ∧ ending.heap = r.heap := by
    rintro rest rfl
    unfold Heap.finishLine at hok
    dsimp only at hok
    split at hok
    · next hempty => exact ⟨List.isEmpty_iff.mp hempty, (Except.ok.inj hok).symm, rfl⟩
    · cases hok
  unfold turn at hturn
  split at hturn
  · exact hfinish _ (Sum.inl.inj hturn)
  · cases hturn
  · obtain rfl := Sum.inl.inj hturn
    cases hok
  · split at hturn
    · exact hfinish _ (Sum.inl.inj hturn)
    · dsimp only at hturn
      split at hturn
      · cases hturn
      · obtain rfl := Sum.inl.inj hturn
        cases hok
      · split at hturn
        · obtain rfl := Sum.inl.inj hturn
          cases hok
        · cases hturn

end Round

namespace Heap

/-- The first round of a line, under the handle of its temporary text. -/
def firstRound (s : Heap) (allowance : Allowance) (input : List Arrival) : Round :=
  ⟨(s.createText allowance).heap, ⟨[], 0⟩, input⟩

end Heap

open Round

/-- The loop that assembles a line. At the head of each round that it comes to, what is gathered is
empty or a proper part of one character, it counts with the offset for all octets passed, and those
before it are a text that the line holds, but for the characters U+0000. With one more octet there
are four gathered at most; they are taken up as soon as they are a text, which is then one
character, and refused as soon as they begin none, as with a newline behind a part of a character.
The line that is returned is the one held in the last round, with nothing gathered. -/
theorem line_loop_law {s : Heap} (hs : s.Reachable) {allowance : Allowance} {line : Handle}
    (hcreated : (s.createText allowance).result = .ok line) (script : List Piece) :
    let input := arrivals script
    let start := s.firstRound allowance input
    let outcome := s.readLine allowance input
    (∀ passed r, Reaches allowance line start passed r →
      input = passed ++ r.input ∧ Stands line passed r ∧
      s.assembleLine allowance line input = r.assemble allowance line ∧
      (∀ b rest, r.input = .octet b :: rest → Takes allowance line r b rest) ∧
      ∀ rest, r.input = .octet newline :: rest → r.progress.gathered ≠ [] →
        outcome.result = .error (.invalidInput r.progress.offset) ∧ outcome.rest = rest) ∧
    (∃ passed last ending, Reaches allowance line start passed last ∧
      last.turn allowance line = .inl ending ∧ s.assembleLine allowance line input = ending ∧
      outcome.rest = ending.rest ∧
      (∀ fault, ending.result = .error fault → outcome.result = .error fault) ∧
      ∀ text, outcome.result = .ok text →
        last.progress.gathered = [] ∧ last.heap.read line = .ok (.text text)) ∧
    ∀ c, newline ∈ String.utf8EncodeChar c ↔ c = '\n' := by
  intro input start outcome
  obtain ⟨old, new, hrun⟩ := Heap.readLine_of_created hs.sound hcreated input
  have hfind := Heap.phase_eq_live_iff.mp (Heap.phase_created hrun.created hs.sound)
  have hstart : Kept line [] start := by
    refine ⟨rfl, rfl, [], 1, old, rfl, rfl, hfind, ?_⟩
    rw [hrun.empty]
    rfl
  refine ⟨?_, ?_, fun c => newline_mem_encode_iff⟩
  · intro passed r hreaches
    have hkept := hreaches.kept hstart
    have hassemble : s.assembleLine allowance line input = r.assemble allowance line :=
      hreaches.assemble_eq
    refine ⟨hreaches.input_eq, hkept.stands, hassemble, fun b rest => hkept.takes, ?_⟩
    intro rest hinput hne
    have hending : s.assembleLine allowance line input =
        ⟨.error (.invalidInput r.progress.offset), r.heap, rest⟩ := by
      rw [hassemble, Round.assemble_eq, (hkept.takes hinput).within rfl hne]
    rw [hrun.result, hrun.rest, hending]
    exact ⟨rfl, rfl⟩
  · obtain ⟨passed, last, ending, hlast, hturn, hending⟩ :=
      (Reaches.start : Reaches allowance line start [] start).exists_last
    change s.assembleLine allowance line input = ending at hending
    refine ⟨passed, last, ending, hlast, hturn, hending, ?_, ?_, ?_⟩
    · rw [hrun.rest, hending]
    · intro fault hfault
      rw [hrun.result, hending, hfault]
      rfl
    · intro text htext
      rw [hrun.result, hending] at htext
      cases hresult : ending.result with
      | error fault =>
        rw [hresult] at htext
        cases htext
      | ok count =>
        rw [hresult] at htext
        obtain rfl : new.content = text := Except.ok.inj htext
        obtain ⟨hgathered, -, hheap⟩ := ended_of_ok hturn hresult
        refine ⟨hgathered, ?_⟩
        rw [← hheap, ← hending, hrun.assembled, Heap.read, Heap.entry, Heap.find?_put _ hfind]
        rfl

/-- A newline within a character of three octets. After the first character, which is not kept, and
an interruption, two octets are gathered, and the newline refuses them. -/
theorem line_loop_of_newline :
    let s := Heap.ofSettings .standard
    let script := [Piece.data [0x00, 0xE2], .interrupt, .data [0x82, 0x0A]]
    let line : Handle := ⟨0, 0⟩
    let r : Round :=
      ⟨(s.createText .ample).heap, ⟨[0xE2, 0x82], 1⟩, [.octet newline]⟩
    (s.Reachable ∧ (s.createText .ample).result = .ok line ∧
      Reaches .ample line (s.firstRound .ample (arrivals script))
        [.octet 0x00, .octet 0xE2, .interruption, .octet 0x82] r) ∧
    Stands line [.octet 0x00, .octet 0xE2, .interruption, .octet 0x82] r ∧
    (s.readLine .ample (arrivals script)).result = .error (.invalidInput 1) := by
  intro s script line r
  have hs : s.Reachable := ⟨.standard, [], rfl⟩
  have hcreated : (s.createText .ample).result = .ok line := rfl
  have hreaches : Reaches .ample line (s.firstRound .ample (arrivals script))
      [.octet 0x00, .octet 0xE2, .interruption, .octet 0x82] r :=
    .turn (.turn (.turn (.turn .start rfl rfl) rfl rfl) rfl rfl) rfl rfl
  obtain ⟨hrounds, -⟩ := line_loop_law hs hcreated script
  obtain ⟨-, hstands, -, -, hwithin⟩ := hrounds _ _ hreaches
  exact ⟨⟨hs, hcreated, hreaches⟩, hstands, (hwithin [] rfl (List.cons_ne_nil _ _)).1⟩

end CountedHeap
