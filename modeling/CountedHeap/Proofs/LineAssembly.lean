import CountedHeap.Proofs.Operation
import CountedHeap.Proofs.Utf8

/-! The assembly of a line, octet by octet. It gathers the octets of a character, appends the
character when it is whole, and goes on behind it; interruptions are passed over. -/
namespace CountedHeap

namespace Source

/-- The octets before the first failure or, if there is none, before the end. -/
def lead : List Arrival → List UInt8
  | [] | .failure _ :: _ => []
  | .interruption :: rest => lead rest
  | .octet b :: rest => b :: lead rest

/-- The first failure. -/
def stop : List Arrival → Option TransferFault
  | [] => none
  | .failure cause :: _ => some cause
  | .interruption :: rest | .octet _ :: rest => stop rest

/-- To have read these octets, up to the last one and no further, leaves that input. -/
inductive Yields : List Arrival → List UInt8 → List Arrival → Prop
  | done (input : List Arrival) : Yields input [] input
  | octet {b : UInt8} {input rest : List Arrival} {bytes : List UInt8}
      (hrest : Yields input bytes rest) : Yields (.octet b :: input) (b :: bytes) rest
  | interruption {b : UInt8} {input rest : List Arrival} {bytes : List UInt8}
      (hrest : Yields input (b :: bytes) rest) : Yields (.interruption :: input) (b :: bytes) rest

theorem exists_yields {input : List Arrival} {bytes more : List UInt8}
    (hlead : lead input = bytes ++ more) :
    ∃ rest, Yields input bytes rest ∧ lead rest = more ∧ stop rest = stop input := by
  induction input generalizing bytes with
  | nil =>
    obtain ⟨rfl, rfl⟩ := List.append_eq_nil_iff.mp hlead.symm
    exact ⟨[], .done _, rfl, rfl⟩
  | cons arrival input ih =>
    cases bytes with
    | nil => exact ⟨_, .done _, hlead, rfl⟩
    | cons b bytes =>
      cases arrival with
      | octet a =>
        obtain ⟨rfl, htail⟩ := List.cons.inj hlead
        obtain ⟨rest, hyields, hrest⟩ := ih htail
        exact ⟨rest, .octet hyields, hrest⟩
      | interruption =>
        obtain ⟨rest, hyields, hrest⟩ := ih hlead
        exact ⟨rest, .interruption hyields, hrest⟩
      | failure cause => cases hlead

theorem Yields.append {input middle rest : List Arrival} {first second : List UInt8}
    (hfirst : Yields input first middle) (hsecond : Yields middle second rest) :
    Yields input (first ++ second) rest := by
  induction hfirst with
  | done => exact hsecond
  | octet _ ih => exact .octet (ih hsecond)
  | interruption _ ih => exact .interruption (ih hsecond)

theorem Yields.split {input rest : List Arrival} {first second : List UInt8}
    (hyields : Yields input (first ++ second) rest) :
    ∃ middle, Yields input first middle ∧ Yields middle second rest := by
  generalize hbytes : first ++ second = bytes at hyields
  induction hyields generalizing first with
  | done input =>
    obtain ⟨rfl, rfl⟩ := List.append_eq_nil_iff.mp hbytes
    exact ⟨input, .done _, .done _⟩
  | @octet b input rest bytes hrest ih =>
    cases first with
    | nil =>
      obtain rfl : second = _ := hbytes
      exact ⟨_, .done _, .octet hrest⟩
    | cons a first =>
      obtain ⟨rfl, htail⟩ := List.cons.inj hbytes
      obtain ⟨middle, hfirst, hsecond⟩ := ih htail
      exact ⟨middle, .octet hfirst, hsecond⟩
  | @interruption b input rest bytes hrest ih =>
    cases first with
    | nil =>
      obtain rfl : second = _ := hbytes
      exact ⟨_, .done _, .interruption hrest⟩
    | cons a first =>
      obtain ⟨middle, hfirst, hsecond⟩ := ih hbytes
      exact ⟨middle, .interruption hfirst, hsecond⟩

end Source

open Source Text

namespace Heap

variable {s : Heap} {allowance : Allowance} {line : Handle}

/-- An octet ends the line only where it would be a character by itself. -/
theorem not_line_end {p : Progress} {b : UInt8}
    (hread : Decoder.read (p.gathered ++ [b]) ≠ .complete '\n') :
    ¬(b = newline ∧ p.gathered = []) := by
  rintro ⟨rfl, hgathered⟩
  rw [hgathered] at hread
  exact hread rfl

/-- Octets that make up no whole character are gathered. -/
theorem assemble_gather {input rest : List Arrival} {more : List UInt8}
    (hyields : Yields input more rest) (p : Progress)
    (hread : Decoder.read (p.gathered ++ more) = .incomplete) :
    s.assemble allowance line p input =
      s.assemble allowance line ⟨p.gathered ++ more, p.offset⟩ rest := by
  induction hyields generalizing p with
  | done => rw [List.append_nil]
  | @octet b input rest bytes _ ih =>
    rw [List.append_cons] at hread ⊢
    have hfirst := Decoder.incomplete_of_longer hread
    rw [assemble, if_neg (not_line_end (by simp [hfirst]))]
    simp only [hfirst]
    exact ih ⟨p.gathered ++ [b], p.offset⟩ hread
  | interruption _ ih => exact ih p hread

/-- A whole character is appended, unless its storage cannot be had. -/
theorem assemble_complete {input rest : List Arrival} {more : List UInt8}
    (hyields : Yields input more rest) (p : Progress) {c : Char}
    (hread : Decoder.read (p.gathered ++ more) = .complete c) (hmore : more ≠ [])
    (hnewline : c ≠ '\n') {n : Nat} {old : Buffer} (hfind : s.find? line = some ⟨n, .text old⟩) :
    s.assemble allowance line p input =
      match old.append? allowance.storage [c] with
      | some new =>
        (s.put line ⟨n, .text new⟩).assemble allowance line ⟨[], p.offset + c.utf8Size⟩ rest
      | none => ⟨.error (.allocation .moreText), s, rest⟩ := by
  induction hyields generalizing p with
  | done => exact absurd rfl hmore
  | @octet b input rest bytes hrest ih =>
    rw [List.append_cons] at hread
    by_cases hbytes : bytes = []
    · subst hbytes
      cases hrest
      rw [List.append_nil] at hread
      have hlength : (p.gathered ++ [b]).length = c.utf8Size := by
        rw [Decoder.read_eq_complete_iff.mp hread, String.length_utf8EncodeChar]
      rw [assemble, if_neg (not_line_end (by rw [hread]; simpa using hnewline))]
      simp only [hread, append_of_find? allowance [c] hfind, hlength]
      cases old.append? allowance.storage [c] <;> rfl
    · have hvalid : Decoder.read (p.gathered ++ [b] ++ bytes) ≠ .invalid := by
        rw [hread]
        simp
      have hfirst := Decoder.incomplete_of_append hvalid hbytes
      rw [assemble, if_neg (not_line_end (by simp [hfirst]))]
      simp only [hfirst]
      exact ih ⟨p.gathered ++ [b], p.offset⟩ hread hbytes
  | interruption _ ih => exact ih p hread hmore

theorem content_append? {grant : Nat → Bool} {old new : Buffer} {c : Char}
    (happend : old.append? grant [c] = some new) :
    new.content = old.content ++ [c].filter (· ≠ terminator) := by
  have hkept : Buffer.beforeTerminator [c] = [c].filter (· ≠ terminator) := by
    by_cases hc : c = terminator <;> simp [Buffer.beforeTerminator, hc]
  obtain ⟨capacity, rfl, -⟩ := Buffer.append?_eq_some happend
  rw [Buffer.content_extend, hkept]

/-- Text before the end of the line is appended, but for the characters U+0000 in it. -/
theorem assemble_text (allowance : Allowance) {text : List Char} {input rest : List Arrival}
    (hyields : Yields input (octets text) rest) (hline : newline ∉ octets text) (offset : Nat)
    {n : Nat} {old : Buffer} (hfind : s.find? line = some ⟨n, .text old⟩) :
    (s.assemble allowance line ⟨[], offset⟩ input).result = .error (.allocation .moreText) ∨
    ∃ new, new.content = old.content ++ text.filter (· ≠ terminator) ∧
      s.assemble allowance line ⟨[], offset⟩ input =
        (s.put line ⟨n, .text new⟩).assemble allowance line ⟨[], offset + size text⟩ rest := by
  induction text generalizing s input offset old with
  | nil =>
    cases hyields
    refine .inr ⟨old, by simp, ?_⟩
    rw [put_self hfind]
    rfl
  | cons c text ih =>
    -- Either the first character is refused, or the rest is read behind it with a longer buffer.
    obtain ⟨middle, hchar, hrest⟩ := hyields.split
    rw [octets_cons, List.mem_append, not_or] at hline
    have hnewline : c ≠ '\n' := by
      rintro rfl
      exact hline.1 List.mem_cons_self
    rw [assemble_complete hchar ⟨[], offset⟩ (Decoder.read_encode c) String.utf8EncodeChar_ne_nil
      hnewline hfind]
    cases happend : old.append? allowance.storage [c] with
    | none => exact .inl rfl
    | some next =>
      have hnext := find?_put ⟨n, .text next⟩ hfind
      obtain hrefused | ⟨new, hcontent, heq⟩ := ih hrest hline.2 (offset + c.utf8Size) hnext
      · exact .inl hrefused
      · refine .inr ⟨new, ?_, ?_⟩
        · rw [hcontent, content_append? happend, List.append_assoc, ← List.filter_append]
          rfl
        · rw [put_put, Nat.add_assoc, ← size_cons] at heq
          exact heq

/-! The ways in which an assembly ends. -/

theorem assemble_newline {input rest : List Arrival} (hyields : Yields input [newline] rest)
    (offset : Nat) :
    s.assemble allowance line ⟨[], offset⟩ input = ⟨.ok offset, s, rest⟩ := by
  generalize hbytes : [newline] = bytes at hyields
  induction hyields with
  | done => cases hbytes
  | octet hrest =>
    obtain ⟨rfl, rfl⟩ := List.cons.inj hbytes
    cases hrest
    rfl
  | interruption _ ih => exact ih hbytes

theorem assemble_invalid {input rest : List Arrival} {b : UInt8} (hyields : Yields input [b] rest)
    (p : Progress) (hread : Decoder.read (p.gathered ++ [b]) = .invalid) :
    s.assemble allowance line p input = ⟨.error (.invalidInput p.offset), s, rest⟩ := by
  generalize hbytes : [b] = bytes at hyields
  induction hyields with
  | done => cases hbytes
  | octet hrest =>
    obtain ⟨rfl, rfl⟩ := List.cons.inj hbytes
    cases hrest
    rw [assemble, if_neg (not_line_end (by simp [hread]))]
    simp only [hread]
  | interruption _ ih => exact ih hbytes

theorem assemble_end {input : List Arrival} (hlead : lead input = []) (hstop : stop input = none)
    (p : Progress) : s.assemble allowance line p input = s.finishLine p [] := by
  induction input with
  | nil => rfl
  | cons arrival input ih =>
    cases arrival with
    | octet b => cases hlead
    | interruption => exact ih hlead hstop
    | failure cause => cases hstop

theorem assemble_failure {input : List Arrival} {cause : TransferFault} (hlead : lead input = [])
    (hstop : stop input = some cause) :
    ∃ n rest, input = List.replicate n .interruption ++ .failure cause :: rest ∧
      ∀ p, s.assemble allowance line p input = ⟨.error (.transfer cause), s, rest⟩ := by
  induction input with
  | nil => cases hstop
  | cons arrival input ih =>
    cases arrival with
    | octet b => cases hlead
    | interruption =>
      obtain ⟨n, rest, heq, hassemble⟩ := ih hlead hstop
      exact ⟨n + 1, rest, congrArg (Arrival.interruption :: ·) heq, hassemble⟩
    | failure other =>
      obtain rfl := Option.some.inj hstop
      exact ⟨0, input, rfl, fun p => rfl⟩

/-! Reading on the same octets, cut and interrupted in another way. -/

/-- The row of arrivals that goes on with these octets and then fails or ends. -/
def plain (bytes : List UInt8) (failure : Option TransferFault) : List Arrival :=
  bytes.map .octet ++ (failure.map .failure).toList

theorem assemble_plain (s : Heap) (allowance : Allowance) (line : Handle) (p : Progress)
    (input : List Arrival) :
    (s.assemble allowance line p (plain (lead input) (stop input))).result =
        (s.assemble allowance line p input).result ∧
      (s.assemble allowance line p (plain (lead input) (stop input))).heap =
        (s.assemble allowance line p input).heap := by
  induction input generalizing s p with
  | nil => exact ⟨rfl, rfl⟩
  | cons arrival input ih =>
    cases arrival with
    | interruption => exact ih s p
    | failure cause => exact ⟨rfl, rfl⟩
    | octet b =>
      have hplain : plain (lead (.octet b :: input)) (stop (.octet b :: input)) =
          .octet b :: plain (lead input) (stop input) := rfl
      rw [hplain, assemble, assemble]
      by_cases hend : b = newline ∧ p.gathered = []
      · rw [if_pos hend, if_pos hend]
        exact ⟨rfl, rfl⟩
      · rw [if_neg hend, if_neg hend]
        dsimp only
        cases Decoder.read (p.gathered ++ [b]) with
        | incomplete => exact ih s _
        | invalid => exact ⟨rfl, rfl⟩
        | complete c =>
          dsimp only
          cases (s.append allowance line [c]).result with
          | error fault => exact ⟨rfl, rfl⟩
          | ok => exact ih _ _

/-! Assembling without a refusal. -/

theorem size_beforeTerminator_le (text : List Char) :
    size (Buffer.beforeTerminator text) ≤ size text := by
  have hsplit := congrArg size (List.takeWhile_append_dropWhile (p := (· ≠ terminator)) (l := text))
  rw [size_append] at hsplit
  unfold Buffer.beforeTerminator
  omega

/-- An append asks for no more than twice what the content needs, or for eight octets. -/
theorem append?_granted {grant : Nat → Bool} {old : Buffer} {text : List Char} {octets : Nat}
    (hsize : old.size + size text ≤ octets)
    (hgrant : ∀ n ≤ max (2 * (octets + 1)) 8, grant n = true) :
    ∃ new, old.append? grant text = some new ∧ new.size ≤ old.size + size text := by
  have haddition := size_beforeTerminator_le text
  have hused : old.used = old.size + 1 := rfl
  unfold Buffer.append?
  dsimp only
  split
  · exact ⟨old, rfl, Nat.le_add_right _ _⟩
  · split
    · exact ⟨_, rfl, Nat.add_le_add_left haddition _⟩
    · next hneeded =>
      rw [if_pos]
      · exact ⟨_, rfl, Nat.add_le_add_left haddition _⟩
      · apply hgrant
        cases old.growth <;> simp only [Growth.request] <;> omega

theorem assemble_granted {line : Handle} {n octets : Nat}
    (hgrant : ∀ n ≤ max (2 * (octets + 1)) 8, allowance.storage n = true) (input : List Arrival)
    (p : Progress) {old : Buffer} (hfind : s.find? line = some ⟨n, .text old⟩)
    (hsize : old.size + p.gathered.length + (lead input).length ≤ octets) (shortage : Shortage) :
    (s.assemble allowance line p input).result ≠ .error (.allocation shortage) := by
  induction input generalizing s p old with
  | nil =>
    rw [assemble, finishLine]
    dsimp only
    split <;> simp
  | cons arrival input ih =>
    cases arrival with
    | interruption => exact ih p hfind hsize
    | failure cause => simp [assemble]
    | octet b =>
      rw [assemble]
      split
      · rw [finishLine]
        dsimp only
        split <;> simp
      · have hlength : (p.gathered ++ [b]).length = p.gathered.length + 1 := by simp
        have hlead : (lead (.octet b :: input)).length = (lead input).length + 1 := rfl
        dsimp only
        cases hread : Decoder.read (p.gathered ++ [b]) with
        | incomplete =>
          refine ih ⟨p.gathered ++ [b], p.offset⟩ hfind ?_
          dsimp only
          omega
        | invalid => simp
        | complete c =>
          rw [Decoder.read_eq_complete_iff.mp hread, String.length_utf8EncodeChar] at hlength
          have hfits : old.size + size [c] ≤ octets := by
            rw [size_cons, size_nil]
            omega
          obtain ⟨new, happend, hnew⟩ := append?_granted hfits hgrant
          simp only [append_of_find? allowance [c] hfind, happend]
          rw [size_cons, size_nil] at hnew
          refine ih _ (find?_put _ hfind) ?_
          simp only [List.length_nil]
          omega

end Heap

end CountedHeap
