import CountedHeap.Event
import CountedHeap.Proofs.Numeral
import Mathlib.Data.List.Basic

/-! The wording of log lines. A line begins with fixed words that tell what it is about, and the
handles and numbers behind them can be read back. So a line tells the event that it was written
for. -/
namespace CountedHeap

namespace Text.Decimal

theorem toList_toString (n : Nat) : (toString n).toList = ofNat n := by
  simp [ofNat]

theorem ofNat_injective {m n : Nat} (h : ofNat m = ofNat n) : m = n := by
  have hread := congrArg (toNat? 10) h
  rw [toNat?_ofNat, toNat?_ofNat] at hread
  exact Option.some.inj hread

theorem not_mem_ofNat {c : Char} (hc : c.isDigit = false) (n : Nat) : c ∉ ofNat n := by
  intro hmem
  rw [(plain_ofNat n).isDigit c hmem] at hc
  cases hc

/-- A number ends where something else than a digit stands. -/
theorem takeWhile_ofNat (n : Nat) {c : Char} (hc : c.isDigit = false) (rest : List Char) :
    (ofNat n ++ c :: rest).takeWhile Char.isDigit = ofNat n := by
  rw [List.takeWhile_append_of_pos (plain_ofNat n).isDigit,
    List.takeWhile_cons_of_neg (by rw [hc]; decide), List.append_nil]

theorem ofNat_append_inj {m n : Nat} {c : Char} {s t : List Char} (hc : c.isDigit = false)
    (h : ofNat m ++ c :: s = ofNat n ++ c :: t) : m = n ∧ s = t := by
  have hdigits := congrArg (List.takeWhile Char.isDigit) h
  rw [takeWhile_ofNat m hc, takeWhile_ofNat n hc] at hdigits
  obtain rfl := ofNat_injective hdigits
  exact ⟨rfl, (List.cons.inj (List.append_cancel_left h)).2⟩

theorem ofNat_ne_minus (m : Nat) (digits : List Char) : ofNat m ≠ '-' :: digits := by
  intro h
  apply not_mem_ofNat (c := '-') rfl m
  rw [h]
  exact List.mem_cons_self

theorem ofInt_injective {m n : Int} (h : ofInt m = ofInt n) : m = n := by
  cases m with
  | ofNat m =>
    cases n with
    | ofNat n => rw [ofNat_injective h]
    | negSucc n => exact absurd h (ofNat_ne_minus m _)
  | negSucc m =>
    cases n with
    | ofNat n => exact absurd h.symm (ofNat_ne_minus n _)
    | negSucc n =>
      obtain ⟨-, hdigits⟩ := List.cons.inj h
      rw [Nat.succ.inj (ofNat_injective hdigits)]

end Text.Decimal

namespace Handle

open Text.Decimal

theorem toList_render (h : Handle) :
    h.render.toList = '#' :: (ofNat h.index ++ 'v' :: ofNat h.generation) := by
  have hrender : h.render = "#" ++ toString h.index ++ "v" ++ toString h.generation := rfl
  rw [hrender]
  simp only [String.toList_append, toList_toString, List.append_assoc]
  rfl

/-- A handle can be read off where it stands before a blank. -/
theorem render_append_inj {a b : Handle} {s t : List Char}
    (h : a.render.toList ++ ' ' :: s = b.render.toList ++ ' ' :: t) : a = b ∧ s = t := by
  simp only [toList_render, List.cons_append, List.append_assoc] at h
  obtain ⟨hindex, hrest⟩ := ofNat_append_inj rfl (List.cons.inj h).2
  obtain ⟨hgeneration, hrest⟩ := ofNat_append_inj rfl hrest
  exact ⟨Handle.ext hindex hgeneration, hrest⟩

/-- The form of a handle is made of digits and two other characters. -/
theorem not_mem_render (h : Handle) {c : Char} (hdigit : c.isDigit = false)
    (hother : c ∉ ['#', 'v']) : c ∉ h.render.toList := by
  rw [toList_render]
  simp only [List.mem_cons, List.not_mem_nil, or_false, not_or] at hother
  simp [hother, not_mem_ofNat hdigit]

theorem render_injective {a b : Handle} (h : a.render.toList = b.render.toList) : a = b :=
  (render_append_inj (congrArg (· ++ [' ']) h)).1

end Handle

namespace Event

/-- What a line is about. -/
inductive Topic where
  | created (kind : Kind)
  | retained
  | released
  | staleRetain
  | staleRelease
  | retired
  | destroyed (kind : Kind)
  | assembled
  | loaded
deriving DecidableEq, Repr

namespace Topic

/-- The words that lines of a topic begin with. -/
def opening : Topic → String
  | created kind => "Created " ++ kind.name ++ " value "
  | retained => "Retained "
  | released => "Released "
  | staleRetain => "Attempted to retain destroyed value "
  | staleRelease => "Attempted to release destroyed value "
  | retired => "Retiring slot "
  | destroyed kind => "Destroyed " ++ kind.name ++ " value "
  | assembled => "Assembled "
  | loaded => "Loaded heap configuration from "

def creates : Topic → Bool
  | created _ => true
  | _ => false

def destroys : Topic → Bool
  | destroyed _ => true
  | _ => false

def all : List Topic :=
  [created .integer, created .text, retained, released, staleRetain, staleRelease, retired,
    destroyed .integer, destroyed .text, assembled, loaded]

theorem mem_all (topic : Topic) : topic ∈ all := by
  cases topic with
  | created kind | destroyed kind => cases kind <;> decide
  | _ => decide

/-- No opening begins with another. -/
theorem eq_of_opening_prefix {a b : Topic} (h : a.opening.toList <+: b.opening.toList) : a = b := by
  have hfree : ∀ a ∈ all, ∀ b ∈ all, a.opening.toList <+: b.opening.toList → a = b := by
    decide
  exact hfree a (mem_all a) b (mem_all b) h

end Topic

def topic : Event → Topic
  | created kind _ => .created kind
  | retained .. => .retained
  | released .. => .released
  | staleRetain _ => .staleRetain
  | staleRelease _ => .staleRelease
  | retired _ => .retired
  | integerDestroyed .. => .destroyed .integer
  | textDestroyed .. => .destroyed .text
  | assembled .. => .assembled
  | loaded .. => .loaded

open Text.Decimal

/-- What stands behind the opening of a line. -/
def details : Event → List Char
  | created _ h | staleRetain h | staleRelease h => h.render.toList
  | retained h n | released h n =>
    h.render.toList ++ ' ' :: ("(refcount ".toList ++ (ofNat n ++ [')']))
  | retired i => ofNat i ++ ' ' :: "after generation exhaustion".toList
  | integerDestroyed h n => h.render.toList ++ ' ' :: '(' :: (ofInt n ++ [')'])
  | textDestroyed h freed =>
    h.render.toList ++ ' ' :: '(' :: (ofNat freed ++ ' ' :: "bytes freed)".toList)
  | assembled count h => ofNat count ++ ' ' :: ("bytes into ".toList ++ h.render.toList)
  | loaded file settings => (file ++ ": " ++ settings.render).toList

theorem toList_text (e : Event) : e.text.toList = e.topic.opening.toList ++ e.details := by
  cases e with
  | created | staleRetain | staleRelease => exact String.toList_append
  | retained h n =>
    change ("Retained " ++ h.render ++ (" (refcount " ++ toString n ++ ")")).toList = _
    simp only [String.toList_append, toList_toString]
    rw [List.append_assoc, List.append_assoc]
    rfl
  | released h n =>
    change ("Released " ++ h.render ++ (" (refcount " ++ toString n ++ ")")).toList = _
    simp only [String.toList_append, toList_toString]
    rw [List.append_assoc, List.append_assoc]
    rfl
  | retired i =>
    change ("Retiring slot " ++ toString i ++ " after generation exhaustion").toList = _
    simp only [String.toList_append, toList_toString]
    rw [List.append_assoc]
    rfl
  | integerDestroyed h n =>
    change ("Destroyed integer value " ++ h.render ++ " (" ++ String.ofList (ofInt n) ++
      ")").toList = _
    simp only [String.toList_append, String.toList_ofList, List.append_assoc]
    rfl
  | textDestroyed h n =>
    change ("Destroyed text value " ++ h.render ++
      (" (" ++ toString n ++ " bytes freed)")).toList = _
    simp only [String.toList_append, toList_toString, List.append_assoc]
    rfl
  | assembled count h =>
    change ("Assembled " ++ toString count ++ " bytes into " ++ h.render).toList = _
    simp only [String.toList_append, toList_toString, List.append_assoc]
    rfl
  | loaded file settings =>
    change ("Loaded heap configuration from " ++ file ++ ": " ++ settings.render).toList = _
    simp only [String.toList_append, List.append_assoc]
    simp only [details, String.toList_append, List.append_assoc]
    rfl

/-- Two lines that read the same are about the same, and say the same about it. -/
theorem topic_and_details_of_text {e f : Event} (h : e.text = f.text) :
    e.topic = f.topic ∧ e.details = f.details := by
  have hlists := congrArg String.toList h
  rw [toList_text, toList_text] at hlists
  have he := List.prefix_append e.topic.opening.toList e.details
  have hf := List.prefix_append f.topic.opening.toList f.details
  rw [hlists] at he
  have htopic : e.topic = f.topic := by
    obtain hprefix | hprefix := List.prefix_or_prefix_of_prefix he hf
    · exact Topic.eq_of_opening_prefix hprefix
    · exact (Topic.eq_of_opening_prefix hprefix).symm
  rw [htopic] at hlists
  exact ⟨htopic, List.append_cancel_left hlists⟩

/-- A line about values tells its event. -/
theorem eq_of_text {e f : Event} (hvalue : e.topic ≠ .loaded) (h : f.text = e.text) : f = e := by
  obtain ⟨htopic, hdetails⟩ := topic_and_details_of_text h
  cases e <;> cases f <;> cases htopic
  case created | staleRetain | staleRelease => rw [Handle.render_injective hdetails]
  case retained | released =>
    obtain ⟨rfl, hcount⟩ := Handle.render_append_inj hdetails
    rw [ofNat_injective (List.append_cancel_right (List.append_cancel_left hcount))]
  case retired => rw [(ofNat_append_inj rfl hdetails).1]
  case integerDestroyed =>
    obtain ⟨rfl, hnumber⟩ := Handle.render_append_inj hdetails
    rw [ofInt_injective (List.append_cancel_right (List.cons.inj hnumber).2)]
  case textDestroyed =>
    obtain ⟨rfl, hfreed⟩ := Handle.render_append_inj hdetails
    rw [(ofNat_append_inj rfl (List.cons.inj hfreed).2).1]
  case assembled =>
    obtain ⟨rfl, hline⟩ := ofNat_append_inj rfl hdetails
    rw [Handle.render_injective (List.append_cancel_left hline)]
  case loaded => exact absurd rfl hvalue

end Event

/-! What can be read off a line. -/

namespace Line

open Text.Decimal

/-- The line begins with these words. -/
def begins (words line : String) : Bool := words.toList.isPrefixOf line.toList

/-- A search for a character passes over what does not hold it. -/
theorem passed {mark : Char} {text : List Char} (hnone : mark ∉ text) :
    ∀ c ∈ text, decide (c ≠ mark) = true := by
  intro c hc
  rw [decide_eq_true_eq]
  rintro rfl
  exact hnone hc

/-- The handle in a line as it is written: from the number sign to the next blank. -/
def handle (line : String) : List Char :=
  (line.toList.dropWhile (· ≠ '#')).takeWhile (· ≠ ' ')

/-- The number of owners in a line that tells of a new owner or of one less. -/
def refcount? (line : String) : Option Nat :=
  if begins "Retained " line || begins "Released " line then
    let bracket := line.toList.dropWhile (· ≠ '(')
    toNat? 10 ((bracket.drop "(refcount ".toList.length).takeWhile Char.isDigit)
  else none

/-- The line is on the account of the handle: it names the handle and tells of its beginning, of its
owners or of its end. -/
def onAccount (h : Handle) (line : String) : Bool :=
  ["Created ", "Retained ", "Released ", "Destroyed "].any (begins · line) &&
    handle line = h.render.toList

end Line

namespace Event

open Text.Decimal

/-- Words that do not go beyond an opening are told from the topic. -/
theorem begins_text {words : String} {p : Topic → Bool}
    (htopics : ∀ topic ∈ Topic.all, (topic.opening.toList <+: words.toList →
      words.toList <+: topic.opening.toList) ∧
        words.toList.isPrefixOf topic.opening.toList = p topic) (e : Event) :
    Line.begins words e.text = p e.topic := by
  obtain ⟨hwithin, htopic⟩ := htopics e.topic e.topic.mem_all
  have hopening := List.prefix_append e.topic.opening.toList e.details
  rw [← htopic, Line.begins, toList_text, Bool.eq_iff_iff, List.isPrefixOf_iff_prefix,
    List.isPrefixOf_iff_prefix]
  constructor
  · intro hwords
    obtain hprefix | hbeyond := List.prefix_or_prefix_of_prefix hwords hopening
    · exact hprefix
    · exact hwithin hbeyond
  · exact fun hwords => hwords.trans hopening

theorem begins_created (e : Event) : Line.begins "Created " e.text = e.topic.creates :=
  begins_text (by decide) e

theorem begins_destroyed (e : Event) : Line.begins "Destroyed " e.text = e.topic.destroys :=
  begins_text (by decide) e

theorem begins_retained (e : Event) : Line.begins "Retained " e.text = (e.topic == .retained) :=
  begins_text (p := (· == .retained)) (by decide) e

theorem begins_released (e : Event) : Line.begins "Released " e.text = (e.topic == .released) :=
  begins_text (p := (· == .released)) (by decide) e

/-- The handle on whose account the line of an event stands. -/
def account? : Event → Option Handle
  | created _ h | retained h _ | released h _ | integerDestroyed h _ | textDestroyed h _ => some h
  | staleRetain _ | staleRelease _ | retired _ | assembled .. | loaded .. => none

theorem handle_text {e : Event} {h : Handle} (haccount : e.account? = some h) :
    Line.handle e.text = h.render.toList := by
  obtain ⟨rest, hdetails, hrest⟩ :
      ∃ rest, e.details = h.render.toList ++ rest ∧ rest.takeWhile (· ≠ ' ') = [] := by
    cases e with
    | created =>
      cases haccount
      exact ⟨[], (List.append_nil _).symm, rfl⟩
    | retained | released | integerDestroyed | textDestroyed =>
      cases haccount
      exact ⟨_, rfl, rfl⟩
    | _ => cases haccount
  have hopening : ∀ topic ∈ Topic.all, '#' ∉ topic.opening.toList := by decide
  have hrender : ' ' ∉ h.render.toList := h.not_mem_render rfl (by decide)
  have hsharp : (h.render.toList ++ rest).dropWhile (· ≠ '#') = h.render.toList ++ rest := by
    rw [Handle.toList_render]
    rfl
  rw [Line.handle, toList_text, hdetails,
    List.dropWhile_append_of_pos (Line.passed (hopening e.topic e.topic.mem_all)), hsharp,
    List.takeWhile_append_of_pos (Line.passed hrender), hrest, List.append_nil]

/-- The number of owners that an event tells. -/
def refcount? : Event → Option Nat
  | retained _ n | released _ n => some n
  | _ => none

/-- No bracket comes before that of the number of owners. -/
theorem refcount?_of_details {e : Event} {h : Handle} {n : Nat}
    (htopic : e.topic = .retained ∨ e.topic = .released)
    (hdetails : e.details =
      h.render.toList ++ ' ' :: ("(refcount ".toList ++ (ofNat n ++ [')']))) :
    Line.refcount? e.text = some n := by
  have hbegins : (Line.begins "Retained " e.text || Line.begins "Released " e.text) = true := by
    rw [begins_retained, begins_released]
    obtain htopic | htopic := htopic <;> rw [htopic] <;> rfl
  have hopening : '(' ∉ e.topic.opening.toList := by
    obtain htopic | htopic := htopic <;> rw [htopic] <;> decide
  have hrender : '(' ∉ h.render.toList := h.not_mem_render rfl (by decide)
  have hbracket : (' ' :: ("(refcount ".toList ++ (ofNat n ++ [')']))).dropWhile (· ≠ '(') =
      "(refcount ".toList ++ (ofNat n ++ [')']) := rfl
  rw [Line.refcount?, if_pos hbegins, toList_text, hdetails]
  dsimp only
  rw [List.dropWhile_append_of_pos (Line.passed hopening),
    List.dropWhile_append_of_pos (Line.passed hrender), hbracket, List.drop_left,
    takeWhile_ofNat n rfl, toNat?_ofNat]

theorem refcount?_text (e : Event) : Line.refcount? e.text = e.refcount? := by
  cases e with
  | retained h n => exact refcount?_of_details (.inl rfl) rfl
  | released h n => exact refcount?_of_details (.inr rfl) rfl
  | _ =>
    rw [Line.refcount?, begins_retained, begins_released]
    rfl

theorem onAccount_text (e : Event) (h : Handle) :
    Line.onAccount h e.text = decide (e.account? = some h) := by
  have hbegins : ["Created ", "Retained ", "Released ", "Destroyed "].any
      (Line.begins · e.text) = e.account?.isSome := by
    simp only [List.any_cons, List.any_nil, begins_created, begins_retained, begins_released,
      begins_destroyed]
    cases e <;> rfl
  rw [Line.onAccount, hbegins]
  cases haccount : e.account? with
  | none => rfl
  | some g =>
    rw [handle_text haccount, Option.isSome_some, Bool.true_and, decide_eq_decide,
      Option.some.injEq]
    exact ⟨Handle.render_injective, fun heq => by rw [heq]⟩

end Event

end CountedHeap
