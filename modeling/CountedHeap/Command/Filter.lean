import CountedHeap.Log
import CountedHeap.Text.Blank
import CountedHeap.Text.Terminal

/-!
Which log records are shown. A filter is a list of directives with commas between them: a level
for everything, a target for everything below it, or a target with a level. A directive takes the
place of an earlier one for the same target. Of those whose target starts a record's own, the longest
decides; without any directive, only errors are shown.
Records are shown as they would be seen on a terminal, each from a new line on. -/
namespace CountedHeap.Command

/-- Records whose target starts with the given one are shown up to the threshold. The directive for
everything has no target, which is not the same as an empty one. -/
structure Directive where
  target : Option String
  threshold : Nat
deriving DecidableEq, Repr

namespace Directive

def covers (d : Directive) (target : String) : Bool := d.target.all fun start => target.startsWith start

/-- How closely a directive describes the targets that it covers. -/
def length (d : Directive) : Nat := d.target.elim 0 String.length

end Directive

abbrev Filter := List Directive

namespace Filter

/-- The threshold that a word names, in any case. -/
def threshold? (word : String) : Option Nat :=
  match word.toLower with
  | "off" => some 0
  | "error" => some Log.Level.error.rank
  | "warn" => some Log.Level.warn.rank
  | "info" => some Log.Level.info.rank
  | "debug" => some Log.Level.debug.rank
  | "trace" => some Log.Level.trace.rank
  | _ => none

/-- Shows all records. -/
def highest : Nat := Log.Level.trace.rank

/-- A word without the white space at its ends. -/
def trimmed (word : String) : String := String.ofList (Text.trim word.toList)

/-- Reads a directive, or names the part of it that is no level. White space counts before an equals
sign, but not around a directive or before its level. -/
def readDirective (text : String) : Except String Directive :=
  match text.splitOn "=" with
  | [word] =>
    match threshold? word with
    | some threshold => .ok ⟨none, threshold⟩
    | none => .ok ⟨some word, highest⟩
  | [target, level] =>
    let word := trimmed level
    match threshold? word with
    | some threshold => .ok ⟨some target, threshold⟩
    | none => if word.isEmpty then .ok ⟨some target, highest⟩ else .error word
  | _ => .error text

/-- The directives of a specification, well-formed or not; empty ones do not count. -/
def readings (specification : String) : List (Except String Directive) :=
  let texts := (specification.splitOn ",").map trimmed
  (texts.filter fun text => !text.isEmpty).map readDirective

/-- The filter with one more directive, in the place of one for the same target. -/
def insert (filter : Filter) (d : Directive) : Filter :=
  match filter with
  | [] => [d]
  | e :: rest => if e.target = d.target then d :: rest else e :: insert rest d

/-- The filter of a specification; what is not well-formed does not count. -/
def ofSpecification (specification : String) : Filter :=
  match (readings specification).filterMap Except.toOption with
  | [] => [⟨none, Log.Level.error.rank⟩]
  | directives => directives.foldl insert []

/-- What is said about directives that are not well-formed. -/
def warnings (specification : String) : List Char :=
  (readings specification).flatMap fun
    | .ok _ => []
    | .error word => ("warning: invalid logging spec '" ++ word ++ "', ignoring it\n").toList

/-- The directive that decides on a target: the longest that fits, and the last of equals. -/
def deciding? (filter : Filter) (target : String) : Option Directive :=
  filter.foldl (fun best d =>
    if d.covers target then
      match best with
      | some b => if b.length ≤ d.length then some d else best
      | none => some d
    else best) none

def shows (filter : Filter) (r : Log.Record) : Bool :=
  match filter.deciding? r.target with
  | some d => r.level.rank ≤ d.threshold
  | none => false

/-- What stands before the text of a record: its level padded to five characters, and its target. -/
def heading (r : Log.Record) : String :=
  "[" ++ r.level.name.pushn ' ' (5 - r.level.name.length) ++ " " ++ r.target ++ "] "

/-- Lines of a text behind the first stand four characters in. -/
def indented (text : List Char) : List Char :=
  text.flatMap fun c => if c = '\n' then '\n' :: List.replicate 4 ' ' else [c]

/-- A record as it is shown. -/
def render (r : Log.Record) : List Char :=
  Text.Terminal.seen ((heading r).toList ++ indented r.text.toList ++ ['\n'])

/-- The records that are shown, one behind the other. -/
def shown (filter : Filter) (log : List Log.Record) : List Char :=
  (log.filter filter.shows).flatMap render

end Filter

end CountedHeap.Command
