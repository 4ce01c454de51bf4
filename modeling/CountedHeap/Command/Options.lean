import CountedHeap.Text.Decimal

/-!
The command line: options in long and short form, each at most once, and nothing else. A value
stands behind an equals sign, directly behind a short option, or as the next argument; there it
must not look like an option itself, though a lone dash or a negative number for the integer does
not. Arguments are read in order, and the first that asks for something else or is wrong decides. -/
namespace CountedHeap.Command

/-- What a run of the program is asked to do. -/
structure Options where
  template : List Char
  integer : Option Int
  settingsFile : Option String
  amortized : Bool
  share : Nat
deriving DecidableEq, Repr

inductive Invocation where
  | run (options : Options)
  | version
  | help
  | misuse
deriving DecidableEq, Repr

namespace Options

/-- The value alone, on a line of its own. -/
def defaultTemplate : List Char := ['\x7b', '\x7d', '\n']

/-- The options that take a value. -/
inductive Key where
  | template
  | integer
  | settingsFile
  | share
deriving DecidableEq, Repr

/-- One argument, taken for itself. -/
inductive Word where
  | endOfOptions
  | amortized
  | version
  | help
  | option (key : Key) (attached : Option (List Char))
  | other
deriving DecidableEq, Repr

/-- The options given so far. -/
structure Given where
  template : Option (List Char)
  integer : Option Int
  settingsFile : Option String
  amortized : Bool
  share : Option Nat
deriving DecidableEq, Repr

def nothing : Given := ⟨none, none, none, false, none⟩

def complete (g : Given) : Options :=
  ⟨g.template.getD defaultTemplate, g.integer, g.settingsFile, g.amortized, g.share.getD 0⟩

/-- A name and what follows its first equals sign. -/
def splitAtEquals (text : List Char) : List Char × Option (List Char) :=
  match text.dropWhile (· ≠ '=') with
  | [] => (text, none)
  | _ :: value => (text.takeWhile (· ≠ '='), some value)

/-- An argument behind two dashes. -/
def longWord (text : List Char) : Word :=
  let (name, value) := splitAtEquals text
  match String.ofList name, value with
  | "", none => .endOfOptions
  | "template", _ => .option .template value
  | "integer", _ => .option .integer value
  | "config", _ => .option .settingsFile value
  | "share", _ => .option .share value
  | "amortized", none => .amortized
  | "version", none => .version
  | "help", none => .help
  | _, _ => .other

/-- The value directly behind a short option; one equals sign before it does not belong to it. -/
def shortValue : List Char → Option (List Char)
  | [] => none
  | '=' :: value => some value
  | value => some value

/-- An argument behind one dash. -/
def shortWord (c : Char) (rest : List Char) : Word :=
  match c with
  | 't' => .option .template (shortValue rest)
  | 'i' => .option .integer (shortValue rest)
  | 'c' => .option .settingsFile (shortValue rest)
  | 'V' => .version
  | 'h' => .help
  | _ => .other

def wordOf : List Char → Word
  | '-' :: '-' :: text => longWord text
  | '-' :: c :: rest => shortWord c rest
  | _ => .other

/-- Whether an argument of its own may be the value of an option. -/
def admits (key : Key) : List Char → Bool
  | '-' :: c :: rest => key = .integer ∧ (c :: rest).all Char.isDigit
  | _ => true

/-- A 64-bit integer. -/
def integer? (text : List Char) : Option Int :=
  (Text.Decimal.toInt? text).filter fun n =>
    -0x8000_0000_0000_0000 ≤ n ∧ n < 0x8000_0000_0000_0000

/-- A 64-bit count. -/
def count? (text : List Char) : Option Nat :=
  (Text.Decimal.toUnsigned? text).filter (· < 0x1_0000_0000_0000_0000)

/-- Gives an option its value, unless it has one or the value is not of its form. -/
def give? (g : Given) (key : Key) (value : List Char) : Option Given :=
  match key with
  | .template => if g.template.isSome then none else some { g with template := some value }
  | .integer =>
    if g.integer.isSome then none
    else (integer? value).map fun n => { g with integer := some n }
  | .settingsFile =>
    if g.settingsFile.isSome ∨ value = [] then none
    else some { g with settingsFile := some (String.ofList value) }
  | .share =>
    if g.share.isSome then none
    else (count? value).map fun n => { g with share := some n }

/-- Reads the arguments behind those that gave the options so far. -/
def parseFrom (g : Given) : List (List Char) → Invocation
  | [] => .run (complete g)
  | argument :: rest =>
    match wordOf argument with
    | .endOfOptions => if rest.isEmpty then .run (complete g) else .misuse
    | .amortized => if g.amortized then .misuse else parseFrom { g with amortized := true } rest
    | .version => .version
    | .help => .help
    | .option key (some value) =>
      match give? g key value with
      | some given => parseFrom given rest
      | none => .misuse
    | .option key none =>
      match rest with
      | value :: rest =>
        if admits key value then
          match give? g key value with
          | some given => parseFrom given rest
          | none => .misuse
        else .misuse
      | [] => .misuse
    | .other => .misuse

end Options

/-- What a command line asks for. -/
def Invocation.ofArguments (arguments : List (List Char)) : Invocation :=
  Options.parseFrom Options.nothing arguments

end CountedHeap.Command
