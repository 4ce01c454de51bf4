import CountedHeap.Settings.Numeral
import CountedHeap.Settings.Token

/-!
The statements of a settings document: assignments of a value to a dotted key, and headers that
name the table which the following assignments belong to. Of values there are texts, numbers,
empty tables or lists, and tables whose one key names something and has an empty value; no setting
takes any other. -/
namespace CountedHeap.Settings

abbrev Name := List Char

inductive Assigned where
  | text (name : Name)
  | number (n : Nat)
  | hollow
  | choice (name : Name)
deriving DecidableEq, Repr

inductive Statement where
  | assign (path : List Name) (value : Assigned)
  | header (path : List Name)
deriving DecidableEq, Repr

namespace Statement

def isBare (c : Char) : Bool := c.isAlphanum || c == '-' || c == '_'

/-- A key is a bare word or a text in one line. -/
def key? : Token → Option Name
  | .word text => if text.all isBare then some text else none
  | .quoted text => some text
  | _ => none

/-- Reads keys with dots between them; the rest follows. -/
def path? : List Token → Option (List Name × List Token)
  | k :: .dot :: rest =>
    match key? k, path? rest with
    | some name, some (names, rest) => some (name :: names, rest)
    | _, _ => none
  | k :: rest => (key? k).map fun name => ([name], rest)
  | [] => none

/-- Within brackets and braces a line may end anywhere between parts. -/
def skipLines (tokens : List Token) : List Token := tokens.dropWhile (· = .lineEnd)

/-- Reads an empty table or an empty list; the rest follows. -/
def hollow? : List Token → Option (List Token)
  | .openBrace :: rest =>
    match skipLines rest with
    | .closeBrace :: rest => some rest
    | _ => none
  | .openBracket :: rest =>
    match skipLines rest with
    | .closeBracket :: rest => some rest
    | _ => none
  | _ => none

/-- Reads the end of a table, which a comma may precede; the rest follows. -/
def tableEnd? (tokens : List Token) : Option (List Token) :=
  match skipLines tokens with
  | .closeBrace :: rest => some rest
  | .comma :: rest =>
    match skipLines rest with
    | .closeBrace :: rest => some rest
    | _ => none
  | _ => none

/-- Reads an empty value behind an equals sign; the rest follows. -/
def hollowAssigned? (tokens : List Token) : Option (List Token) :=
  match skipLines tokens with
  | .equals :: rest => hollow? (skipLines rest)
  | _ => none

/-- Reads a table with one key and an empty value; the rest follows. -/
def choice? : List Token → Option (Name × List Token)
  | .openBrace :: rest =>
    match skipLines rest with
    | k :: rest =>
      match key? k, (hollowAssigned? rest).bind tableEnd? with
      | some name, some rest => some (name, rest)
      | _, _ => none
    | [] => none
  | _ => none

/-- Reads a whole value. -/
def value? (tokens : List Token) : Option Assigned :=
  match tokens with
  | [.word text] => (Numeral.read? text).map .number
  | [.quoted text] | [.quotedBlock text] => some (.text text)
  | _ =>
    if hollow? tokens = some [] then some .hollow
    else
      match choice? tokens with
      | some (name, []) => some (.choice name)
      | _ => none

/-- Reads a whole statement. -/
def ofTokens? : List Token → Option Statement
  | .openBracket :: rest =>
    match path? rest with
    | some (path, [.closeBracket]) => some (.header path)
    | _ => none
  | tokens =>
    match path? tokens with
    | some (path, .equals :: rest) => (value? rest).map (.assign path)
    | _ => none

/-- How many brackets and braces are open after a token. -/
def depthAfter (depth : Nat) : Token → Nat
  | .openBracket | .openBrace => depth + 1
  | .closeBracket | .closeBrace => depth - 1
  | _ => depth

/-- Cuts tokens at the line ends outside of brackets and braces; the tokens of the present line
are kept backward. -/
def cut (depth : Nat) (back : List Token) : List Token → List (List Token)
  | [] => [back.reverse]
  | token :: rest =>
    if token = .lineEnd ∧ depth = 0 then back.reverse :: cut 0 [] rest
    else cut (depthAfter depth token) (token :: back) rest

/-- The statements of a document, one on each line that is not blank. -/
def ofDocument? (document : List Char) : Option (List Statement) :=
  (Token.ofDocument? document).bind fun tokens =>
    ((cut 0 [] tokens).filter (· ≠ [])).mapM ofTokens?

end Statement

end CountedHeap.Settings
