import CountedHeap.Settings.Basic
import CountedHeap.Settings.Statement

/-!
What a settings document says. It may set three keys, each once. The growth policy is named by a
text or by a table with one key: given in line, by a dotted key, under a header for growth, or by
a header that names the policy itself. What is set nowhere has its standard value. -/
namespace CountedHeap.Settings

/-- What is known of the growth policy. A header may open its table before or after another header
names the policy; everything else settles it. -/
inductive GrowthChoice where
  | unset
  | opened
  | named (growth : Text.Growth)
  | settled (growth : Text.Growth)
deriving DecidableEq, Repr

/-- The table that assignments belong to. -/
inductive Scope where
  | root
  | growth
  | policy
deriving DecidableEq, Repr

/-- What the statements so far have said. -/
structure Draft where
  scope : Scope
  growth : GrowthChoice
  initialCapacity : Option Nat
  liveLimit : Option Nat
deriving DecidableEq, Repr

namespace Draft

def empty : Draft := ⟨.root, .unset, none, none⟩

def growthKey : Name := "growth".toList

def initialCapacityKey : Name := "initial-text-capacity".toList

def liveLimitKey : Name := "max-live-values".toList

def policy? (name : Name) : Option Text.Growth := Text.Growth.ofName? (String.ofList name)

/-- Settles the growth policy, of which nothing may be known but what is expected. -/
def settle? (d : Draft) (expected : GrowthChoice) (name : Name) : Option Draft :=
  if d.growth = expected then
    (policy? name).map fun growth => { d with growth := .settled growth }
  else none

/-- An assignment outside of all headers. -/
def assignRoot? (d : Draft) (path : List Name) (value : Assigned) : Option Draft :=
  match path, value with
  | [key], .number n =>
    if key = initialCapacityKey ∧ d.initialCapacity = none then
      some { d with initialCapacity := some n }
    else if key = liveLimitKey ∧ d.liveLimit = none then some { d with liveLimit := some n }
    else none
  | [key], .text name | [key], .choice name =>
    if key = growthKey then d.settle? .unset name else none
  | [key, name], .hollow => if key = growthKey then d.settle? .unset name else none
  | _, _ => none

def assign? (d : Draft) (path : List Name) (value : Assigned) : Option Draft :=
  match d.scope, path, value with
  | .root, _, _ => d.assignRoot? path value
  | .growth, [name], .hollow => d.settle? .opened name
  | _, _, _ => none

def header? (d : Draft) : List Name → Option Draft
  | [key] =>
    if key = growthKey then
      match d.growth with
      | .unset => some { d with scope := .growth, growth := .opened }
      | .named growth => some { d with scope := .growth, growth := .settled growth }
      | _ => none
    else none
  | [key, name] =>
    if key = growthKey then
      match policy? name, d.growth with
      | some growth, .unset => some { d with scope := .policy, growth := .named growth }
      | some growth, .opened => some { d with scope := .policy, growth := .settled growth }
      | _, _ => none
    else none
  | _ => none

/-- Takes in one more statement. -/
def add? (d : Draft) : Statement → Option Draft
  | .assign path value => d.assign? path value
  | .header path => d.header? path

/-- The settings that a finished draft stands for. A text has room for its terminator at least. -/
def settings? (d : Draft) : Option Settings :=
  let complete (growth : Text.Growth) : Settings :=
    ⟨growth, max (d.initialCapacity.getD standard.initialCapacity) 1, d.liveLimit⟩
  match d.growth with
  | .unset => some (complete standard.growth)
  | .opened => none
  | .named growth | .settled growth => some (complete growth)

end Draft

/-- A document may start with a byte order mark. -/
def dropMark : List Char → List Char
  | '\ufeff' :: rest => rest
  | document => document

/-- The settings of a document, if it is one. -/
def ofDocument? (document : List Char) : Option Settings :=
  match Statement.ofDocument? (dropMark document) with
  | some statements => (statements.foldlM Draft.add? Draft.empty).bind Draft.settings?
  | none => none

end CountedHeap.Settings
