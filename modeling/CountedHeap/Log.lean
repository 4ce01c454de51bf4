/-! Log records: a level, the part of the library that speaks, and the text. -/
namespace CountedHeap.Log

/-- Levels from the most severe to the most talkative. -/
inductive Level where
  | error
  | warn
  | info
  | debug
  | trace
deriving DecidableEq, Repr

namespace Level

def name : Level → String
  | error => "ERROR"
  | warn => "WARN"
  | info => "INFO"
  | debug => "DEBUG"
  | trace => "TRACE"

/-- How talkative a level is; a threshold lets pass what is at most as talkative. -/
def rank : Level → Nat
  | error => 1
  | warn => 2
  | info => 3
  | debug => 4
  | trace => 5

end Level

structure Record where
  level : Level
  target : String
  text : String
deriving DecidableEq, Repr

/-- A record without its target. -/
def Record.brief (r : Record) : String := r.level.name ++ " " ++ r.text

end CountedHeap.Log
