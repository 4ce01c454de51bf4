import CountedHeap.Handle
import CountedHeap.Log
import CountedHeap.Settings.Basic
import CountedHeap.Value

/-! What happens in the life of values and settings, and the log record of each such event. -/
namespace CountedHeap

inductive Event where
  | created (kind : Kind) (h : Handle)
  | retained (h : Handle) (refcount : Nat)
  | released (h : Handle) (refcount : Nat)
  | staleRetain (h : Handle)
  | staleRelease (h : Handle)
  | retired (index : Nat)
  | integerDestroyed (h : Handle) (n : Int)
  | textDestroyed (h : Handle) (freed : Nat)
  | assembled (count : Nat) (h : Handle)
  | loaded (file : String) (settings : Settings)
deriving DecidableEq, Repr

namespace Event

/-- The end of a value. -/
def destroyed (h : Handle) : Value → Event
  | .integer n => integerDestroyed h n
  | .text buffer => textDestroyed h buffer.capacity

def level : Event → Log.Level
  | created .. | retained .. | released .. | assembled .. => .trace
  | staleRetain _ | staleRelease _ => .warn
  | retired _ | integerDestroyed .. | textDestroyed .. | loaded .. => .debug

def target : Event → String
  | assembled .. => "rcvalue::input"
  | loaded .. => "rcvalue::utils::conf"
  | _ => "rcvalue::heap"

def text : Event → String
  | created kind h => "Created " ++ kind.name ++ " value " ++ h.render
  | retained h refcount => "Retained " ++ h.render ++ s!" (refcount {refcount})"
  | released h refcount => "Released " ++ h.render ++ s!" (refcount {refcount})"
  | staleRetain h => "Attempted to retain destroyed value " ++ h.render
  | staleRelease h => "Attempted to release destroyed value " ++ h.render
  | retired index => s!"Retiring slot {index} after generation exhaustion"
  | integerDestroyed h n =>
    "Destroyed integer value " ++ h.render ++ " (" ++ String.ofList (Text.Decimal.ofInt n) ++ ")"
  | textDestroyed h freed => "Destroyed text value " ++ h.render ++ s!" ({freed} bytes freed)"
  | assembled count h => s!"Assembled {count} bytes into " ++ h.render
  | loaded file settings =>
    "Loaded heap configuration from " ++ file ++ ": " ++ settings.render

def record (e : Event) : Log.Record := ⟨e.level, e.target, e.text⟩

end Event

end CountedHeap
