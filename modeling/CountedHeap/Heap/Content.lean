import CountedHeap.Heap.Basic
import CountedHeap.Sink
import CountedHeap.Template.Basic
import CountedHeap.Text.Octets

/-! Writing to the text of a live value, and rendering a live value through a template. -/
namespace CountedHeap

/-- The result of showing a value, and the octets that were taken. -/
structure Showing where
  result : Except Fault Unit
  written : List UInt8

namespace Heap

/-- Gives the entry of a live text another buffer. -/
def setBuffer (s : Heap) (h : Handle) (buffer : Text.Buffer) : Heap :=
  match s.find? h with
  | some e => s.put h { e with value := .text buffer }
  | none => s

/-- Overwrites the buffer of a live text; the result is the old one. -/
def replaceBuffer (s : Heap) (h : Handle) (buffer : Text.Buffer) : Outcome Text.Buffer :=
  match s.buffer h with
  | .error fault => s.refuse fault
  | .ok old => ⟨.ok old, s.setBuffer h buffer, []⟩

/-- Appends to a live text. -/
def append (s : Heap) (allowance : Allowance) (h : Handle) (text : List Char) : Outcome Unit :=
  match s.buffer h with
  | .error fault => s.refuse fault
  | .ok old =>
    match old.append? allowance.storage text with
    | some buffer => ⟨.ok (), s.setBuffer h buffer, []⟩
    | none => s.refuse (.allocation .moreText)

/-- Appends what stands for one value to a live text. -/
def appendFrom (s : Heap) (allowance : Allowance) (h source : Handle) : Outcome Unit :=
  match s.read source with
  | .error fault => s.refuse fault
  | .ok view => s.append allowance h view.display

/-- A live value in the first placeholder of a template. -/
def display (s : Heap) (h : Handle) (template : List Char) : Except Fault (List Char) :=
  (s.read h).map fun view => Template.render template [view.display]

/-- Writes out a live value in the first placeholder of a template; of a stale handle nothing is
written. -/
def showBy (s : Heap) (h : Handle) (template : List Char) (write : List UInt8 → Delivery) :
    Showing :=
  match s.display h template with
  | .error fault => ⟨.error fault, []⟩
  | .ok text =>
    let delivery := write (Text.octets text)
    match delivery.failure with
    | none => ⟨.ok (), delivery.written⟩
    | some cause => ⟨.error (.transfer cause), delivery.written⟩

/-- Shows a live value to a sink. -/
def showTo (s : Heap) (h : Handle) (template : List Char) (sink : Sink) : Showing :=
  s.showBy h template sink.writeAll

end Heap

end CountedHeap
