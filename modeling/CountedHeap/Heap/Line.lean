import CountedHeap.Heap.Content
import CountedHeap.Heap.Create
import CountedHeap.Heap.Ownership
import CountedHeap.Source
import CountedHeap.Text.Decoder

/-!
Reading a line through the heap. A temporary text takes each character as soon as its octets are
complete; the line ends at a newline or at the end of the input. Whatever happens, the temporary
text is released before the outcome is reported. -/
namespace CountedHeap

/-- How far the assembly of a line has come: the octets gathered for the next character, and the
number of octets of the characters before it. -/
structure Progress where
  gathered : List UInt8
  offset : Nat
deriving DecidableEq, Repr

/-- The end of an assembly: the number of octets of the line, the heap, and the input left. -/
structure Assembly where
  result : Except Fault Nat
  heap : Heap
  rest : List Arrival

/-- The outcome of reading a line, with the input left. -/
structure LineOutcome where
  result : Except Fault (List Char)
  heap : Heap
  log : List Event
  rest : List Arrival

def newline : UInt8 := 0x0A

namespace Heap

/-- The line ends here; octets of an unfinished character are an error. -/
def finishLine (s : Heap) (p : Progress) (rest : List Arrival) : Assembly :=
  ⟨if p.gathered.isEmpty then .ok p.offset else .error (.invalidInput p.offset), s, rest⟩

/-- Assembles a line in a live text. -/
def assemble (s : Heap) (allowance : Allowance) (line : Handle) (p : Progress) :
    List Arrival → Assembly
  | [] => s.finishLine p []
  | .interruption :: rest => assemble s allowance line p rest
  | .failure cause :: rest => ⟨.error (.transfer cause), s, rest⟩
  | .octet b :: rest =>
    if b = newline ∧ p.gathered = [] then s.finishLine p rest
    else
      let gathered := p.gathered ++ [b]
      match Text.Decoder.read gathered with
      | .incomplete => assemble s allowance line ⟨gathered, p.offset⟩ rest
      | .invalid => ⟨.error (.invalidInput p.offset), s, rest⟩
      | .complete c =>
        let appended := s.append allowance line [c]
        match appended.result with
        | .error fault => ⟨.error fault, appended.heap, rest⟩
        | .ok () =>
          assemble appended.heap allowance line ⟨[], p.offset + gathered.length⟩ rest

/-- Reads one line. When the temporary text cannot be had, nothing is read. -/
def readLine (s : Heap) (allowance : Allowance) (input : List Arrival) : LineOutcome :=
  let started := s.createText allowance
  match started.result with
  | .error fault => ⟨.error fault, started.heap, started.log, input⟩
  | .ok line =>
    let assembly := started.heap.assemble allowance line ⟨[], 0⟩ input
    let text := assembly.result.bind fun _ => (assembly.heap.read line).map View.display
    let note :=
      match assembly.result with
      | .ok count => [Event.assembled count line]
      | .error _ => []
    let ended := assembly.heap.release line
    ⟨ended.result.bind fun _ => text, ended.heap, started.log ++ note ++ ended.log, assembly.rest⟩

end Heap

end CountedHeap
