import CountedHeap.Fault

/-!
Where lines come from. A script of pieces is a row of arrivals: octets one by one, interruptions,
and failures, each met once and then gone. At the end of the row the input is at its end. -/
namespace CountedHeap

/-- What one read yields. -/
inductive Arrival where
  | octet (b : UInt8)
  | interruption
  | failure (cause : TransferFault)
deriving DecidableEq, Repr

namespace Source

inductive Piece where
  | data (octets : List UInt8)
  | interrupt
  | fail (cause : TransferFault)
deriving DecidableEq, Repr

def Piece.arrivals : Piece → List Arrival
  | data octets => octets.map Arrival.octet
  | interrupt => [.interruption]
  | fail cause => [.failure cause]

/-- Pieces are delivered in order, octet by octet. -/
def arrivals (script : List Piece) : List Arrival := script.flatMap Piece.arrivals

/-- The number of octets still to come. -/
def left (input : List Arrival) : Nat :=
  (input.filter fun | .octet _ => true | _ => false).length

end Source

end CountedHeap
