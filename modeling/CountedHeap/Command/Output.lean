import CountedHeap.Sink

/-!
Standard output. It is buffered by lines: octets up to the last newline go out at once, and so does
a tail behind it that fills the buffer. A shorter tail goes out when the program ends, and whether
that works no longer matters to it. -/
namespace CountedHeap.Command.Output

/-- The number of octets that the buffer holds. -/
def bufferSize : Nat := 1024

def newline : UInt8 := 0x0A

/-- The octets behind the last newline. -/
def tail (octets : List UInt8) : List UInt8 := (octets.reverse.takeWhile (· ≠ newline)).reverse

/-- The octets up to the last newline. -/
def lines (octets : List UInt8) : List UInt8 := octets.take (octets.length - (tail octets).length)

/-- Prints octets on a device; the failure is the one that the program sees. -/
def print (device : Sink) (octets : List UInt8) : Delivery :=
  let first := device.writeAll (lines octets)
  match first.failure with
  | some _ => first
  | none =>
    let last := first.sink.writeAll (tail octets)
    ⟨first.written ++ last.written,
      if bufferSize ≤ (tail octets).length then last.failure else none, last.sink⟩

end CountedHeap.Command.Output
