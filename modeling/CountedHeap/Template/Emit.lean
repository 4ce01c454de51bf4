import CountedHeap.Sink
import CountedHeap.Template.Basic
import CountedHeap.Text.Octets

/-! Rendering a template straight into a sink. -/
namespace CountedHeap.Template

/-- Delivers the encoded rendering of a template. -/
def emit (template : List Char) (arguments : List (List Char)) (sink : Sink) : Delivery :=
  sink.writeAll (Text.octets (render template arguments))

end CountedHeap.Template
