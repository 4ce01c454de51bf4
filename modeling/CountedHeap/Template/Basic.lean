/-!
Templates: text with placeholders, each an opening brace directly before a closing one. Arguments
fill the placeholders from left to right; a placeholder without an argument stays, an argument
without a placeholder is dropped, and text that was filled in is not searched again. -/
namespace CountedHeap.Template

/-- The text before the first placeholder and the text after it. -/
def split? : List Char → Option (List Char × List Char)
  | '\x7b' :: '\x7d' :: rest => some ([], rest)
  | c :: rest => (split? rest).map fun parts => (c :: parts.1, parts.2)
  | [] => none

/-- The template with its placeholders filled. -/
def render (template : List Char) : List (List Char) → List Char
  | [] => template
  | argument :: rest =>
    match split? template with
    | none => template
    | some (before, after) => before ++ argument ++ render after rest

@[simp] theorem render_nil (template : List Char) : render template [] = template := by
  rw [render]

end CountedHeap.Template
