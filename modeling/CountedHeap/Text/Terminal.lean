import CountedHeap.Text.Octets

/-!
Text for a terminal and the part of it that is to be seen. An escape character starts a sequence
that gives the terminal an order; sequences and control characters other than white space are left
out where there is no terminal.

White space within an unfinished sequence is seen all the same. It starts a run of text that is read
as if there were no sequence, and only what follows the run is read within the sequence again. -/
namespace CountedHeap.Text.Terminal

/-- What a character may belong to. A device sequence has parameters before its payload; the
payload, like that of a message, ends with the terminator of strings, and that of a command with the
bell. -/
inductive Mode where
  | ground
  | escape
  | escapeIntermediate
  | control
  | deviceEntry
  | deviceParameter
  | deviceIntermediate
  | message
  | command
deriving DecidableEq, Repr

/-- Whether a character lies between two others. -/
def within (low high c : Char) : Bool := low ≤ c && c ≤ high

/-- The characters of one octet. -/
def isAscii (c : Char) : Bool := c ≤ '\x7f'

/-- The white space of one octet that is no space. -/
def isLayout (c : Char) : Bool := c == '\t' || c == '\n' || c == '\x0c' || c == '\r'

/-- The octet that terminates a string ends it within any encoding. -/
def endsMessage (c : Char) : Bool := !isAscii c && (octets [c]).contains 0x9C

/-- The mode behind the character that follows an escape character. -/
def afterEscape (c : Char) : Mode :=
  match c with
  | '[' => .control
  | ']' => .command
  | 'P' => .deviceEntry
  | 'X' | '^' | '_' => .message
  | _ =>
    if within ' ' '/' c then .escapeIntermediate
    else if within '0' '~' c then .ground
    else .escape

/-- The mode behind a character of the parameters of a device sequence. Characters out of order
spoil the sequence, which has a payload nevertheless. -/
def afterDevice (mode : Mode) (c : Char) : Mode :=
  if within ' ' '/' c then .deviceIntermediate
  else if within '@' '~' c then .message
  else if !within '0' '?' c then mode
  else if mode = .deviceIntermediate then .message
  else if mode = .deviceParameter ∧ within '<' '?' c then .message
  else .deviceParameter

/-- The mode behind a character that is not seen. An escape character starts a sequence anywhere,
and two control characters call one off. -/
def next (mode : Mode) (c : Char) : Mode :=
  if c = '\x1b' then .escape
  else if c = '\x18' ∨ c = '\x1a' then .ground
  else
    match mode with
    | .ground => .ground
    | .escape => afterEscape c
    | .escapeIntermediate => if within '0' '~' c then .ground else .escapeIntermediate
    | .control => if within '@' '~' c then .ground else .control
    | .deviceEntry | .deviceParameter | .deviceIntermediate => afterDevice mode c
    | .message => if endsMessage c then .ground else .message
    | .command => if c = '\x07' then .ground else .command

/-- Whether a character is seen. -/
def isSeen (mode : Mode) (c : Char) : Bool :=
  match mode with
  | .ground => within ' ' '~' c || isLayout c || !isAscii c
  | .escape | .escapeIntermediate | .control => isLayout c
  | _ => false

/-- What is seen of a text, from some mode on, and within a run of seen text or outside of one. A
character that ends the run stands behind it; one of several octets ends the sequence too. -/
def seenFrom (mode : Mode) (inRun : Bool) : List Char → List Char
  | [] => []
  | c :: rest =>
    if isSeen (if inRun then .ground else mode) c then
      c :: seenFrom (if isAscii c then mode else .ground) true rest
    else seenFrom (next mode c) false rest

/-- What is seen of a text. -/
def seen (text : List Char) : List Char := seenFrom .ground false text

/-- Text without an unseen character is seen as it is. -/
theorem seen_of_forall {text : List Char} (h : ∀ c ∈ text, isSeen .ground c = true) :
    seen text = text := by
  have hfrom : ∀ inRun, seenFrom .ground inRun text = text := by
    induction text with
    | nil => intro inRun; rfl
    | cons c text ih =>
      intro inRun
      have hc := h c (by simp)
      have htext := ih (fun d hd => h d (by simp [hd])) true
      cases inRun <;> simp [seenFrom, hc, htext]
  exact hfrom false

/-- A colour is set and reset, a title is set, and a bell rings. -/
example : seen "a\x1b[1;31mb\x1b[0m\x1b]0;t\x07c\x07".toList = "abc".toList := by decide

end CountedHeap.Text.Terminal
