import CountedHeap.Text.Decimal

/-!
The tokens of a settings document. Its lines end with LF or CRLF. Quoted texts only ever name
things, so one that is empty, or is written between triple quotes with a line break or a quote in
it, is refused at once: no such text is a name. -/
namespace CountedHeap.Settings

/-- A basic text knows escapes, a literal one does not. -/
inductive Quote where
  | basic
  | literal
deriving DecidableEq, Repr

def Quote.mark : Quote → Char
  | basic => '"'
  | literal => '\x27'

inductive Token where
  | word (text : List Char)
  | quoted (text : List Char)
  | quotedBlock (text : List Char)
  | dot
  | equals
  | comma
  | openBracket
  | closeBracket
  | openBrace
  | closeBrace
  | lineEnd
deriving DecidableEq, Repr

namespace Token

/-- Where a reader of tokens stands. The text of the present token is kept backward. -/
inductive Mode where
  | gap
  | comment
  | word (back : List Char)
  | oneQuote (q : Quote)
  | twoQuotes (q : Quote)
  | blockStart (q : Quote)
  | line (q : Quote) (back : List Char)
  | block (q : Quote) (back : List Char)
  | blockEnd (q : Quote) (back : List Char) (missing : Nat)
  | escape (inBlock : Bool) (back : List Char)
  | code (inBlock : Bool) (back : List Char) (missing value : Nat)
  | fold (broken : Bool) (back : List Char)
deriving DecidableEq, Repr

/-- Each CRLF becomes LF; a carriage return elsewhere is an error. -/
def lineEnds? : List Char → Option (List Char)
  | '\r' :: '\n' :: rest => (lineEnds? rest).map ('\n' :: ·)
  | '\r' :: _ => none
  | c :: rest => (lineEnds? rest).map (c :: ·)
  | [] => some []

/-- Comments and texts hold no control character but the tab. -/
def isPlain (c : Char) : Bool := c == '\t' || ('\x20' ≤ c && c != '\x7f')

def isBlank (c : Char) : Bool := c == ' ' || c == '\t'

/-- The tokens of one character. -/
def punctuation? : Char → Option Token
  | '.' => some .dot
  | '=' => some .equals
  | ',' => some .comma
  | '[' => some .openBracket
  | ']' => some .closeBracket
  | '\x7b' => some .openBrace
  | '\x7d' => some .closeBrace
  | '\n' => some .lineEnd
  | _ => none

/-- Where a character leads that no token precedes, and the token that it is itself. -/
def start (c : Char) : Mode × List Token :=
  match punctuation? c with
  | some token => (.gap, [token])
  | none =>
    if isBlank c then (.gap, [])
    else if c = '#' then (.comment, [])
    else if c = Quote.basic.mark then (.oneQuote .basic, [])
    else if c = Quote.literal.mark then (.oneQuote .literal, [])
    else (.word [c], [])

/-- Whether a character ends an unquoted word. -/
def endsWord (c : Char) : Bool := (punctuation? c).isSome || isBlank c || c == '#'

def inText (inBlock : Bool) (back : List Char) : Mode :=
  if inBlock then .block .basic back else .line .basic back

/-- The next character of a text in one line. -/
def stepLine (q : Quote) (back : List Char) (c : Char) : Option (Mode × List Token) :=
  if c = q.mark then some (.gap, [.quoted back.reverse])
  else if q = .basic ∧ c = '\\' then some (.escape false back, [])
  else if isPlain c then some (.line q (c :: back), [])
  else none

/-- The next character of a text between triple quotes. -/
def stepBlock (q : Quote) (back : List Char) (c : Char) : Option (Mode × List Token) :=
  if c = q.mark then some (.blockEnd q back 2, [])
  else if q = .basic ∧ c = '\\' then some (.escape true back, [])
  else if isPlain c then some (.block q (c :: back), [])
  else none

/-- The character after a backslash. In a block, a backslash before a line break leads over all
white space to the next visible character. -/
def stepEscape (inBlock : Bool) (back : List Char) (c : Char) : Option (Mode × List Token) :=
  let plain (value : Char) := some (inText inBlock (value :: back), [])
  match c with
  | 'b' => plain '\x08'
  | 't' => plain '\t'
  | 'n' => plain '\n'
  | 'f' => plain '\x0c'
  | 'r' => plain '\r'
  | 'e' => plain '\x1b'
  | '"' => plain '"'
  | '\\' => plain '\\'
  | 'x' => some (.code inBlock back 2 0, [])
  | 'u' => some (.code inBlock back 4 0, [])
  | 'U' => some (.code inBlock back 8 0, [])
  | '\n' => if inBlock then some (.fold true back, []) else none
  | _ => if inBlock && isBlank c then some (.fold false back, []) else none

/-- The next hexadecimal digit of a character's number. -/
def stepCode (inBlock : Bool) (back : List Char) (missing value : Nat) (c : Char) :
    Option (Mode × List Token) :=
  match Text.Decimal.digit? 16 c with
  | none => none
  | some d =>
    let value := value * 16 + d
    if 1 < missing then some (.code inBlock back (missing - 1) value, [])
    else if value.isValidChar then some (inText inBlock (Char.ofNat value :: back), [])
    else none

/-- Reads one character. -/
def step (mode : Mode) (c : Char) : Option (Mode × List Token) :=
  match mode with
  | .gap => some (start c)
  | .comment =>
    if c = '\n' then some (.gap, [.lineEnd])
    else if isPlain c then some (.comment, [])
    else none
  | .word back =>
    if endsWord c then
      let next := start c
      some (next.1, .word back.reverse :: next.2)
    else some (.word (c :: back), [])
  | .oneQuote q => if c = q.mark then some (.twoQuotes q, []) else stepLine q [] c
  | .twoQuotes q => if c = q.mark then some (.blockStart q, []) else none
  | .blockStart q => if c = '\n' then some (.block q [], []) else stepBlock q [] c
  | .line q back => stepLine q back c
  | .block q back => stepBlock q back c
  | .blockEnd q back missing =>
    if c ≠ q.mark then none
    else if 1 < missing then some (.blockEnd q back (missing - 1), [])
    else some (.gap, [.quotedBlock back.reverse])
  | .escape inBlock back => stepEscape inBlock back c
  | .code inBlock back missing value => stepCode inBlock back missing value c
  | .fold broken back =>
    if c = '\n' then some (.fold true back, [])
    else if isBlank c then some (.fold broken back, [])
    else if broken then stepBlock .basic back c
    else none

/-- The tokens still owed at the end of the document, unless it ends within a text. -/
def finish : Mode → Option (List Token)
  | .gap | .comment => some []
  | .word back => some [.word back.reverse]
  | _ => none

/-- The tokens of a document from some point on. -/
def scan (mode : Mode) : List Char → Option (List Token)
  | [] => finish mode
  | c :: rest =>
    match step mode c with
    | none => none
    | some (next, tokens) => (scan next rest).map (tokens ++ ·)

/-- The tokens of a document. -/
def ofDocument? (document : List Char) : Option (List Token) :=
  (lineEnds? document).bind (scan .gap)

end Token

end CountedHeap.Settings
