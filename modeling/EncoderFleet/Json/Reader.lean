import EncoderFleet.Json.Value

/-!
# Reading JSON

The reader is an automaton with a stack: `State.step` takes one character, the containers that are still open lie in a
list of frames, and `Json.parse?` runs it over the whole text. A text is therefore read in one pass, and what is read of
`s ++ t` is what the state after `s` makes of `t`.

The grammar is that of RFC 8259 with nothing added: no comments, no trailing commas, no leading zeros, no byte order
mark, and nothing but blanks around the value.
-/

namespace EncoderFleet.Json

/-! ## Numbers -/

/-- How far a number has been read. -/
inductive NumberPart
  | sign
  | zero
  | whole
  | point
  | fraction
  | exponent
  | exponentSign
  | power
deriving DecidableEq

/-- A number in the course of being read; `tail` holds fraction and exponent, last character first. -/
structure NumberScan where
  part : NumberPart
  negative : Bool := false
  whole : Nat := 0
  tail : List Char := []

namespace NumberScan

/-- A number may end here. -/
def complete (n : NumberScan) : Bool :=
  match n.part with
  | .zero | .whole | .fraction | .power => true
  | _ => false

/-- The number read so far. -/
def numeral (n : NumberScan) : Numeral := ⟨n.negative, n.whole, n.tail.reverse⟩

private def keep (n : NumberScan) (part : NumberPart) (c : Char) : NumberScan :=
  { n with part := part, tail := c :: n.tail }

/-- The value of a decimal digit. -/
def digit (c : Char) : Nat := c.toNat - '0'.toNat

/-- Read one more character, if it belongs to the number. -/
def extend (n : NumberScan) (c : Char) : Option NumberScan :=
  match n.part with
  | .sign =>
    if c == '0' then some { n with part := .zero }
    else if c.isDigit then some { n with part := .whole, whole := digit c }
    else none
  | .zero =>
    if c == '.' then some (n.keep .point c)
    else if c == 'e' || c == 'E' then some (n.keep .exponent c)
    else none
  | .whole =>
    if c.isDigit then some { n with whole := n.whole * 10 + digit c }
    else if c == '.' then some (n.keep .point c)
    else if c == 'e' || c == 'E' then some (n.keep .exponent c)
    else none
  | .point => if c.isDigit then some (n.keep .fraction c) else none
  | .fraction =>
    if c.isDigit then some (n.keep .fraction c)
    else if c == 'e' || c == 'E' then some (n.keep .exponent c)
    else none
  | .exponent =>
    if c == '+' || c == '-' then some (n.keep .exponentSign c)
    else if c.isDigit then some (n.keep .power c)
    else none
  | .exponentSign => if c.isDigit then some (n.keep .power c) else none
  | .power => if c.isDigit then some (n.keep .power c) else none

end NumberScan

/-! ## Strings -/

/-- How an escape in a string has been read. -/
inductive EscapeScan
  | none
  | begun
  | hex (left : Nat) (unit : Nat)

/-- A string in the course of being read, last character first. `high` is the first half of a surrogate pair whose
second half must follow at once, and `broken` records that some half stood alone. -/
structure TextScan where
  chars : List Char := []
  high : Option Nat := none
  broken : Bool := false
  escape : EscapeScan := .none

namespace TextScan

/-- The string read so far; none if it names no text. -/
def value (t : TextScan) : Option String :=
  if t.broken || t.high.isSome then none else some (String.ofList t.chars.reverse)

/-- A character that stands for itself, or for which a short escape stands. -/
def push (t : TextScan) (c : Char) : TextScan :=
  { chars := c :: t.chars, high := none, broken := t.broken || t.high.isSome }

/-- A UTF-16 unit written as an escape. -/
def pushUnit (t : TextScan) (u : Nat) : TextScan :=
  if 0xD800 ≤ u ∧ u < 0xDC00 then
    { chars := t.chars, high := some u, broken := t.broken || t.high.isSome }
  else if 0xDC00 ≤ u ∧ u < 0xE000 then
    match t.high with
    | some h => { chars := Char.ofNat (0x10000 + (h - 0xD800) * 0x400 + (u - 0xDC00)) :: t.chars, broken := t.broken }
    | none => { chars := t.chars, broken := true }
  else t.push (Char.ofNat u)

/-- The value of a hexadecimal digit. -/
def hexDigit? (c : Char) : Option Nat :=
  if c.isDigit then some (c.toNat - '0'.toNat)
  else if 'a' ≤ c ∧ c ≤ 'f' then some (c.toNat - 'a'.toNat + 10)
  else if 'A' ≤ c ∧ c ≤ 'F' then some (c.toNat - 'A'.toNat + 10)
  else none

/-- The character that a short escape stands for. -/
def shortEscape? : Char → Option Char
  | '"' => some '"'
  | '\\' => some '\\'
  | '/' => some '/'
  | 'b' => some '\x08'
  | 'f' => some '\x0c'
  | 'n' => some '\n'
  | 'r' => some '\r'
  | 't' => some '\t'
  | _ => none

/-- What a string does with one more character: it goes on, or the closing quote has been read. -/
inductive Next
  | more (t : TextScan)
  | closed (s : Option String)

/-- Read one more character of a string. -/
def extend (t : TextScan) (c : Char) : Option Next :=
  match t.escape with
  | .none =>
    if c == '"' then some (.closed t.value)
    else if c == '\\' then some (.more { t with escape := .begun })
    else if c.toNat < 0x20 then none
    else some (.more (t.push c))
  | .begun =>
    if c == 'u' then some (.more { t with escape := .hex 4 0 })
    else (shortEscape? c).map fun d => .more (t.push d)
  | .hex left unit => do
    let d ← hexDigit? c
    let unit := unit * 16 + d
    if left ≤ 1 then some (.more (t.pushUnit unit)) else some (.more { t with escape := .hex (left - 1) unit })

end TextScan

/-! ## Values -/

/-- A container that is still open, with its members so far, last first. -/
inductive Frame
  | array (items : List Json)
  | object (fields : List (Option String × Json))
  | member (fields : List (Option String × Json)) (name : Option String)

/-- What must come next. -/
inductive Focus
  /-- A value. -/
  | value
  /-- A value, or the end of an array that has no items. -/
  | item
  /-- A field name; the end of the object too, if `first`. -/
  | name (first : Bool)
  | colon
  /-- A separator, or the end of the innermost container. -/
  | after
  /-- The rest of a literal name. -/
  | word (rest : List Char) (v : Json)
  | text (isName : Bool) (t : TextScan)
  | number (n : NumberScan)
  /-- Nothing but blanks: the whole value has been read. -/
  | done (v : Json)

/-- A state of the reader. -/
structure State where
  frames : List Frame := []
  focus : Focus := .value

/-- The blanks that may stand between tokens. -/
def isSpace (c : Char) : Bool := c == ' ' || c == '\t' || c == '\n' || c == '\r'

namespace State

/-- Hand a complete value to the innermost open container. -/
def deliver (v : Json) : List Frame → Option State
  | [] => some ⟨[], .done v⟩
  | .array items :: k => some ⟨.array (v :: items) :: k, .after⟩
  | .member fields name :: k => some ⟨.object ((name, v) :: fields) :: k, .after⟩
  | .object _ :: _ => none

/-- Begin a value. -/
def beginValue (k : List Frame) (c : Char) : Option State :=
  match c with
  | '[' => some ⟨.array [] :: k, .item⟩
  | '\x7b' => some ⟨.object [] :: k, .name true⟩
  | '"' => some ⟨k, .text false {}⟩
  | 't' => some ⟨k, .word ['r', 'u', 'e'] (.bool true)⟩
  | 'f' => some ⟨k, .word ['a', 'l', 's', 'e'] (.bool false)⟩
  | 'n' => some ⟨k, .word ['u', 'l', 'l'] .null⟩
  | '-' => some ⟨k, .number { part := .sign, negative := true }⟩
  | _ => (NumberScan.extend { part := .sign } c).map fun n => ⟨k, .number n⟩

/-- Read a character after a complete value. -/
def afterValue (s : State) (c : Char) : Option State :=
  if isSpace c then some s
  else
    match s.focus, s.frames, c with
    | .after, .array items :: k, ',' => some ⟨.array items :: k, .value⟩
    | .after, .array items :: k, ']' => deliver (.array items.reverse) k
    | .after, .object fields :: k, ',' => some ⟨.object fields :: k, .name false⟩
    | .after, .object fields :: k, '\x7d' => deliver (.object fields.reverse) k
    | _, _, _ => none

/-- Read one character. -/
def step (s : State) (c : Char) : Option State :=
  match s.focus with
  | .value => if isSpace c then some s else beginValue s.frames c
  | .item =>
    if isSpace c then some s
    else
      match c, s.frames with
      | ']', .array [] :: k => deliver (.array []) k
      | _, k => beginValue k c
  | .name first =>
    if isSpace c then some s
    else
      match c, s.frames with
      | '"', k => some ⟨k, .text true {}⟩
      | '\x7d', .object [] :: k => if first then deliver (.object []) k else none
      | _, _ => none
  | .colon => if isSpace c then some s else if c == ':' then some { s with focus := .value } else none
  | .after | .done _ => afterValue s c
  | .word rest v =>
    match rest with
    | [] => none
    | [d] => if c == d then deliver v s.frames else none
    | d :: rest => if c == d then some { s with focus := .word rest v } else none
  | .text isName t =>
    match t.extend c with
    | none => none
    | some (.more t) => some { s with focus := .text isName t }
    | some (.closed v) =>
      if isName then
        match s.frames with
        | .object fields :: k => some ⟨.member fields v :: k, .colon⟩
        | _ => none
      else deliver (.string v) s.frames
  | .number n =>
    match n.extend c with
    | some n => some { s with focus := .number n }
    | none => if n.complete then (deliver (.number n.numeral) s.frames).bind fun s => afterValue s c else none

/-- The value, if the text may end here. -/
def finish (s : State) : Option Json :=
  match s.focus, s.frames with
  | .done v, _ => some v
  | .number n, [] => if n.complete then some (.number n.numeral) else none
  | _, _ => none

/-- Read on. -/
def run : State → List Char → Option State
  | s, [] => some s
  | s, c :: cs => (s.step c).bind fun s => run s cs

theorem run_append (s : State) (cs ds : List Char) : s.run (cs ++ ds) = (s.run cs).bind fun s => s.run ds := by
  induction cs generalizing s with
  | nil => rfl
  | cons c cs ih =>
    simp only [List.cons_append, run]
    cases s.step c with
    | none => rfl
    | some s => exact ih s

end State

/-- The value that a text writes, if it writes one. -/
def parse? (text : List Char) : Option Json := (State.run {} text).bind State.finish

end EncoderFleet.Json
