import EncoderFleet.Json.Value

/-!
# Writing JSON

Two layouts of one text: `compact` without any blanks and `pretty` with one member a line, each level two spaces deeper.
Strings are escaped no more than the grammar asks: quote, backslash and the controls below U+0020.
-/

namespace EncoderFleet.Json

/-- A hexadecimal digit, small letters. -/
def hexChar (n : Nat) : Char := if n < 10 then Char.ofNat ('0'.toNat + n) else Char.ofNat ('a'.toNat + (n - 10))

/-- How a character of a text is written. -/
def escapeChar (c : Char) : List Char :=
  if c == '"' then ['\\', '"']
  else if c == '\\' then ['\\', '\\']
  else if c == '\x08' then ['\\', 'b']
  else if c == '\x0c' then ['\\', 'f']
  else if c == '\n' then ['\\', 'n']
  else if c == '\r' then ['\\', 'r']
  else if c == '\t' then ['\\', 't']
  else if c.toNat < 0x20 then ['\\', 'u', '0', '0', hexChar (c.toNat / 16), hexChar (c.toNat % 16)]
  else [c]

/-- A string literal; one that names no text is written as a lone half of a surrogate pair. -/
def quote : Option String → List Char
  | some s => '"' :: (s.toList.flatMap escapeChar ++ ['"'])
  | none => ['"', '\\', 'u', 'd', '8', '0', '0', '"']

/-- A number as it was written. -/
def Numeral.chars (n : Numeral) : List Char :=
  (if n.negative then ['-'] else []) ++ (Nat.toDigits 10 n.whole ++ n.tail)

/-- A value that is not a container. -/
def atom : Json → List Char
  | .null => ['n', 'u', 'l', 'l']
  | .bool true => ['t', 'r', 'u', 'e']
  | .bool false => ['f', 'a', 'l', 's', 'e']
  | .number n => Numeral.chars n
  | .string s => quote s
  | .array _ => []
  | .object _ => []

mutual

/-- The text without blanks. -/
def compact : Json → List Char
  | .array [] => ['[', ']']
  | .array (v :: vs) => '[' :: (compact v ++ compactItems vs)
  | .object [] => ['\x7b', '\x7d']
  | .object ((k, v) :: fs) => '\x7b' :: (quote k ++ ':' :: (compact v ++ compactFields fs))
  | v => atom v

/-- The items after the first, and the end of the array. -/
def compactItems : List Json → List Char
  | [] => [']']
  | v :: vs => ',' :: (compact v ++ compactItems vs)

/-- The fields after the first, and the end of the object. -/
def compactFields : List (Option String × Json) → List Char
  | [] => ['\x7d']
  | (k, v) :: fs => ',' :: (quote k ++ ':' :: (compact v ++ compactFields fs))

end

/-- A new line at a depth. -/
def newline (depth : Nat) : List Char := '\n' :: List.replicate (2 * depth) ' '

mutual

/-- The text with one member a line, for a value that stands at `depth`. -/
def pretty (depth : Nat) : Json → List Char
  | .array [] => ['[', ']']
  | .array (v :: vs) => '[' :: (newline (depth + 1) ++ (pretty (depth + 1) v ++ prettyItems depth vs))
  | .object [] => ['\x7b', '\x7d']
  | .object ((k, v) :: fs) =>
    '\x7b' :: (newline (depth + 1) ++ (quote k ++ ':' :: ' ' :: (pretty (depth + 1) v ++ prettyFields depth fs)))
  | v => atom v

/-- The items after the first of an array at `depth`, and its end. -/
def prettyItems (depth : Nat) : List Json → List Char
  | [] => newline depth ++ [']']
  | v :: vs => ',' :: (newline (depth + 1) ++ (pretty (depth + 1) v ++ prettyItems depth vs))

/-- The fields after the first of an object at `depth`, and its end. -/
def prettyFields (depth : Nat) : List (Option String × Json) → List Char
  | [] => newline depth ++ ['\x7d']
  | (k, v) :: fs =>
    ',' :: (newline (depth + 1) ++ (quote k ++ ':' :: ' ' :: (pretty (depth + 1) v ++ prettyFields depth fs)))

end

/-- The compact text. -/
def render (v : Json) : String := String.ofList v.compact

/-- The text with one member a line. -/
def renderPretty (v : Json) : String := String.ofList (v.pretty 0)

end EncoderFleet.Json
