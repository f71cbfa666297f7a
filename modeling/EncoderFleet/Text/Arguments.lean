import EncoderFleet.Text.Blank

/-!
# Argument lines

An argument line is cut into arguments at runs of blanks. A part between two equal quotes, single or double, is taken
as it stands, blanks and the other quote included, and joins whatever stands right beside it; so `a"b c"` is one
argument and `""` is the empty one. A quote left open is closed by the end of the line.
-/

namespace EncoderFleet.Text.Arguments

/-- Where a scan of an argument line stands; the argument read so far is kept last character first. -/
inductive Scan
  /-- Between two arguments. -/
  | between
  /-- Inside an argument, outside quotes. -/
  | bare (word : List Char)
  /-- Inside an argument, after an opening `quote`. -/
  | quoted (quote : Char) (word : List Char)

/-- The two characters that quote. -/
def isQuote (c : Char) : Bool := c == '"' || c == '\''

/-- The arguments still to come, for a scan that stands at `s` before the characters `cs`. -/
def scan : Scan → List Char → List (List Char)
  | .between, [] => []
  | .bare word, [] => [word.reverse]
  | .quoted _ word, [] => [word.reverse]
  | .between, c :: cs =>
    if isQuote c then scan (.quoted c []) cs
    else if isBlank c then scan .between cs
    else scan (.bare [c]) cs
  | .bare word, c :: cs =>
    if isQuote c then scan (.quoted c word) cs
    else if isBlank c then word.reverse :: scan .between cs
    else scan (.bare (c :: word)) cs
  | .quoted quote word, c :: cs =>
    if c == quote then scan (.bare word) cs else scan (.quoted quote (c :: word)) cs

/-- The arguments of a line given as characters. -/
def ofChars (cs : List Char) : List (List Char) := scan .between cs

/-- The arguments of a line. -/
def split (line : String) : List String := (ofChars line.toList).map String.ofList

end EncoderFleet.Text.Arguments
