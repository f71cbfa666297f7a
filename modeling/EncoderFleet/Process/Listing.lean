import EncoderFleet.Process.Entry
import EncoderFleet.Text.Blank

/-!
# Process listings

A listing has a process on each line: its pid, a separator, and the arguments that it was started with. A line of any
other form says nothing, and never disturbs its neighbours.
-/

namespace EncoderFleet.Listing

/-- The lines of a text; a line ends in a line feed, or in a carriage return and a line feed. -/
def lines : List Char → List (List Char)
  | [] => []
  | '\n' :: cs => [] :: lines cs
  | c :: cs =>
    match lines cs with
    | [] => [[c]]
    | l :: ls => if cs.head? == some '\n' then (if c == '\r' then [] else [c]) :: ls else (c :: l) :: ls

/-- The number that decimal digits write, if it is below `bound`; one plus sign may stand in front. -/
def decimal? (bound : Nat) (cs : List Char) : Option Nat :=
  let digits := match cs with
    | '+' :: rest => rest
    | cs => cs
  if digits ≠ [] ∧ digits.all Char.isDigit then
    let n := digits.foldl (fun n d => 10 * n + (d.toNat - '0'.toNat)) 0
    if n < bound then some n else none
  else none

/-- The process on one line. -/
def ofLine? (separator : Char) (line : List Char) : Option Entry :=
  let line := Text.trim line
  let pid := line.takeWhile (· != separator)
  match line.dropWhile (· != separator) with
  | [] => none
  | _ :: rest =>
    match decimal? UInt32.size (Text.trim pid), Text.Arguments.ofChars (Text.trim rest) with
    | none, _ => none
    | _, [] => none
    | some n, args => some (.new (UInt32.ofNat n) (args.map String.ofList))

/-- The processes of a listing. -/
def entries (separator : Char) (text : String) : List Entry := (lines text.toList).filterMap (ofLine? separator)

end EncoderFleet.Listing
