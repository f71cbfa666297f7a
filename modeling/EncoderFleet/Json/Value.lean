/-!
# JSON values

A value as RFC 8259 describes it. A number keeps its fraction and exponent as written, because only whole numbers are
ever computed with. A string literal may escape half of a surrogate pair, and then names no text at all; such a string
is a value like any other (`none`), it is only refused where a text is needed.
-/

namespace EncoderFleet

/-- A JSON number: its sign, its whole part, and fraction and exponent as written. -/
structure Numeral where
  negative : Bool := false
  whole : Nat
  tail : List Char := []
deriving DecidableEq

/-- A JSON value; fields keep their order, and a string that names no text is `none`. -/
inductive Json
  | null
  | bool (b : Bool)
  | number (n : Numeral)
  | string (s : Option String)
  | array (items : List Json)
  | object (fields : List (Option String × Json))

namespace Json

instance : Inhabited Json := ⟨.null⟩

/-- A text as a value. -/
def text (s : String) : Json := .string (some s)

/-- A natural number as a value. -/
def nat (n : Nat) : Json := .number { whole := n }

/-- An integer as a value. -/
def int (i : Int) : Json := .number { negative := decide (i < 0), whole := i.natAbs }

/-- A value that may be missing; `null` when it is. -/
def option (f : α → Json) : Option α → Json
  | none => .null
  | some a => f a

/-- An object from names and values. -/
def record (fields : List (String × Json)) : Json := .object (fields.map fun f => (some f.1, f.2))

/-- An array of texts. -/
def texts (ss : List String) : Json := .array (ss.map text)

/-- The text that a string value names. -/
def text? : Json → Option String
  | .string s => s
  | _ => none

/-- The truth value. -/
def bool? : Json → Option Bool
  | .bool b => some b
  | _ => none

/-- A whole number without sign, fraction or exponent, below `bound`. -/
def natBelow? (bound : Nat) : Json → Option Nat
  | .number ⟨false, n, []⟩ => if n < bound then some n else none
  | _ => none

/-- A whole number, sign allowed. -/
def int? : Json → Option Int
  | .number ⟨neg, n, []⟩ => some (if neg then -n else n)
  | _ => none

/-- The items of an array. -/
def items? : Json → Option (List Json)
  | .array items => some items
  | _ => none

/-- The value of a field; of two fields with one name, the later. -/
def field? (name : String) : Json → Option Json
  | .object fields => fields.reverse.lookup (some name)
  | _ => none

/-- The value of a field that is there and not `null`. -/
def present? (name : String) (j : Json) : Option Json :=
  match j.field? name with
  | some .null => none
  | v => v

end Json

end EncoderFleet
