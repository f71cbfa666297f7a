import EncoderFleet.Json.Value

/-!
# Records in JSON

A record with named fields is written as an object. It may also be given as an array of its fields in order. Reading
`slots` of a record yields, for each of its names, the value given for it; unknown fields of an object are passed over,
a known field given twice is refused, and so are items beyond the last name.
-/

namespace EncoderFleet.Json

/-- The values given for one name. -/
def valuesOf (name : String) (fields : List (Option String × Json)) : List Json :=
  (fields.filter fun f => f.1 == some name).map Prod.snd

/-- The value given for a name, if it is given once; refuses a name given twice. -/
def slotOf (fields : List (Option String × Json)) (name : String) : Option (Option Json) :=
  match valuesOf name fields with
  | [] => some none
  | [v] => some (some v)
  | _ => none

/-- The values of a record's fields, in the order of their names. An array must give at least `least` of them. -/
def slots (names : List String) (least : Nat) : Json → Option (List (Option Json))
  | .object fields => if fields.all fun f => f.1.isSome then names.mapM (slotOf fields) else none
  | .array items =>
    if least ≤ items.length ∧ items.length ≤ names.length then
      some (items.map some ++ List.replicate (names.length - items.length) none)
    else none
  | _ => none

/-- A field that must be given. -/
def required (read : Json → Option α) (slot : Option Json) : Option α := slot.bind read

/-- A field with a default. -/
def withDefault (d : α) (read : Json → Option α) : Option Json → Option α
  | none => some d
  | some v => read v

/-- A field that may be `null` or missing. -/
def nullable (read : Json → Option α) : Option Json → Option (Option α)
  | none => some none
  | some .null => some none
  | some v => (read v).map some

/-- A list of values of one kind. -/
def listOf (read : Json → Option α) (j : Json) : Option (List α) := j.items?.bind fun items => items.mapM read

/-- The name of a choice without data: a string, or an object with that one name and `null`. -/
def choice? : Json → Option String
  | .string s => s
  | .object [(name, .null)] => name
  | _ => none

end EncoderFleet.Json
