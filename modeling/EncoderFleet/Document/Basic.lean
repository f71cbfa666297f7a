import EncoderFleet.Json.Printer
import EncoderFleet.Json.Reader
import EncoderFleet.Setup.Profile
import EncoderFleet.Setup.Source

/-!
# The configuration document

A `Document` is what outlives a run: the sources, the profiles and which profile is active. A `SaveOutcome` says how an
attempt to keep it ended. Both have a JSON form; every section of a document may be missing from it.
-/

namespace EncoderFleet

/-- The configuration as it is kept. -/
structure Document where
  sources : List Source := []
  profiles : List Profile := []
  activeProfile : String := Profile.auto
deriving DecidableEq

namespace Document

/-- The names of the sections in order. -/
def names : List String := ["sources", "profiles", "active_profile"]

def toJson (d : Document) : Json :=
  .record (names.zip
    [.array (d.sources.map Source.toJson), .array (d.profiles.map Profile.toJson), .text d.activeProfile])

def ofJson? (j : Json) : Option Document := do
  match ← j.slots names 0 with
  | [sources, profiles, activeProfile] =>
    some {
      sources := ← Json.withDefault [] (Json.listOf Source.ofJson?) sources
      profiles := ← Json.withDefault [] (Json.listOf Profile.ofJson?) profiles
      activeProfile := ← Json.withDefault Profile.auto Json.text? activeProfile }
  | _ => none

/-- The document that a text writes. -/
def parse (text : String) : Except Failure Document :=
  match (Json.parse? text.toList).bind ofJson? with
  | some d => .ok d
  | none => .error .malformed

/-- The text of a document, one field a line. -/
def render (d : Document) : String := d.toJson.renderPretty

end Document

/-- How an attempt to keep the configuration ended: whether it was kept, where, and why not. -/
structure SaveOutcome where
  ok : Bool
  path : Option String
  error : Option String
deriving DecidableEq

namespace SaveOutcome

/-- The configuration was kept. -/
def saved (path : Option String) : SaveOutcome := ⟨true, path, none⟩

/-- The configuration was not kept. -/
def failed (path : Option String) (f : Failure) : SaveOutcome := ⟨false, path, some f.message⟩

def toJson (s : SaveOutcome) : Json :=
  .record [("ok", .bool s.ok), ("path", .option .text s.path), ("error", .option .text s.error)]

def ofJson? (j : Json) : Option SaveOutcome := do
  match ← j.slots ["ok", "path", "error"] 3 with
  | [ok, path, error] =>
    some {
      ok := ← Json.required Json.bool? ok
      path := ← Json.nullable Json.text? path
      error := ← Json.nullable Json.text? error }
  | _ => none

end SaveOutcome

end EncoderFleet
