import EncoderFleet.Json.Record
import EncoderFleet.Text.Identity

/-!
# Capture sources

A `Source` says how the encoder reaches a camera, a stream or a file. `Sources` is the list of those configured: at most
one of each identity, in the order in which they were first configured.
-/

namespace EncoderFleet

/-- How the encoder reaches a source. -/
inductive SourceKind
  /-- A capture device of this host. -/
  | device
  /-- An RTSP camera. -/
  | rtsp
  /-- Any other address that the encoder can open. -/
  | url
  /-- A media file, read at its own rate. -/
  | file
deriving DecidableEq

namespace SourceKind

/-- All kinds. -/
def all : List SourceKind := [device, rtsp, url, file]

/-- The name of a kind. -/
def name : SourceKind → String
  | device => "device"
  | rtsp => "rtsp"
  | url => "url"
  | file => "file"

def toJson (k : SourceKind) : Json := .text k.name

def ofJson? (j : Json) : Option SourceKind := j.choice?.bind fun n => all.find? fun k => k.name == n

end SourceKind

/-- A configured source. An `inputOverride` stands in place of the arguments that would be generated. -/
structure Source where
  id : String
  kind : SourceKind
  locator : String
  name : String := ""
  enabled : Bool := true
  inputOverride : Option String := none
deriving DecidableEq

namespace Source

/-- A source that is named by its id. -/
def new (id : String) (kind : SourceKind) (locator : String) : Source := { id, kind, locator, name := id }

/-- Whether the source has this id. -/
def hasId (s : Source) (id : String) : Bool := Text.same s.id id

/-- The names of the fields in order. -/
def names : List String := ["id", "kind", "locator", "name", "enabled", "input_override"]

def toJson (s : Source) : Json :=
  .record (names.zip
    [.text s.id, s.kind.toJson, .text s.locator, .text s.name, .bool s.enabled, .option .text s.inputOverride])

def ofJson? (j : Json) : Option Source := do
  match ← j.slots names 3 with
  | [id, kind, locator, name, enabled, inputOverride] =>
    some {
      id := ← Json.required Json.text? id
      kind := ← Json.required SourceKind.ofJson? kind
      locator := ← Json.required Json.text? locator
      name := ← Json.withDefault "" Json.text? name
      enabled := ← Json.withDefault true Json.bool? enabled
      inputOverride := ← Json.nullable Json.text? inputOverride }
  | _ => none

end Source

/-- The configured sources, in order. -/
structure Sources where
  toList : List Source := []

namespace Sources

/-- The source with an id. -/
def get? (ss : Sources) (id : String) : Option Source := ss.toList.find? fun s => s.hasId id

/-- The sources that are switched on. -/
def enabled (ss : Sources) : List Source := ss.toList.filter Source.enabled

/-- Add a source to the end, unless its id is taken. -/
def addNew (ss : Sources) (s : Source) : Sources :=
  if ss.toList.any fun t => t.hasId s.id then ss else ⟨ss.toList ++ [s]⟩

/-- The sources of a list; of those with one id, the first. -/
def ofList (ss : List Source) : Sources := ss.foldl addNew {}

/-- Put a source in the place of the first one that satisfies `p`. -/
def replaceFirst (p : Source → Bool) (s : Source) : List Source → List Source
  | [] => []
  | t :: ts => if p t then s :: ts else t :: replaceFirst p s ts

/-- Put a source in the place of the one with its id, or at the end; says whether one was replaced. -/
def upsert (ss : Sources) (s : Source) : Sources × Bool :=
  if ss.toList.any fun t => t.hasId s.id then (⟨replaceFirst (fun t => t.hasId s.id) s ss.toList⟩, true)
  else (⟨ss.toList ++ [s]⟩, false)

end Sources

end EncoderFleet
