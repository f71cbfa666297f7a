import EncoderFleet.Failure
import EncoderFleet.Setup.Platform

/-!
# Encoding profiles

A profile is a named line of encoder arguments. A `Catalog` always holds the built-in profiles, so that some profile is
usable whatever the configuration says. One profile is active: chosen by name, or by the selection `auto`, which picks
one for the platform.
-/

namespace EncoderFleet

/-- A named line of encoder arguments. -/
structure Profile where
  name : String
  args : String
  note : String := ""
deriving DecidableEq

namespace Profile

/-- The selection that asks for a profile that suits the platform. -/
def auto : String := "auto"

/-- The profile that suits every platform. -/
def lowLatency : String := "low-latency"

/-- The arguments used when no profile has the active name. -/
def fallbackArgs : String := "-c:v libx264 -preset ultrafast -tune zerolatency"

/-- Whether the profile has this name. -/
def isNamed (p : Profile) (name : String) : Bool := Text.same p.name name

/-- The profiles that every catalog holds. -/
def builtins : List Profile :=
  [ { name := lowLatency
      args := "-c:v libx264 -preset ultrafast -tune zerolatency -g 30 -bf 0 -pix_fmt yuv420p"
      note := "Software H.264, lowest latency" },
    { name := "quality"
      args := "-c:v libx264 -preset veryfast -crf 23 -g 60 -pix_fmt yuv420p"
      note := "Software H.264, better quality at higher latency" },
    { name := "windows-nvenc"
      args := "-c:v h264_nvenc -preset p1 -tune ll -zerolatency 1 -g 30 -bf 0"
      note := "NVIDIA hardware encoder" },
    { name := "windows-qsv"
      args := "-c:v h264_qsv -preset veryfast -look_ahead 0 -g 30 -bf 0"
      note := "Intel Quick Sync encoder" },
    { name := "linux-x264"
      args := "-c:v libx264 -preset ultrafast -tune zerolatency -g 30 -bf 0 -threads 2 -pix_fmt yuv420p"
      note := "Software H.264 limited to two threads" },
    { name := "macos-videotoolbox"
      args := "-c:v h264_videotoolbox -realtime 1 -g 30 -bf 0"
      note := "Apple VideoToolbox encoder" } ]

/-- The profiles made for a platform, the best first. -/
def preferred : Platform → List String
  | .windows => ["windows-nvenc", "windows-qsv"]
  | .linux => ["linux-x264"]
  | .macos => ["macos-videotoolbox"]
  | .other => []

/-- The first profile with a name. -/
def find? (profiles : List Profile) (name : String) : Option Profile := profiles.find? fun p => p.isNamed name

/-- The profile for a platform: the best of those made for it, else the low-latency one, else the first. -/
def resolveAuto (profiles : List Profile) (platform : Platform) : Option String :=
  (((preferred platform ++ [lowLatency]).findSome? (find? profiles)).or profiles.head?).map Profile.name

/-- Put a profile in the place of the first one with its name, or at the end. -/
def plant (profiles : List Profile) (b : Profile) : List Profile :=
  match profiles with
  | [] => [b]
  | p :: ps => if p.isNamed b.name then b :: ps else p :: plant ps b

/-- The profiles with every built-in one planted. -/
def seed (profiles : List Profile) : List Profile := builtins.foldl plant profiles

/-- The names of the fields in order. -/
def names : List String := ["name", "args", "note"]

def toJson (p : Profile) : Json := .record (names.zip [.text p.name, .text p.args, .text p.note])

def ofJson? (j : Json) : Option Profile := do
  match ← j.slots names 2 with
  | [name, args, note] =>
    some {
      name := ← Json.required Json.text? name
      args := ← Json.required Json.text? args
      note := ← Json.withDefault "" Json.text? note }
  | _ => none

end Profile

/-- The profiles of a host and which of them is active. The `selection` is `auto` or the name that was chosen. -/
structure Catalog where
  platform : Platform
  profiles : List Profile
  selection : String
  active : Option String

namespace Catalog

/-- The catalog of some profiles with the selection left to the platform. -/
def automatic (platform : Platform) (profiles : List Profile) : Catalog where
  platform := platform
  profiles := profiles
  selection := Profile.auto
  active := Profile.resolveAuto profiles platform

/-- The name of the profile that a name asks for. Where there are no profiles at all, any name is taken as it is. -/
def chosen? (c : Catalog) (name : String) : Option String :=
  if c.profiles.isEmpty then some name else (Profile.find? c.profiles name).map Profile.name

/-- Make a profile the active one; answers its name. -/
def activate (c : Catalog) (name : String) : Except Failure (Catalog × String) :=
  if Text.same name Profile.auto then
    let c := automatic c.platform c.profiles
    .ok (c, c.active.getD "")
  else
    match c.chosen? name with
    | some chosen => .ok ({ c with selection := chosen, active := some chosen }, chosen)
    | none => .error (.notFound .profiles name)

/-- The catalog of configured profiles. An unknown active name leaves the selection to the platform. -/
def new (platform : Platform) (profiles : List Profile) (active : String) : Catalog :=
  let c := automatic platform (Profile.seed profiles)
  match c.activate active with
  | .ok (c, _) => c
  | .error _ => c

/-- The catalog of the built-in profiles. -/
def ofBuiltins (platform : Platform) : Catalog := new platform [] Profile.auto

/-- Replace all profiles. If the active one is gone, the selection is left to the platform. -/
def replaceAll (c : Catalog) (profiles : List Profile) : Catalog :=
  let profiles := Profile.seed profiles
  if (c.active.bind (Profile.find? profiles)).isSome then { c with profiles := profiles }
  else automatic c.platform profiles

/-- The profile with a name. -/
def get? (c : Catalog) (name : String) : Option Profile := Profile.find? c.profiles name

/-- The arguments of the active profile. -/
def activeArgs (c : Catalog) : String :=
  ((c.active.bind c.get?).map Profile.args).getD Profile.fallbackArgs

end Catalog

end EncoderFleet
