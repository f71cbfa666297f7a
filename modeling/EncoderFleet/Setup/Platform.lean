import EncoderFleet.Json.Record
import EncoderFleet.Text.Identity

/-!
# Platforms

The operating system that the encoders run on decides how capture devices are opened and what an encoder is called in
the process table.
-/

namespace EncoderFleet

/-- An operating system family. -/
inductive Platform
  | windows
  | linux
  | macos
  | other
deriving DecidableEq

namespace Platform

/-- All platforms. -/
def all : List Platform := [windows, linux, macos, other]

/-- The name of a platform. -/
def name : Platform → String
  | windows => "windows"
  | linux => "linux"
  | macos => "macos"
  | other => "other"

/-- The encoder's input format for local capture devices. -/
def deviceFormat : Platform → String
  | windows => "dshow"
  | macos => "avfoundation"
  | linux | other => "v4l2"

/-- The name that a program runs under: its last path component, on Windows always with an extension `.exe`. -/
def executableName (platform : Platform) (program : String) : String :=
  let base := Text.baseName program
  if platform = windows ∧ ¬ Text.endsWithFolded base.toList ".exe".toList then base ++ ".exe" else base

def toJson (p : Platform) : Json := .text p.name

def ofJson? (j : Json) : Option Platform := j.choice?.bind fun n => all.find? fun p => p.name == n

end Platform

end EncoderFleet
