import EncoderFleet.Json.Record

/-!
# Output transports

Several transports can be switched on at once, but an encoder writes one. `OutputFlags.mode` reads the flags as a list
of priorities: FLV, then the source's own motion JPEG, then re-encoded motion JPEG, and HLS if none of them is on.
-/

namespace EncoderFleet

/-- The transport that an encoder writes. -/
inductive OutputMode
  | hls
  | mjpeg
  | mjpegPassthrough
  | flv
deriving DecidableEq

namespace OutputMode

/-- All modes. -/
def all : List OutputMode := [hls, mjpeg, mjpegPassthrough, flv]

/-- The name of a mode. -/
def name : OutputMode → String
  | hls => "hls"
  | mjpeg => "mjpeg"
  | mjpegPassthrough => "mjpeg-passthrough"
  | flv => "flv"

/-- Whether the encoder's output comes back through a pipe and is published to a hub. -/
def piped : OutputMode → Bool
  | hls => false
  | _ => true

def toJson (m : OutputMode) : Json := .text m.name

def ofJson? (j : Json) : Option OutputMode := j.choice?.bind fun n => all.find? fun m => m.name == n

end OutputMode

/-- Which transports are on, and how motion JPEG is re-encoded. An empty size keeps that of the source. -/
structure OutputFlags where
  hls : Bool := true
  mjpeg : Bool := false
  flv : Bool := false
  mjpegPassthrough : Bool := false
  mjpegFps : UInt32 := 15
  mjpegSize : String := ""
deriving DecidableEq

namespace OutputFlags

/-- The one transport that the flags select. -/
def mode (f : OutputFlags) : OutputMode :=
  if f.flv then .flv else if f.mjpegPassthrough then .mjpegPassthrough else if f.mjpeg then .mjpeg else .hls

/-- The names of the flags in order. -/
def names : List String := ["hls", "mjpeg", "flv", "mjpeg_passthrough", "mjpeg_fps", "mjpeg_size"]

/-- The flags as fields. -/
def fields (f : OutputFlags) : List (String × Json) :=
  names.zip
    [ .bool f.hls, .bool f.mjpeg, .bool f.flv, .bool f.mjpegPassthrough, .nat f.mjpegFps.toNat, .text f.mjpegSize ]

def toJson (f : OutputFlags) : Json := .record f.fields

/-- A number of 32 bits. -/
def word? (j : Json) : Option UInt32 := (j.natBelow? UInt32.size).map UInt32.ofNat

def ofJson? (j : Json) : Option OutputFlags := do
  match ← j.slots names 6 with
  | [hls, mjpeg, flv, passthrough, fps, size] =>
    some {
      hls := ← Json.required Json.bool? hls
      mjpeg := ← Json.required Json.bool? mjpeg
      flv := ← Json.required Json.bool? flv
      mjpegPassthrough := ← Json.required Json.bool? passthrough
      mjpegFps := ← Json.required word? fps
      mjpegSize := ← Json.required Json.text? size }
  | _ => none

/-- The default flags with the fields of an object put in their place. -/
def override? (j : Json) : Option OutputFlags :=
  ofJson? (.record ((fields {}).map fun f => (f.1, (j.field? f.1).getD f.2)))

end OutputFlags

end EncoderFleet
