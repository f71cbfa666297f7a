import EncoderFleet.Flv.Tag

/-!
# Stream units

What viewers receive: pieces of an encoder's output, each with the bytes that it stood in. The kind of a unit says what
a viewer who joins late needs of it.
-/

namespace EncoderFleet

/-- What a unit is to a viewer. -/
inductive UnitKind
  /-- The header of the container. -/
  | header
  /-- The configuration of the video decoder. -/
  | config
  /-- Sound, pictures and all else. -/
  | frame
deriving DecidableEq

namespace UnitKind

/-- All kinds. -/
def all : List UnitKind := [header, config, frame]

/-- The name of a kind. -/
def name : UnitKind → String
  | header => "header"
  | config => "config"
  | frame => "frame"

end UnitKind

/-- A piece of a live stream; the time is in milliseconds. -/
structure StreamUnit where
  kind : UnitKind
  timestamp : UInt32
  data : Bytes
  /-- Whether a decoder can start from here. -/
  isKeyframe : Bool
deriving DecidableEq

namespace StreamUnit

def header (data : Bytes) : StreamUnit := ⟨.header, 0, data, false⟩

def config (timestamp : UInt32) (data : Bytes) : StreamUnit := ⟨.config, timestamp, data, false⟩

def frame (timestamp : UInt32) (data : Bytes) (isKeyframe : Bool) : StreamUnit := ⟨.frame, timestamp, data, isKeyframe⟩

/-- The unit that an FLV tag makes, with the bytes of the whole tag. -/
def ofTag (t : Flv.Tag) (wire : Bytes) : StreamUnit :=
  if t.isConfiguration then config t.timestamp wire else frame t.timestamp wire t.isKeyframe

end StreamUnit

end EncoderFleet
