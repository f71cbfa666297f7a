import EncoderFleet.Data.Bytes

/-!
# FLV tags

An FLV stream is a header and then tags, each of which carries a piece of sound, a picture, or data for a player's
script. The first byte of a picture says how it can be decoded and in which codec it is written; two codecs use the next
byte for the kind of packet, and a packet of kind zero configures the decoder instead of showing anything.
-/

namespace EncoderFleet.Flv

/-- What a tag carries. -/
inductive TagKind
  | audio
  | video
  | script
deriving DecidableEq

namespace TagKind

/-- The name of a kind. -/
def name : TagKind → String
  | audio => "audio"
  | video => "video"
  | script => "script"

/-- The kind that the low five bits of a type byte say; the other bits have no say in it. -/
def ofByte? (b : UInt8) : Option TagKind :=
  let code := b &&& 0x1F
  if code = 8 then some audio else if code = 9 then some video else if code = 18 then some script else none

end TagKind

/-- The leading bytes of a picture. -/
structure VideoHeader where
  frameType : UInt8
  codec : UInt8
  /-- The kind of packet, in the codecs that have one. -/
  packet : Option UInt8
deriving DecidableEq

namespace VideoHeader

/-- The codec AVC. -/
def avc : UInt8 := 7

/-- The codec HEVC. -/
def hevc : UInt8 := 12

/-- The header of a picture; an empty picture has none. -/
def ofBody? : Bytes → Option VideoHeader
  | [] => none
  | b :: rest =>
    let codec := b &&& 0x0F
    some
      { frameType := (b >>> 4) &&& 0x07
        codec := codec
        packet := if codec = avc ∨ codec = hevc then rest.head? else none }

/-- Whether the picture can be decoded without an earlier one. -/
def isKeyframe (h : VideoHeader) : Bool := h.frameType == 1 || h.frameType == 4

/-- Whether the packet configures the decoder. -/
def isConfiguration (h : VideoHeader) : Bool := h.packet == some 0

end VideoHeader

/-- What a tag says, its frame in the stream aside; the time is in milliseconds. -/
structure Tag where
  kind : TagKind
  timestamp : UInt32
  body : Bytes
deriving DecidableEq

namespace Tag

/-- The header of the picture that the tag carries. -/
def video? (t : Tag) : Option VideoHeader := if t.kind = .video then VideoHeader.ofBody? t.body else none

/-- Whether the tag carries a picture that can be decoded without an earlier one. -/
def isKeyframe (t : Tag) : Bool := t.video?.any VideoHeader.isKeyframe

/-- Whether the tag configures a video decoder. -/
def isConfiguration (t : Tag) : Bool := t.video?.any VideoHeader.isConfiguration

end Tag

end EncoderFleet.Flv
