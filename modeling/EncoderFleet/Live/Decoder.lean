import EncoderFleet.Flv.Demuxer
import EncoderFleet.Jpeg.Splitter
import EncoderFleet.Live.Unit
import EncoderFleet.Setup.Output

/-!
# From encoder output to stream units

A `Decoder` turns the bytes that an encoder writes into units. FLV has no place where reading could start again, so an
FLV stream that cannot be read yields nothing from then on; motion JPEG finds its way back at the next image.
-/

namespace EncoderFleet

/-- A decoder of piped output. -/
inductive Decoder
  /-- FLV; `failed` once the stream could not be read on. -/
  | flv (demuxer : Flv.Demuxer) (failed : Bool)
  /-- Motion JPEG, whose times count from when the decoder was made. -/
  | jpeg (splitter : Jpeg.Splitter) (since : Nat)

namespace Decoder

/-- The decoder for a mode, made at a time; output to files needs none. -/
def ofMode? (now : Nat) : OutputMode → Option Decoder
  | .flv => some (.flv {} false)
  | .mjpeg | .mjpegPassthrough => some (.jpeg {} now)
  | .hls => none

/-- The unit that an FLV element makes. -/
def unitOf : Flv.Event → StreamUnit
  | .header wire => .header wire
  | .tag t wire => .ofTag t wire

/-- Take in bytes that arrived at a time; the units that they complete, and the decoder after them. -/
def feed (now : Nat) (bs : Bytes) : Decoder → List StreamUnit × Decoder
  | .flv demuxer true => ([], .flv demuxer true)
  | .flv demuxer false =>
    let r := (demuxer.push bs).drain
    (r.1.map unitOf, .flv r.2.2 r.2.1.isSome)
  | .jpeg splitter since =>
    let r := (splitter.push bs).drain
    (r.1.map fun image => .frame (UInt32.ofNat (now - since)) image true, .jpeg r.2 since)

end Decoder

end EncoderFleet
