import EncoderFleet.Data.Bytes

/-!
# JPEG images in a stream

An image opens with the marker `FF D8`. Then come items, each opened by a marker, which is a run of `FF` and one more
byte, and the image ends with the marker `FF D9`:

    marker 01 or D0 to D7             stands alone
    marker DA                         a segment of stated length, then coded data
    any other marker but D8 and D9    a segment of stated length

The length of a segment counts its own two bytes, so one below two is nonsense. Coded data ends at the first marker
other than `FF 00` and `FF D0` to `FF D7`. Embedded pictures sit inside segments, so an image is never cut at their end.

A `Place` says where in an image a reader stands. Reading is a run of `Place.step` over the bytes, so that a run over
two pieces is the run over the second from where the first one ended. One byte alone never decides anything where two
are needed: what does not open with `FF` is found broken only when the byte behind it is there.
-/

namespace EncoderFleet.Jpeg

/-- The byte that opens a marker. -/
def mark : UInt8 := 0xFF

/-- The marker that opens an image. -/
def opening : UInt8 := 0xD8

/-- The marker that ends an image. -/
def ending : UInt8 := 0xD9

/-- The marker of a segment with coded data behind it. -/
def scanHeader : UInt8 := 0xDA

/-- Markers inside coded data that restart the decoder. -/
def isRestart (b : UInt8) : Bool := 0xD0 ≤ b && b ≤ 0xD7

/-- Markers that stand alone. -/
def standsAlone (b : UInt8) : Bool := b == 0x01 || isRestart b

/-- Where in an image a reader stands. -/
inductive Place
  /-- Before a marker. -/
  | between
  /-- Behind the first byte of a marker. -/
  | begun (first : UInt8)
  /-- Before the length of a segment; `scan` when coded data follows the segment. -/
  | length (scan : Bool)
  /-- Inside the length of a segment. -/
  | lengthHigh (scan : Bool) (high : UInt8)
  /-- In a segment, with some bytes of it to come. -/
  | segment (scan : Bool) (left : Nat)
  /-- In coded data. -/
  | coded
  /-- Behind an `FF` in coded data. -/
  | codedMark
deriving DecidableEq

/-- Where one more byte leads. -/
inductive Move
  | to (p : Place)
  /-- The byte was the last of the image. -/
  | ended
  /-- These bytes are no image. -/
  | broken
deriving DecidableEq

namespace Place

/-- Inside a segment with that many bytes to come, or past it. -/
def inSegment (scan : Bool) (left : Nat) : Place :=
  if left = 0 then (if scan then .coded else .between) else .segment scan left

/-- Where the second byte of a marker leads. -/
def mark (b : UInt8) : Move :=
  if b = Jpeg.mark then .to (.begun b)
  else if b = ending then .ended
  else if standsAlone b then .to .between
  else if b = opening then .broken
  else .to (.length (b == scanHeader))

/-- Where one more byte leads. -/
def step : Place → UInt8 → Move
  | between, b => .to (.begun b)
  | begun first, b => if first = Jpeg.mark then mark b else .broken
  | length scan, b => .to (.lengthHigh scan b)
  | lengthHigh scan high, b =>
    let n := Bytes.word16 high b
    if n < 2 then .broken else .to (inSegment scan (n - 2))
  | segment scan left, _ => .to (inSegment scan (left - 1))
  | coded, b => .to (if b = Jpeg.mark then .codedMark else .coded)
  | codedMark, b =>
    if b = Jpeg.mark then .to .codedMark else if b = 0x00 ∨ isRestart b then .to .coded else mark b

end Place

/-- What the bytes from the opening of an image on hold. -/
inductive Reading
  /-- An image that is this many bytes long. -/
  | image (length : Nat)
  /-- The image is not complete yet. -/
  | short
  /-- No image. -/
  | broken
deriving DecidableEq

/-- Read on from a place, with `n` bytes of the image read. -/
def readFrom (p : Place) (n : Nat) : Bytes → Reading
  | [] => .short
  | b :: bs =>
    match p.step b with
    | .to q => readFrom q (n + 1) bs
    | .ended => .image (n + 1)
    | .broken => .broken

/-- Read an image from its opening marker on. -/
def read (bs : Bytes) : Reading := readFrom .between 2 (bs.drop 2)

end EncoderFleet.Jpeg
