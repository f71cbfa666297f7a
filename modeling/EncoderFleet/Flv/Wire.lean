import EncoderFleet.Flv.Tag

/-!
# The wire form of FLV

    header:  F L V  version flags  offset(4)  ...  size(4)
    tag:     type(1)  size(3)  time(3)  time's top byte(1)  stream(3)  body(size)  trailer(4)

The header is as long as its offset says, and four bytes follow it as they follow each tag. Reading looks at the front
of the bytes that have come in: it yields a whole element and the bytes behind it, or says that the element is not
complete yet, or why it never will be. The bytes of an element are kept, so that they can be passed on as they came.
-/

namespace EncoderFleet.Flv

/-- Why a stream cannot be read on. -/
inductive Fault
  | badSignature
  /-- The header claims to be shorter than a header is. -/
  | badOffset (offset : UInt32)
  | tagTooLarge (size : Nat)
deriving DecidableEq

/-- The wording of a fault. -/
def Fault.message : Fault → String
  | badSignature => "Invalid FLV signature"
  | badOffset offset => "Invalid FLV header offset: " ++ toString offset.toNat
  | tagTooLarge size => "FLV tag too large: " ++ toString size ++ " bytes"

/-- What the front of the bytes holds. -/
inductive Reading (α : Type)
  /-- An element that is not complete yet. -/
  | short
  /-- A whole element, its bytes, and those behind it. -/
  | whole (a : α) (wire rest : Bytes)
  | fault (f : Fault)

/-- The least length of a header. -/
def headerLength : Nat := 9

/-- The length of what precedes the body of a tag. -/
def openingLength : Nat := 11

/-- The length of what follows the header and each tag. -/
def trailerLength : Nat := 4

/-- Read the header. -/
def readHeader (bs : Bytes) : Reading Unit :=
  match bs with
  | f :: l :: v :: _ :: _ :: o₁ :: o₂ :: o₃ :: o₄ :: _ =>
    if [f, l, v] = [0x46, 0x4C, 0x56] then
      let offset := Bytes.word32 o₁ o₂ o₃ o₄
      if offset.toNat < headerLength then .fault (.badOffset offset)
      else
        match Bytes.cut? (offset.toNat + trailerLength) bs with
        | some (wire, rest) => .whole () wire rest
        | none => .short
    else .fault .badSignature
  | _ => .short

/-- A tag of whatever type, with all that its frame says. -/
structure WireTag where
  typeByte : UInt8
  timestamp : UInt32
  stream : UInt8 × UInt8 × UInt8
  body : Bytes
  trailer : UInt8 × UInt8 × UInt8 × UInt8
deriving DecidableEq

namespace WireTag

/-- The tag without its frame, if its type is known. -/
def tag? (w : WireTag) : Option Tag := (TagKind.ofByte? w.typeByte).map fun kind => ⟨kind, w.timestamp, w.body⟩

/-- The low 24 bits of a number, most significant byte first. -/
def bytes24 (n : Nat) : Bytes := [UInt8.ofNat (n / 65536), UInt8.ofNat (n / 256), UInt8.ofNat n]

/-- The bytes of a tag. -/
def encode (w : WireTag) : Bytes :=
  let time := w.timestamp.toNat
  w.typeByte :: bytes24 w.body.length ++ bytes24 time ++
    [UInt8.ofNat (time / 16777216), w.stream.1, w.stream.2.1, w.stream.2.2] ++ w.body ++
    [w.trailer.1, w.trailer.2.1, w.trailer.2.2.1, w.trailer.2.2.2]

/-- The parts of a tag whose body is this long, from all its bytes. -/
def ofBytes? (size : Nat) : Bytes → Option WireTag
  | type :: _ :: _ :: _ :: t₁ :: t₂ :: t₃ :: t₀ :: s₁ :: s₂ :: s₃ :: rest =>
    match rest.drop size with
    | [p₁, p₂, p₃, p₄] => some ⟨type, Bytes.word32 t₀ t₁ t₂ t₃, (s₁, s₂, s₃), rest.take size, (p₁, p₂, p₃, p₄)⟩
    | _ => none
  | _ => none

/-- Read a tag whose body is at most `limit` bytes long. -/
def read (limit : Nat) (bs : Bytes) : Reading WireTag :=
  match bs with
  | _ :: n₁ :: n₂ :: n₃ :: _ :: _ :: _ :: _ :: _ :: _ :: _ :: _ =>
    let size := (Bytes.word24 n₁ n₂ n₃).toNat
    if limit < size then .fault (.tagTooLarge size)
    else
      match Bytes.cut? (openingLength + size + trailerLength) bs with
      | none => .short
      | some (wire, rest) =>
        match ofBytes? size wire with
        | some w => .whole w wire rest
        | none => .short
  | _ => .short

/-- Reading a tag takes bytes away. -/
theorem length_of_read {limit : Nat} {bs : Bytes} {w : WireTag} {wire rest : Bytes}
    (h : read limit bs = .whole w wire rest) : rest.length < bs.length := by
  unfold read at h
  split at h
  · next n₁ n₂ n₃ _ _ _ _ _ _ _ _ =>
    dsimp only at h
    split at h
    · cases h
    · split at h
      · cases h
      · next hc =>
        split at h
        · cases h
          have hk := Bytes.append_of_cut? hc
          have hl := congrArg List.length hk.1
          rw [List.length_append, hk.2] at hl
          simp only [openingLength] at hl
          omega
        · cases h
  · cases h

end WireTag

end EncoderFleet.Flv
