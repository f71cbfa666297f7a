import EncoderFleet.Proofs.Flv.Cuts
import Mathlib.Data.Nat.Bitwise

/-!
# Demuxing undoes encoding and passes bytes on as they came

A `WireHeader` has the bytes of a header (`WireHeader.encode`), as a `WireTag` has those of a tag (`WireTag.encode`).
What was encoded is read back, whatever follows it (`WireHeader.read_encode`, `WireTag.read_encode`), and a tag that was
read is encoded to the very bytes that it was read from (`WireTag.encode_of_read`).

So a stream of encoded tags is demuxed to the tags of known type, and nothing is left (`Demuxer.drain_encoded`).
Whatever a demuxer takes in and is asked for, the bytes that have left its buffer are those of the elements that it gave
out and of the tags that it passed over (`Demuxer.splits_run`).
-/

namespace EncoderFleet

/-! ## Numbers -/

namespace Bytes

variable {a b c d : UInt8}

/-- A number put in front of `i` lower bits. -/
private theorem toNat_shiftLeft_or {x y : UInt32} {i : Nat} (hi : i < 32) (hx : x.toNat * 2 ^ i < 2 ^ 32)
    (hy : y.toNat < 2 ^ i) : (x <<< UInt32.ofNat i ||| y).toNat = x.toNat * 2 ^ i + y.toNat := by
  have hs : (UInt32.ofNat i).toNat % 32 = i := by
    rw [UInt32.toNat_ofNat']
    omega
  rw [UInt32.toNat_or, UInt32.toNat_shiftLeft, hs, Nat.shiftLeft_eq, Nat.mod_eq_of_lt hx, ← Nat.shiftLeft_eq,
    ← Nat.shiftLeft_add_eq_or_of_lt hy, Nat.shiftLeft_eq]

/-- The number that three bytes write. -/
theorem toNat_word24 : (word24 a b c).toNat = a.toNat * 65536 + b.toNat * 256 + c.toNat := by
  have ha := a.toNat_lt
  have hb := b.toNat_lt
  have hc := c.toNat_lt
  have hlow : (b.toUInt32 <<< 8 ||| c.toUInt32).toNat = b.toNat * 256 + c.toNat :=
    toNat_shiftLeft_or (i := 8) (by omega) (by simp; omega) (by simp; omega)
  have hall := toNat_shiftLeft_or (x := a.toUInt32) (y := b.toUInt32 <<< 8 ||| c.toUInt32) (i := 16) (by omega)
    (by simp; omega) (by omega)
  rw [hlow] at hall
  rw [word24, UInt32.or_assoc]
  exact hall.trans (by simp; omega)

/-- The number that four bytes write. -/
theorem toNat_word32 : (word32 a b c d).toNat = a.toNat * 16777216 + b.toNat * 65536 + c.toNat * 256 + d.toNat := by
  have ha := a.toNat_lt
  have hb := b.toNat_lt
  have hc := c.toNat_lt
  have hd := d.toNat_lt
  have hlow : (word24 b c d).toNat = b.toNat * 65536 + c.toNat * 256 + d.toNat := toNat_word24
  have hall := toNat_shiftLeft_or (x := a.toUInt32) (y := word24 b c d) (i := 24) (by omega) (by simp; omega) (by omega)
  rw [hlow] at hall
  exact hall.trans (by simp; omega)

theorem cut?_of_length {n : Nat} {front : Bytes} (h : front.length = n) (rest : Bytes) :
    cut? n (front ++ rest) = some (front, rest) := by
  rw [cut?_eq, if_pos (by simp [h]), List.take_left' h, List.drop_left' h]

end Bytes

namespace Flv

open Bytes (word24 word32)

namespace WireTag

/-- Three bytes write a number of 24 bits. -/
theorem toNat_bytes24 {n : Nat} (h : n < 16777216) :
    (word24 (UInt8.ofNat (n / 65536)) (UInt8.ofNat (n / 256)) (UInt8.ofNat n)).toNat = n := by
  simp only [Bytes.toNat_word24, UInt8.toNat_ofNat']
  omega

/-- The bytes of the number that three bytes write are these. -/
theorem bytes24_word24 (a b c : UInt8) (k : Nat) :
    bytes24 (k * 16777216 + (word24 a b c).toNat) = [a, b, c] := by
  have ha := a.toNat_lt
  have hb := b.toNat_lt
  have hc := c.toNat_lt
  simp only [bytes24, Bytes.toNat_word24, List.cons.injEq, ← UInt8.toNat_inj, UInt8.toNat_ofNat', and_true]
  refine ⟨?_, ?_, ?_⟩ <;> omega

/-! ## Tags -/

variable {limit : Nat} {w : WireTag} {bs wire rest : Bytes}

theorem length_encode (w : WireTag) : w.encode.length = openingLength + w.body.length + trailerLength := by
  simp [encode, bytes24, openingLength, trailerLength]
  omega

/-- The time of a tag is written with its top byte last. -/
theorem timestamp_encode (t : UInt32) : word32 (UInt8.ofNat (t.toNat / 16777216)) (UInt8.ofNat (t.toNat / 65536))
    (UInt8.ofNat (t.toNat / 256)) (UInt8.ofNat t.toNat) = t := by
  have ht := t.toNat_lt
  rw [← UInt32.toNat_inj, Bytes.toNat_word32]
  simp only [UInt8.toNat_ofNat']
  omega

/-- The parts of an encoded tag are those that were encoded. -/
theorem ofBytes?_encode (w : WireTag) : ofBytes? w.body.length w.encode = some w := by
  have ht := timestamp_encode w.timestamp
  simp only [encode, bytes24, List.cons_append, List.nil_append, ofBytes?, ht, List.drop_left, List.take_left]

/-- An encoded tag is read, if its body is no longer than it may be and its length can be written. -/
theorem read_encode (hl : w.body.length ≤ limit) (hs : w.body.length < 16777216) (rest : Bytes) :
    read limit (w.encode ++ rest) = .whole w w.encode rest := by
  have hcut := Bytes.cut?_of_length (length_encode w) rest
  have hparts := ofBytes?_encode w
  have hsize := toNat_bytes24 hs
  revert hcut hparts
  generalize hw : w.encode = wire
  simp only [encode, bytes24, List.cons_append, List.nil_append] at hw
  subst hw
  intro hcut hparts
  simp only [List.cons_append] at hcut ⊢
  simp only [read, hsize, Nat.not_lt.mpr hl, if_false, hcut, hparts]

/-- The bytes of a tag are those that its parts were taken from, if these say how long its body is. -/
theorem encode_of_ofBytes? {ty n₁ n₂ n₃ : UInt8} {more : Bytes} (h : ofBytes? (word24 n₁ n₂ n₃).toNat wire = some w)
    (hw : wire ++ rest = ty :: n₁ :: n₂ :: n₃ :: more) : w.encode = wire := by
  unfold ofBytes? at h
  split at h
  · next ty' m₁ m₂ m₃ t₁ t₂ t₃ t₀ s₁ s₂ s₃ rest' =>
    simp only [List.cons_append, List.cons.injEq] at hw
    obtain ⟨rfl, rfl, rfl, rfl, -⟩ := hw
    split at h
    · next p₁ p₂ p₃ p₄ hd =>
      cases h
      have hlen : (rest'.take (word24 m₁ m₂ m₃).toNat).length = (word24 m₁ m₂ m₃).toNat := by
        have := congrArg List.length hd
        simp only [List.length_drop, List.length_cons, List.length_nil] at this
        rw [List.length_take]
        omega
      have hsize := bytes24_word24 m₁ m₂ m₃ 0
      have htime := bytes24_word24 t₁ t₂ t₃ t₀.toNat
      have htop : UInt8.ofNat ((word32 t₀ t₁ t₂ t₃).toNat / 16777216) = t₀ := by
        rw [← UInt8.toNat_inj, Bytes.toNat_word32, UInt8.toNat_ofNat']
        have h₀ := t₀.toNat_lt
        have h₁ := t₁.toNat_lt
        have h₂ := t₂.toNat_lt
        have h₃ := t₃.toNat_lt
        omega
      have hword : (word32 t₀ t₁ t₂ t₃).toNat = t₀.toNat * 16777216 + (word24 t₁ t₂ t₃).toNat := by
        rw [Bytes.toNat_word32, Bytes.toNat_word24]
        omega
      rw [Nat.zero_mul, Nat.zero_add] at hsize
      rw [← hword] at htime
      simp only [encode, hlen, hsize, htime, htop, List.cons_append, List.nil_append, ← hd, List.take_append_drop]
    · cases h
  · cases h

/-- A tag that was read was read from its bytes, which stood in front. -/
theorem encode_of_read (h : read limit bs = .whole w wire rest) : wire = w.encode ∧ wire ++ rest = bs := by
  unfold read at h
  split at h
  · next ty n₁ n₂ n₃ _ _ _ _ _ _ _ more =>
    dsimp only at h
    split at h
    · cases h
    · split at h
      · cases h
      · next front rest' hc =>
        have happ := (Bytes.append_of_cut? hc).1
        split at h
        · next w' hw =>
          cases h
          exact ⟨(encode_of_ofBytes? hw happ).symm, happ⟩
        · cases h
  · cases h

/-- The element that a tag makes: its type is in the low five bits of its first byte, and three types are known. -/
def element? (w : WireTag) : Option Event :=
  let made (kind : TagKind) : Option Event := some (.tag ⟨kind, w.timestamp, w.body⟩ w.encode)
  match w.typeByte.toNat % 32 with
  | 8 => made .audio
  | 9 => made .video
  | 18 => made .script
  | _ => none

theorem element?_eq (w : WireTag) : w.element? = w.tag?.map fun t => .tag t w.encode := by
  have hcode : (w.typeByte &&& 0x1F).toNat = w.typeByte.toNat % 32 :=
    (UInt8.toNat_and _ _).trans (Nat.and_two_pow_sub_one_eq_mod _ 5)
  have hiff : ∀ k : UInt8, w.typeByte &&& 0x1F = k ↔ w.typeByte.toNat % 32 = k.toNat := fun k => by
    rw [← hcode, UInt8.toNat_inj]
  simp only [element?, tag?, TagKind.ofByte?, hiff, Option.map_map]
  split <;> simp_all

end WireTag

/-! ## Headers -/

/-- A header, with all that stands in it; what stands behind its ninth byte is none of the demuxer's business. -/
structure WireHeader where
  version : UInt8
  flags : UInt8
  extra : Bytes
  trailer : UInt8 × UInt8 × UInt8 × UInt8
  /-- Its length can be written. -/
  fits : headerLength + extra.length < 4294967296

namespace WireHeader

/-- The bytes of a header. -/
def encode (h : WireHeader) : Bytes :=
  let offset := headerLength + h.extra.length
  [0x46, 0x4C, 0x56, h.version, h.flags, UInt8.ofNat (offset / 16777216)] ++ WireTag.bytes24 offset ++ h.extra ++
    [h.trailer.1, h.trailer.2.1, h.trailer.2.2.1, h.trailer.2.2.2]

/-- An encoded header is read. -/
theorem read_encode (h : WireHeader) (rest : Bytes) : readHeader (h.encode ++ rest) = .whole () h.encode rest := by
  have hfits := h.fits
  have hoffset : (word32 (UInt8.ofNat ((headerLength + h.extra.length) / 16777216))
      (UInt8.ofNat ((headerLength + h.extra.length) / 65536)) (UInt8.ofNat ((headerLength + h.extra.length) / 256))
      (UInt8.ofNat (headerLength + h.extra.length))).toNat = headerLength + h.extra.length := by
    simp only [Bytes.toNat_word32, UInt8.toNat_ofNat']
    omega
  have hlen : h.encode.length = headerLength + h.extra.length + trailerLength := by
    simp [encode, WireTag.bytes24, headerLength, trailerLength]
    omega
  have hcut := Bytes.cut?_of_length hlen rest
  revert hcut
  generalize hw : h.encode = wire
  simp only [encode, WireTag.bytes24, List.cons_append, List.nil_append] at hw
  subst hw
  intro hcut
  simp only [List.cons_append] at hcut ⊢
  simp only [readHeader, hoffset, if_true, Nat.not_lt.mpr (Nat.le_add_right _ _), if_false, hcut]

end WireHeader

/-- A header that was read stood in front. -/
theorem append_of_readHeader {bs wire rest : Bytes} (h : readHeader bs = .whole () wire rest) : wire ++ rest = bs := by
  unfold readHeader at h
  split at h
  · split at h
    · dsimp only at h
      split at h
      · cases h
      · split at h
        · next hc => cases h; exact (Bytes.append_of_cut? hc).1
        · cases h
    · cases h
  · cases h

/-! ## Encoded streams -/

namespace Demuxer

variable {limit : Nat} {w : WireTag}

/-- A demuxer past the header, with these bytes. -/
def past (limit : Nat) (bs : Bytes) : Demuxer := { limit := limit, opened := true, buffer := bs }

/-- Of an encoded tag, the demuxer makes the element that it should, and passes it over if it makes none. -/
theorem drain_past_encode (hl : w.body.length ≤ limit) (hs : w.body.length < 16777216) (rest : Bytes) :
    (past limit (w.encode ++ rest)).drain =
      (w.element?.toList ++ (past limit rest).drain.1, (past limit rest).drain.2) := by
  have hr := WireTag.read_encode hl hs rest
  rw [WireTag.element?_eq]
  cases ht : w.tag? with
  | some t =>
    have hn : (past limit (w.encode ++ rest)).next = (.event (.tag t w.encode), past limit rest) := by
      simp only [next, past, if_true, nextTag_of_known hr ht]
    exact drain_of_event hn
  | none =>
    have hn : (past limit (w.encode ++ rest)).next = (past limit rest).next := by
      simp only [next, past, if_true, nextTag_of_unknown hr ht]
    exact drain_congr hn

/-- Encoded tags are demuxed to their elements, one after another, and nothing is left. -/
theorem drain_past_encodings {ws : List WireTag} (h : ∀ w ∈ ws, w.body.length ≤ limit ∧ w.body.length < 16777216) :
    (past limit (ws.flatMap WireTag.encode)).drain = (ws.filterMap WireTag.element?, none, past limit []) := by
  induction ws with
  | nil => exact drain_of_waiting (by simp [next, past, nextTag, WireTag.read])
  | cons w ws ih =>
    have hw := h w List.mem_cons_self
    rw [List.flatMap_cons, drain_past_encode hw.1 hw.2, ih fun v hv => h v (List.mem_cons_of_mem _ hv)]
    cases he : w.element? <;> simp [he]

/-- A stream of an encoded header and encoded tags is demuxed to the header and the elements of the tags. -/
theorem drain_encoded (h : WireHeader) {ws : List WireTag}
    (hws : ∀ w ∈ ws, w.body.length ≤ limit ∧ w.body.length < 16777216) :
    (({ limit := limit } : Demuxer).push (h.encode ++ ws.flatMap WireTag.encode)).drain =
      (.header h.encode :: ws.filterMap WireTag.element?, none, past limit []) := by
  have hn : (({ limit := limit } : Demuxer).push (h.encode ++ ws.flatMap WireTag.encode)).next =
      (.event (.header h.encode), past limit (ws.flatMap WireTag.encode)) := by
    simp only [next, push, List.nil_append, Bool.false_eq_true, if_false, h.read_encode, past]
  rw [drain_of_event hn, drain_past_encodings hws]

/-! ## Bytes in and out -/

/-- What stands in a stream, one after another: a header, or a tag, of known type or not. -/
inductive Piece
  | header (wire : Bytes)
  | tag (w : WireTag)

/-- The bytes of a piece. -/
def Piece.wire : Piece → Bytes
  | header wire => wire
  | tag w => w.encode

/-- What a demuxer makes of a piece; nothing of a tag that it passes over. -/
def Piece.element? : Piece → Option Event
  | header wire => some (.header wire)
  | tag w => w.element?

/-- Bytes are those of some pieces, which make these elements, and of the rest. -/
def Splits (bs : Bytes) (es : List Event) (rest : Bytes) : Prop :=
  ∃ ps : List Piece, es = ps.filterMap Piece.element? ∧ ps.flatMap Piece.wire ++ rest = bs

section splits

variable {bs rest : Bytes} {es : List Event}

theorem Splits.none (bs : Bytes) : Splits bs [] bs := ⟨[], rfl, rfl⟩

theorem Splits.one (p : Piece) (rest : Bytes) : Splits (p.wire ++ rest) p.element?.toList rest := by
  refine ⟨[p], ?_, by simp⟩
  cases h : p.element? <;> simp [h]

theorem Splits.append {fs : List Event} {last : Bytes} (h : Splits bs es rest) (hr : Splits rest fs last) :
    Splits bs (es ++ fs) last := by
  obtain ⟨ps, rfl, rfl⟩ := h
  obtain ⟨qs, rfl, rfl⟩ := hr
  exact ⟨ps ++ qs, List.filterMap_append.symm, by rw [List.flatMap_append, List.append_assoc]⟩

/-- More bytes behind are more bytes in the rest. -/
theorem Splits.more (h : Splits bs es rest) (more : Bytes) : Splits (bs ++ more) es (rest ++ more) := by
  obtain ⟨ps, rfl, rfl⟩ := h
  exact ⟨ps, rfl, (List.append_assoc ..).symm⟩

end splits

/-- The element that is given out. -/
def given? : Outcome → Option Event
  | .event e => some e
  | _ => none

theorem splits_nextTag (limit : Nat) (bs : Bytes) :
    Splits bs (given? (nextTag limit bs).1).toList (nextTag limit bs).2 := by
  fun_induction nextTag limit bs with
  | case1 bs h => exact .none bs
  | case2 bs f h => exact .none bs
  | case3 bs w wire rest h t ht =>
    obtain ⟨rfl, rfl⟩ := WireTag.encode_of_read h
    have hone := Splits.one (.tag w) rest
    rwa [Piece.element?, WireTag.element?_eq, ht] at hone
  | case4 bs w wire rest h ht ih =>
    obtain ⟨rfl, rfl⟩ := WireTag.encode_of_read h
    have hone := Splits.one (.tag w) rest
    rw [Piece.element?, WireTag.element?_eq, ht] at hone
    exact hone.append ih

/-- Whoever is asked for an element takes its bytes off, and those of tags passed over before it. -/
theorem splits_next (d : Demuxer) : Splits d.buffer (given? d.next.1).toList d.next.2.buffer := by
  unfold next
  split
  · exact splits_nextTag d.limit d.buffer
  · split
    · exact .none _
    · exact .none _
    · next wire rest hr =>
      rw [← append_of_readHeader hr]
      exact .one (.header wire) rest

theorem splits_drain (d : Demuxer) : Splits d.buffer d.drain.1 d.drain.2.2.buffer := by
  induction d using drain.induct with
  | case1 d e d' hn ih =>
    have hnext := splits_next d
    rw [hn] at hnext
    rw [drain_of_event hn]
    exact hnext.append ih
  | case2 d d' hn =>
    have hnext := splits_next d
    rw [hn] at hnext
    rwa [drain_of_waiting hn]
  | case3 d f d' hn =>
    have hnext := splits_next d
    rw [hn] at hnext
    rwa [drain_of_fault hn]

/-- What is done with a demuxer. -/
inductive Turn
  /-- It takes in bytes. -/
  | push (bs : Bytes)
  /-- It is asked for an element. -/
  | ask
  /-- It is asked for elements until it gives out no more. -/
  | drain

/-- The bytes that are taken in. -/
def pushed : List Turn → Bytes
  | [] => []
  | .push bs :: ts => bs ++ pushed ts
  | _ :: ts => pushed ts

/-- The elements that a demuxer gives out in some turns, and the demuxer after them. -/
def run (d : Demuxer) : List Turn → List Event × Demuxer
  | [] => ([], d)
  | .push bs :: ts => (d.push bs).run ts
  | .ask :: ts =>
    let r := d.next.2.run ts
    ((given? d.next.1).toList ++ r.1, r.2)
  | .drain :: ts =>
    let r := d.drain.2.2.run ts
    (d.drain.1 ++ r.1, r.2)

/-- All bytes that a demuxer held or took in are those of pieces, which make the elements that it gave out, and those
that it still holds. -/
theorem splits_run (d : Demuxer) (ts : List Turn) :
    Splits (d.buffer ++ pushed ts) (d.run ts).1 (d.run ts).2.buffer := by
  induction ts generalizing d with
  | nil =>
    rw [pushed, List.append_nil]
    exact .none d.buffer
  | cons t ts ih =>
    cases t with
    | push bs =>
      have hrun := ih (d.push bs)
      rwa [push, List.append_assoc] at hrun
    | ask => exact ((splits_next d).more (pushed ts)).append (ih d.next.2)
    | drain => exact ((splits_drain d).more (pushed ts)).append (ih d.drain.2.2)

/-- A demuxer undoes the encoding of a stream and passes its bytes on as they came. Take a header, however long, and
tags of whatever type, time, stream and trailer, whose bodies are no longer than the demuxer allows and than can be
written: it gives out the header with its bytes and then, for each tag whose type is known, its kind, its time, its body
and all its bytes, and holds nothing back. Take any bytes at all, in whatever portions and asked for in whatever way:
those of the elements given out and of the tags passed over, in order, and those still held are the bytes that it took
in. -/
theorem demuxing_undoes_encoding (limit : Nat) :
    (∀ (h : WireHeader) (ws : List WireTag), (∀ w ∈ ws, w.body.length ≤ limit ∧ w.body.length < 16777216) →
      (({ limit := limit } : Demuxer).push (h.encode ++ ws.flatMap WireTag.encode)).drain =
        (.header h.encode :: ws.filterMap WireTag.element?, none, { limit := limit, opened := true, buffer := [] })) ∧
    ∀ ts : List Turn, ∃ ps : List Piece,
      (({ limit := limit } : Demuxer).run ts).1 = ps.filterMap Piece.element? ∧
        ps.flatMap Piece.wire ++ (({ limit := limit } : Demuxer).run ts).2.buffer = pushed ts :=
  ⟨fun h _ hws => drain_encoded h hws, fun ts => splits_run { limit := limit } ts⟩

/-- A header with two more bytes, a picture, a tag of unknown type and sound whose time needs its top byte: the picture
and the sound are given out, also where filter bits are set in the type. -/
theorem demuxing_undoes_encoding_of_three :
    let h : WireHeader := ⟨1, 5, [0xAA, 0xBB], (0, 0, 0, 0), by decide⟩
    let picture : WireTag := ⟨0x29, 40, (0, 0, 1), [0x17, 0, 0], (0, 0, 0, 14)⟩
    let unknown : WireTag := ⟨15, 41, (0, 0, 0), [7], (0, 0, 0, 12)⟩
    let sound : WireTag := ⟨8, 0x12345678, (0, 0, 0), [], (1, 2, 3, 4)⟩
    (∀ w ∈ [picture, unknown, sound], w.body.length ≤ 3 ∧ w.body.length < 16777216) ∧
      (({ limit := 3 } : Demuxer).push (h.encode ++ [picture, unknown, sound].flatMap WireTag.encode)).drain =
        ([.header h.encode, .tag ⟨.video, 40, [0x17, 0, 0]⟩ picture.encode, .tag ⟨.audio, 0x12345678, []⟩ sound.encode],
          none, { limit := 3, opened := true, buffer := [] }) := by
  intro h picture unknown sound
  have hws : ∀ w ∈ [picture, unknown, sound], w.body.length ≤ 3 ∧ w.body.length < 16777216 := by decide
  have helements : [picture, unknown, sound].filterMap WireTag.element? =
      [.tag ⟨.video, 40, [0x17, 0, 0]⟩ picture.encode, .tag ⟨.audio, 0x12345678, []⟩ sound.encode] := by decide
  have hdrain := (demuxing_undoes_encoding 3).1 h [picture, unknown, sound] hws
  rw [helements] at hdrain
  exact ⟨hws, hdrain⟩

end Demuxer

end Flv

end EncoderFleet
