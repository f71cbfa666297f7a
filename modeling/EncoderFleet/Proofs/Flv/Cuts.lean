import EncoderFleet.Live.Decoder

/-!
# Decoding FLV does not depend on where a stream is cut

FLV comes in chunks, and what is complete is decoded after each. An element or a fault that was read off the front of
the bytes is read off all the same when more bytes are there (`readHeader_append`, `WireTag.read_append`), and tags of
unknown type are passed over no differently (`nextTag_append`). So to drain, push and drain again is to push and drain
once, up to the first fault (`drain_push`). A decoder that has failed takes in nothing more, so that chunks yield the
units that the whole stream yields (`Decoder.feedAll_eq`).
-/

namespace EncoderFleet

/-- A cut that can be made can be made when more bytes are there. -/
theorem Bytes.cut?_append {n : Nat} {bs front rest : Bytes} (h : cut? n bs = some (front, rest)) (more : Bytes) :
    cut? n (bs ++ more) = some (front, rest ++ more) := by
  obtain ⟨rfl, hl⟩ := append_of_cut? h
  have hle : n ≤ (front ++ rest ++ more).length := by
    simp only [List.length_append]
    omega
  rw [cut?_eq, if_pos hle, List.append_assoc]
  subst hl
  simp

namespace Flv

variable {limit : Nat} {bs more : Bytes}

/-! ## Elements -/

/-- What was read, with more bytes behind it. -/
def Reading.goOn {α : Type} (r : Reading α) (more : Bytes) : Reading α :=
  match r with
  | short => short
  | whole a wire rest => whole a wire (rest ++ more)
  | fault f => fault f

/-- A header or a fault that was read stays when more bytes are there. -/
theorem readHeader_append (h : readHeader bs ≠ .short) (more : Bytes) :
    readHeader (bs ++ more) = (readHeader bs).goOn more := by
  unfold readHeader at h ⊢
  split at h
  · next f l v a b o₁ o₂ o₃ o₄ rest =>
    simp only [List.cons_append]
    split
    · next hs =>
      rw [if_pos hs] at h
      dsimp only at h ⊢
      split
      · rfl
      · next ho =>
        rw [if_neg ho] at h
        split at h
        · next front rest hc =>
          have hc' := Bytes.cut?_append hc more
          simp only [List.cons_append] at hc'
          rw [hc']
          rfl
        · exact absurd rfl h
    · rfl
  · exact absurd rfl h

/-- A tag or a fault that was read stays when more bytes are there. -/
theorem WireTag.read_append (h : read limit bs ≠ .short) (more : Bytes) :
    read limit (bs ++ more) = (read limit bs).goOn more := by
  unfold read at h ⊢
  split at h
  · next n₀ n₁ n₂ n₃ t₁ t₂ t₃ t₀ s₁ s₂ s₃ rest =>
    simp only [List.cons_append]
    dsimp only at h ⊢
    split
    · rfl
    · next hl =>
      rw [if_neg hl] at h
      split at h
      · exact absurd rfl h
      · next front rest hc =>
        have hc' := Bytes.cut?_append hc more
        simp only [List.cons_append] at hc'
        rw [hc']
        dsimp only at h ⊢
        cases hw : ofBytes? (Bytes.word24 n₁ n₂ n₃).toNat front with
        | some w => rfl
        | none => exact absurd (by rw [hw]) h
  · exact absurd rfl h

/-! ## Demuxing -/

namespace Demuxer

variable {d d' : Demuxer} {e : Event} {f : Fault}

theorem nextTag_of_fault (h : WireTag.read limit bs = .fault f) : nextTag limit bs = (.fault f, bs) := by
  rw [nextTag]
  split <;> simp_all

theorem nextTag_of_known {w : WireTag} {wire rest : Bytes} {t : Tag} (h : WireTag.read limit bs = .whole w wire rest)
    (ht : w.tag? = some t) : nextTag limit bs = (.event (.tag t wire), rest) := by
  rw [nextTag]
  split <;> simp_all

theorem nextTag_of_unknown {w : WireTag} {wire rest : Bytes} (h : WireTag.read limit bs = .whole w wire rest)
    (ht : w.tag? = none) : nextTag limit bs = nextTag limit rest := by
  rw [nextTag]
  split <;> simp_all

/-- What comes of all bytes, from what has come of the first of them. -/
def goOn (limit : Nat) (r : Outcome × Bytes) (more : Bytes) : Outcome × Bytes :=
  match r.1 with
  | .waiting => nextTag limit (r.2 ++ more)
  | o => (o, r.2 ++ more)

theorem nextTag_append (limit : Nat) (bs more : Bytes) :
    nextTag limit (bs ++ more) = goOn limit (nextTag limit bs) more := by
  fun_induction nextTag limit bs with
  | case1 bs h => rfl
  | case2 bs f h =>
    have ha := WireTag.read_append (by rw [h]; simp) more
    rw [h] at ha
    exact nextTag_of_fault ha
  | case3 bs w wire rest h t ht =>
    have ha := WireTag.read_append (by rw [h]; simp) more
    rw [h] at ha
    exact nextTag_of_known ha ht
  | case4 bs w wire rest h ht ih =>
    have ha := WireTag.read_append (by rw [h]; simp) more
    rw [h] at ha
    rw [nextTag_of_unknown ha ht, ih]

theorem push_push (d : Demuxer) (bs cs : Bytes) : (d.push bs).push cs = d.push (bs ++ cs) := by
  simp [push]

@[simp] theorem push_nil (d : Demuxer) : d.push [] = d := by
  simp [push]

/-- The next element of all bytes, from what was next in the first of them. -/
theorem next_push (d : Demuxer) (more : Bytes) :
    (d.push more).next = match d.next with
      | (.waiting, d') => (d'.push more).next
      | (o, d') => (o, d'.push more) := by
  unfold next push
  cases ho : d.opened with
  | true =>
    have ha := nextTag_append d.limit d.buffer more
    simp only [if_true, ha, goOn]
    cases ht : (nextTag d.limit d.buffer).1 with
    | waiting => simp
    | event e => rfl
    | fault f => rfl
  | false =>
    simp only [Bool.false_eq_true, if_false]
    cases hr : readHeader d.buffer with
    | short => simp [ho]
    | fault f =>
      have ha := readHeader_append (by rw [hr]; nofun) more
      simp [ha, hr, Reading.goOn, ho]
    | whole a wire rest =>
      have ha := readHeader_append (by rw [hr]; nofun) more
      simp [ha, hr, Reading.goOn]

theorem drain_of_event (h : d.next = (.event e, d')) : d.drain = (e :: d'.drain.1, d'.drain.2) := by
  rw [drain]
  split <;> simp_all

theorem drain_of_waiting (h : d.next = (.waiting, d')) : d.drain = ([], none, d') := by
  rw [drain]
  split <;> simp_all

theorem drain_of_fault (h : d.next = (.fault f, d')) : d.drain = ([], some f, d') := by
  rw [drain]
  split <;> simp_all

theorem drain_congr {d₁ d₂ : Demuxer} (h : d₁.next = d₂.next) : d₁.drain = d₂.drain := by
  rcases hn : d₂.next with ⟨o, d'⟩
  rw [hn] at h
  cases o with
  | event e => rw [drain_of_event h, drain_of_event hn]
  | waiting => rw [drain_of_waiting h, drain_of_waiting hn]
  | fault f => rw [drain_of_fault h, drain_of_fault hn]

/-- To drain, take in more bytes and drain again is to take them in and drain once, but that a fault is final. -/
theorem drain_push (d : Demuxer) (more : Bytes) :
    (d.push more).drain = match d.drain with
      | (es, none, d') => (es ++ (d'.push more).drain.1, (d'.push more).drain.2)
      | (es, some f, d') => (es, some f, d'.push more) := by
  induction d using drain.induct with
  | case1 d e d' hn ih =>
    have hp := next_push d more
    rw [hn] at hp
    rw [drain_of_event hp, drain_of_event hn, ih]
    rcases d'.drain with ⟨es, _ | f, d''⟩
    · rfl
    · rfl
  | case2 d d' hn =>
    have hp := next_push d more
    rw [hn] at hp
    rw [drain_of_waiting hn, drain_congr hp]
    rfl
  | case3 d f d' hn =>
    have hp := next_push d more
    rw [hn] at hp
    rw [drain_of_fault hp, drain_of_fault hn]

/-- What has been drained holds no complete element. -/
theorem drain_drain {es : List Event} (h : d.drain = (es, none, d')) : d'.drain = ([], none, d') := by
  have hp := drain_push d []
  rw [push_nil, h] at hp
  simp only [push_nil, Prod.mk.injEq, List.self_eq_append_right] at hp
  exact Prod.ext hp.1 hp.2.symm

end Demuxer

end Flv

/-! ## Decoding -/

namespace Decoder

open Flv (Demuxer)

/-- Take in chunks one after another, each at the time at which it arrived: all units that they complete, and the
decoder after them. -/
def feedAll (d : Decoder) : List (Nat × Bytes) → List StreamUnit × Decoder
  | [] => ([], d)
  | c :: cs =>
    let r := d.feed c.1 c.2
    let t := r.2.feedAll cs
    (r.1 ++ t.1, t.2)

/-- The bytes of all chunks. -/
def bytesOf (cs : List (Nat × Bytes)) : Bytes := (cs.map Prod.snd).flatten

theorem feedAll_append (d : Decoder) (cs ds : List (Nat × Bytes)) : d.feedAll (cs ++ ds) =
    ((d.feedAll cs).1 ++ ((d.feedAll cs).2.feedAll ds).1, ((d.feedAll cs).2.feedAll ds).2) := by
  induction cs generalizing d with
  | nil => rfl
  | cons c cs ih => simp only [List.cons_append, feedAll, ih, List.append_assoc]

theorem feedAll_singleton (d : Decoder) (now : Nat) (bs : Bytes) : d.feedAll [(now, bs)] = d.feed now bs := by
  simp only [feedAll, List.append_nil]

theorem feedAll_failed (d : Demuxer) (cs : List (Nat × Bytes)) :
    (Decoder.flv d true).feedAll cs = ([], .flv d true) := by
  induction cs with
  | nil => rfl
  | cons c cs ih => simp only [feedAll, feed, ih, List.append_nil]

/-- Chunks yield what the whole stream yields, and lead to the same decoder unless it has failed. -/
theorem feedAll_eq {d : Demuxer} (hd : d.drain = ([], none, d)) (cs : List (Nat × Bytes)) :
    ∃ d', (Decoder.flv d false).feedAll cs =
        ((d.push (bytesOf cs)).drain.1.map unitOf, .flv d' (d.push (bytesOf cs)).drain.2.1.isSome) ∧
      ((d.push (bytesOf cs)).drain.2.1 = none → d' = (d.push (bytesOf cs)).drain.2.2) := by
  induction cs generalizing d with
  | nil =>
    have hb : d.push (bytesOf []) = d := Demuxer.push_nil d
    rw [hb, hd]
    exact ⟨d, rfl, fun _ => rfl⟩
  | cons c cs ih =>
    have hb : d.push (bytesOf (c :: cs)) = (d.push c.2).push (bytesOf cs) := (Demuxer.push_push ..).symm
    have hp := Demuxer.drain_push (d.push c.2) (bytesOf cs)
    rw [hb]
    rcases hr : (d.push c.2).drain with ⟨es, o, d₁⟩
    rw [hr] at hp
    cases o with
    | some f =>
      refine ⟨d₁, ?_, fun hn => ?_⟩
      · simp [feedAll, feed, hr, hp, feedAll_failed]
      · rw [hp] at hn
        cases hn
    | none =>
      obtain ⟨d', hf, hn⟩ := ih (Demuxer.drain_drain hr)
      refine ⟨d', ?_, fun ho => ?_⟩
      · simp [feedAll, feed, hr, hp, hf]
      · rw [hp] at ho ⊢
        exact hn ho

/-- Two ways to cut a stream lead an FLV decoder to the same units and to the same verdict on whether the stream could be
read, and if it could, to the same bytes left. -/
theorem feedAll_of_bytes (limit : Nat) {cs ds : List (Nat × Bytes)} (h : bytesOf cs = bytesOf ds) :
    ∃ us failed d₁ d₂, (Decoder.flv { limit := limit } false).feedAll cs = (us, .flv d₁ failed) ∧
      (Decoder.flv { limit := limit } false).feedAll ds = (us, .flv d₂ failed) ∧ (failed = false → d₁ = d₂) := by
  have hempty : ({ limit := limit } : Demuxer).drain = ([], none, { limit := limit }) := Demuxer.drain_of_waiting rfl
  obtain ⟨d₁, h₁, hn₁⟩ := feedAll_eq hempty cs
  obtain ⟨d₂, h₂, hn₂⟩ := feedAll_eq hempty ds
  rw [h] at h₁ hn₁
  refine ⟨_, _, d₁, d₂, h₁, h₂, fun ho => ?_⟩
  have hnone := Option.isSome_eq_false_iff.mp ho
  rw [Option.isNone_iff_eq_none] at hnone
  rw [hn₁ hnone, hn₂ hnone]

end Decoder

end EncoderFleet
