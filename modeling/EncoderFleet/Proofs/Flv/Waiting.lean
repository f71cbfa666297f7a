import EncoderFleet.Proofs.Flv.RoundTrip
import Mathlib.Data.List.Basic

/-!
# How much a demuxer holds back

A demuxer that waits holds the beginning of an element that is not complete. Of a tag these are fewer bytes than the
longest tag has that it reads, since a longer one is a fault as soon as its length is there (`WireTag.length_of_short`).
Of the header they are fewer than it states to have, and what it states has no upper bound
(`readHeader_eq_short_iff`).

Until the header has gone by, a demuxer holds all that it has taken in (`Demuxer.run_of_closed`). So a stream can make a
demuxer hold more than its longest tag by its header and by nothing else, and does so exactly if the header states to be
long enough (`Demuxer.held_within_limit_iff`).
-/

namespace EncoderFleet

theorem Bytes.cut?_eq_none_iff {n : Nat} {bs : Bytes} : cut? n bs = none ↔ bs.length < n := by
  rw [cut?_eq]
  split
  · next h => exact iff_of_false (by simp) (Nat.not_lt.mpr h)
  · next h => exact iff_of_true rfl (Nat.not_le.mp h)

namespace Flv

variable {limit offset : Nat} {bs more : Bytes}

/-! ## The header -/

/-- Where the bytes say that their header ends, if they begin as a header does. -/
def statedOffset? : Bytes → Option Nat
  | f :: l :: v :: _ :: _ :: o₁ :: o₂ :: o₃ :: o₄ :: _ =>
    if [f, l, v] = [0x46, 0x4C, 0x56] then some (Bytes.word32 o₁ o₂ o₃ o₄).toNat else none
  | _ => none

theorem headerLength_le_of_statedOffset? (h : statedOffset? bs = some offset) : headerLength ≤ bs.length := by
  unfold statedOffset? at h
  split at h
  · simp only [headerLength, List.length_cons]
    omega
  · cases h

/-- What the first bytes of a stream state, the whole stream states. -/
theorem statedOffset?_append (h : headerLength ≤ bs.length) (more : Bytes) :
    statedOffset? (bs ++ more) = statedOffset? bs := by
  match bs, h with
  | _ :: _ :: _ :: _ :: _ :: _ :: _ :: _ :: _ :: _, _ => rfl

/-- A header is waited for until nine bytes are there, and then until all are that it states to have. -/
theorem readHeader_eq_short_iff : readHeader bs = .short ↔ bs.length < headerLength ∨
    ∃ offset, statedOffset? bs = some offset ∧ headerLength ≤ offset ∧ bs.length < offset + trailerLength := by
  unfold readHeader
  split
  · next f l v a b o₁ o₂ o₃ o₄ rest =>
    have hlong : ¬(f :: l :: v :: a :: b :: o₁ :: o₂ :: o₃ :: o₄ :: rest).length < headerLength := by
      simp only [headerLength, List.length_cons]
      omega
    simp only [hlong, statedOffset?, false_or]
    split
    · simp only [Option.some.injEq, exists_eq_left', ← Bytes.cut?_eq_none_iff]
      split
      · next hsmall => simp [Nat.not_le.mpr hsmall]
      · next hlarge =>
        cases Bytes.cut? ((Bytes.word32 o₁ o₂ o₃ o₄).toNat + trailerLength) _ with
        | none => exact iff_of_true rfl ⟨Nat.not_lt.mp hlarge, rfl⟩
        | some cut => simp
    · simp
  · next hshort =>
    refine iff_of_true rfl (.inl (Nat.not_le.mp fun hle => ?_))
    match bs, hle with
    | f :: l :: v :: a :: b :: o₁ :: o₂ :: o₃ :: o₄ :: rest, _ => exact hshort f l v a b o₁ o₂ o₃ o₄ rest rfl

/-! ## Tags -/

/-- The parts of a tag are found in as many bytes as it says that it has. -/
theorem WireTag.ofBytes?_isSome {size : Nat} (h : bs.length = openingLength + size + trailerLength) :
    (ofBytes? size bs).isSome = true := by
  have hle : openingLength ≤ bs.length := by omega
  match bs, hle with
  | _ :: _ :: _ :: _ :: _ :: _ :: _ :: _ :: _ :: _ :: _ :: rest, _ =>
    have hdrop : (rest.drop size).length = 4 := by
      simp only [openingLength, trailerLength, List.length_cons] at h
      rw [List.length_drop]
      omega
    obtain ⟨p₁, p₂, p₃, p₄, hparts⟩ := List.length_eq_four.mp hdrop
    simp [ofBytes?, hparts]

/-- A tag that is waited for is not there with all its bytes, and its body is no longer than it may be. -/
theorem WireTag.length_of_short (h : read limit bs = .short) :
    bs.length < openingLength + limit + trailerLength := by
  unfold read at h
  split at h
  · next n₁ n₂ n₃ _ _ _ _ _ _ _ _ =>
    dsimp only at h
    split at h
    · cases h
    · next hle =>
      split at h
      · next hcut =>
        rw [Bytes.cut?_eq_none_iff] at hcut
        omega
      · next wire rest hcut =>
        have hparts := ofBytes?_isSome (Bytes.append_of_cut? hcut).2
        split at h
        · cases h
        · next hnone =>
          rw [hnone] at hparts
          cases hparts
  · next hshort =>
    have hlt : bs.length < openingLength := by
      refine Nat.not_le.mp fun hle => ?_
      match bs, hle with
      | a :: b :: c :: d :: e :: f :: g :: i :: j :: k :: l :: rest, _ => exact hshort a b c d e f g i j k l rest rfl
    omega

/-! ## Waiting -/

namespace Demuxer

variable {d d' : Demuxer} {ts : List Turn}

theorem read_of_nextTag_waiting (h : (nextTag limit bs).1 = .waiting) :
    WireTag.read limit (nextTag limit bs).2 = .short := by
  fun_induction nextTag limit bs with
  | case1 bs hr => exact hr
  | case2 => cases h
  | case3 => cases h
  | case4 bs w wire rest hr ht ih => exact ih h

/-- Past the header, a demuxer that waits holds less than the longest tag. -/
theorem length_of_waiting_opened (ho : d.opened = true) (h : d.next = (.waiting, d')) :
    d'.buffer.length < openingLength + d.limit + trailerLength := by
  rw [next, if_pos ho, Prod.mk.injEq] at h
  obtain ⟨hw, rfl⟩ := h
  exact WireTag.length_of_short (read_of_nextTag_waiting hw)

/-- Before the header, a demuxer that waits leaves everything as it is. -/
theorem waiting_closed_iff (ho : d.opened = false) :
    d.next = (.waiting, d') ↔ d' = d ∧ readHeader d.buffer = .short := by
  rw [next, if_neg (by simp [ho])]
  cases readHeader d.buffer <;> simp [eq_comm]

/-- A demuxer that has taken in less than the header states to have waits. -/
theorem waiting_of_statedOffset? (limit : Nat) (hstated : statedOffset? bs = some offset)
    (hle : headerLength ≤ offset) (hlt : bs.length < offset + trailerLength) :
    (({ limit := limit } : Demuxer).push bs).next = (.waiting, ({ limit := limit } : Demuxer).push bs) :=
  (waiting_closed_iff rfl).mpr ⟨rfl, readHeader_eq_short_iff.mpr (.inr ⟨offset, hstated, hle, hlt⟩)⟩

/-- A demuxer before the header has not taken anything off. -/
theorem eq_of_next_closed {o : Outcome} (hn : d.next = (o, d')) (h : d'.opened = false) :
    d.opened = false ∧ d' = d := by
  cases ho : d.opened with
  | true =>
    rw [next, if_pos ho, Prod.mk.injEq] at hn
    obtain ⟨-, rfl⟩ := hn
    exact absurd (ho.symm.trans h) (by decide)
  | false =>
    rw [next, if_neg (by simp [ho])] at hn
    split at hn
    · cases hn
      exact ⟨rfl, rfl⟩
    · cases hn
      exact ⟨rfl, rfl⟩
    · cases hn
      cases h

theorem drain_of_closed (h : d.drain.2.2.opened = false) : d.opened = false ∧ d.drain.2.2 = d := by
  induction d using drain.induct with
  | case1 d e d' hn ih =>
    rw [drain_of_event hn] at h ⊢
    obtain ⟨hclosed, hsame⟩ := ih h
    obtain ⟨ho, rfl⟩ := eq_of_next_closed hn hclosed
    exact ⟨ho, hsame⟩
  | case2 d d' hn =>
    rw [drain_of_waiting hn] at h ⊢
    exact eq_of_next_closed hn h
  | case3 d f d' hn =>
    rw [drain_of_fault hn] at h ⊢
    exact eq_of_next_closed hn h

/-- Until the header has gone by, a demuxer holds all that it has taken in. -/
theorem run_of_closed (h : (d.run ts).2.opened = false) :
    d.opened = false ∧ (d.run ts).2.buffer = d.buffer ++ pushed ts := by
  induction ts generalizing d with
  | nil => exact ⟨h, (List.append_nil _).symm⟩
  | cons t ts ih =>
    cases t with
    | push bs =>
      obtain ⟨hclosed, hbuffer⟩ := ih (d := d.push bs) h
      exact ⟨hclosed, hbuffer.trans (List.append_assoc ..)⟩
    | ask =>
      obtain ⟨hclosed, hbuffer⟩ := ih (d := d.next.2) h
      have hnext : d.next = (d.next.1, d.next.2) := rfl
      obtain ⟨ho, hsame⟩ := eq_of_next_closed hnext hclosed
      exact ⟨ho, hbuffer.trans (by rw [hsame]; rfl)⟩
    | drain =>
      obtain ⟨hclosed, hbuffer⟩ := ih (d := d.drain.2.2) h
      obtain ⟨ho, hsame⟩ := drain_of_closed hclosed
      exact ⟨ho, hbuffer.trans (by rw [hsame]; rfl)⟩

theorem limit_next (d : Demuxer) : d.next.2.limit = d.limit := by
  unfold next
  split
  · rfl
  · split <;> rfl

theorem limit_drain (d : Demuxer) : d.drain.2.2.limit = d.limit := by
  induction d using drain.induct with
  | case1 d e d' hn ih =>
    rw [drain_of_event hn, ih, ← limit_next d, hn]
  | case2 d d' hn => rw [drain_of_waiting hn, ← limit_next d, hn]
  | case3 d f d' hn => rw [drain_of_fault hn, ← limit_next d, hn]

theorem limit_run (d : Demuxer) (ts : List Turn) : (d.run ts).2.limit = d.limit := by
  induction ts generalizing d with
  | nil => rfl
  | cons t ts ih =>
    cases t with
    | push bs => exact ih (d.push bs)
    | ask => exact (ih d.next.2).trans (limit_next d)
    | drain => exact (ih d.drain.2.2).trans (limit_drain d)

/-- A demuxer that waits holds less than the longest tag, or the beginning of a header. -/
theorem waiting_cases (h : (run { limit := limit } ts).2.next = (.waiting, d')) :
    d'.buffer.length ≤ limit + 14 ∨ d'.buffer = pushed ts ∧
      ∃ offset, statedOffset? (pushed ts) = some offset ∧ (pushed ts).length < offset + trailerLength := by
  cases ho : (run { limit := limit } ts).2.opened with
  | true =>
    have hlt := length_of_waiting_opened ho h
    rw [limit_run] at hlt
    simp only [openingLength, trailerLength] at hlt
    exact .inl (by omega)
  | false =>
    obtain ⟨rfl, hshort⟩ := (waiting_closed_iff ho).mp h
    have hbuffer : (run { limit := limit } ts).2.buffer = pushed ts := (run_of_closed ho).2
    rw [hbuffer, readHeader_eq_short_iff] at hshort
    rcases hshort with hlt | ⟨offset, hstated, -, hlt⟩
    · rw [hbuffer]
      simp only [headerLength] at hlt
      exact .inl (by omega)
    · exact .inr ⟨hbuffer, offset, hstated, hlt⟩

/-- Whatever bytes a demuxer takes in, in whatever portions and asked for in whatever way: when it waits, it holds no
more than the longest tag but for its last byte, or it holds all that it has taken in and waits for the header, which
states to be longer than that. So no beginning of a stream makes it hold more than the longest tag if and only if the
stream is no longer itself or its header does not state to be longer than the longest tag. -/
theorem held_within_limit_iff (limit : Nat) :
    (∀ ts d', (run { limit := limit } ts).2.next = (.waiting, d') → d'.buffer.length ≤ limit + 14 ∨
      d'.buffer = pushed ts ∧ ∃ offset, statedOffset? (pushed ts) = some offset ∧ (pushed ts).length < offset + 4) ∧
    ∀ stream : Bytes,
      (∀ ts d', pushed ts <+: stream → (run { limit := limit } ts).2.next = (.waiting, d') →
        d'.buffer.length ≤ limit + 14) ↔
      stream.length ≤ limit + 14 ∨ ∀ offset ∈ statedOffset? stream, offset ≤ limit + 11 := by
  refine ⟨fun ts d' h => waiting_cases h, fun stream => ⟨fun hheld => ?_, fun hstream ts d' hfront h => ?_⟩⟩
  · refine (Nat.lt_or_ge (limit + 14) stream.length).symm.imp id fun hlong offset hoffset => ?_
    by_contra hfar
    -- One byte more than the longest tag has is not yet the header.
    have hlength : (stream.take (limit + 15)).length = limit + 15 := List.length_take_of_le hlong
    have hstated : statedOffset? (stream.take (limit + 15)) = some offset := by
      rw [← hoffset, ← statedOffset?_append (by rw [hlength, headerLength]; omega) (stream.drop (limit + 15)),
        List.take_append_drop]
    have hwaits := waiting_of_statedOffset? limit hstated (by rw [headerLength]; omega)
      (by rw [hlength, trailerLength]; omega)
    have hfront : pushed [.push (stream.take (limit + 15))] <+: stream := by
      rw [pushed, pushed, List.append_nil]
      exact List.take_prefix _ _
    have hle : (stream.take (limit + 15)).length ≤ limit + 14 := hheld _ _ hfront hwaits
    omega
  · rcases waiting_cases h with hle | ⟨hbuffer, offset, hstated, hlt⟩
    · exact hle
    · obtain ⟨more, rfl⟩ := hfront
      rw [hbuffer]
      rcases hstream with hle | hoffset
      · rw [List.length_append] at hle
        omega
      · have hle := hoffset offset ((statedOffset?_append (headerLength_le_of_statedOffset? hstated) more).trans hstated)
        rw [trailerLength] at hlt
        omega

/-- An ordinary header, and a tag with a body of four bytes that lacks its last byte. -/
def unfinished : Bytes :=
  [0x46, 0x4C, 0x56, 1, 1, 0, 0, 0, 9, 0, 0, 0, 0] ++
    [9, 0, 0, 4, 0, 0, 40, 0, 0, 0, 0, 0x17, 0x01, 0xAA, 0xBB, 0, 0, 0]

/-- A demuxer whose longest tag has that body holds as much as it may when it waits for the last byte, in whatever
portions the bytes came. -/
theorem held_of_unfinished :
    let ts : List Turn := [.push (unfinished.take 20), .drain, .push (unfinished.drop 20), .ask]
    ∃ d', pushed ts <+: unfinished ∧ (run { limit := 4 } ts).2.next = (.waiting, d') ∧ d'.buffer.length ≤ 4 + 14 ∧
      d'.buffer.length = 18 := by
  intro ts
  have hfront : pushed ts <+: unfinished := by decide
  have hnext : (run { limit := 4 } ts).2.next = (.waiting, ⟨4, true, unfinished.drop 13⟩) := by decide +kernel
  have hstated : unfinished.length ≤ 4 + 14 ∨ ∀ offset ∈ statedOffset? unfinished, offset ≤ 4 + 11 := by decide
  exact ⟨_, hfront, hnext, ((held_within_limit_iff 4).2 unfinished).mpr hstated ts _ hfront hnext, rfl⟩

/-- A header may state to be as long as four bytes can say, and then a demuxer waits for it, with more bytes than its
longest tag has. -/
theorem endless_header_held :
    ∃ ts d', (run { limit := 4 } ts).2.next = (.waiting, d') ∧ 4 + 14 < d'.buffer.length :=
  ⟨[.push ([0x46, 0x4C, 0x56, 1, 1, 0xFF, 0xFF, 0xFF, 0xFF] ++ List.replicate 20 0)], _, rfl, by decide⟩

end Demuxer

end Flv

end EncoderFleet
