import EncoderFleet.Jpeg.Splitter

/-!
# Images do not depend on where a stream is cut

A stream of images comes in chunks, and the splitter is drained after each. What a reader has decided on the front of a
stream it decides on the whole stream as well (`readFrom_append`), and what was dropped before an image is dropped all
the same when more bytes are there (`lead_append`). So as long as the limit never binds, to drain, push and drain again
is to push and drain once (`drain_push`), and chunks give what the whole stream gives (`feed_eq_drain`).

The limit binds when an incomplete image has outgrown it (`overflows`). Where it does not, it has no say in what is
found (`search_eq_of_not_overflows`), and two ways to cut a stream lead to the same images, the same bytes left and the
same number dropped (`images_of_stream`).
-/

namespace EncoderFleet.Jpeg

/-- Whether a search meets an image that is not complete with more than `limit` bytes there. -/
def overflows (limit : Nat) (bs : Bytes) : Bool :=
  if _h : opens (seek bs) then
    match read (seek bs) with
    | .image _ => false
    | .short => Bytes.hasAtLeast (limit + 1) (seek bs)
    | .broken => overflows limit ((seek bs).drop 2)
  else false
termination_by bs.length
decreasing_by
  have h₁ := length_seek bs
  have h₂ := two_le_length_of_opens _h
  simp only [List.length_drop]
  omega

namespace Splitter

/-- Whether the limit binds while the splitter is drained. -/
def overflows (s : Splitter) : Bool :=
  Jpeg.overflows s.limit s.buffer ||
    match _h : s.next with
    | (some _, s') => s'.overflows
    | (none, _) => false
termination_by s.buffer.length
decreasing_by exact length_of_next ‹_›

/-- Take in chunks one after another and drain the splitter after each: the images, and the splitter after them. -/
def feed (s : Splitter) : List Bytes → List Bytes × Splitter
  | [] => ([], s)
  | c :: cs =>
    let r := (s.push c).drain
    let t := r.2.feed cs
    (r.1 ++ t.1, t.2)

/-- Whether the chunks go through the splitter without the limit ever binding. -/
def fits (s : Splitter) : List Bytes → Bool
  | [] => true
  | c :: cs => !(s.push c).overflows && (s.push c).drain.2.fits cs

end Splitter

variable {limit n : Nat} {bs more : Bytes}

/-! ## Reading on -/

/-- What was decided stays decided when more bytes come in. -/
theorem readFrom_append {p : Place} (h : readFrom p n bs ≠ .short) :
    readFrom p n (bs ++ more) = readFrom p n bs := by
  induction bs generalizing p n with
  | nil => exact absurd rfl h
  | cons b bs ih =>
    rw [List.cons_append]
    unfold readFrom at h ⊢
    cases hs : p.step b with
    | «to» q =>
      simp only [hs] at h ⊢
      exact ih h
    | ended => rfl
    | broken => rfl

theorem read_append (h₂ : 2 ≤ bs.length) (h : read bs ≠ .short) : read (bs ++ more) = read bs := by
  unfold read at h ⊢
  rw [List.drop_append_of_le_length h₂]
  exact readFrom_append h

/-! ## What stands before an image -/

theorem leadFrom_eq (n : Nat) (bs : Bytes) : leadFrom n bs = n + lead bs := by
  have shift : ∀ k, leadFrom (k + n) bs = n + leadFrom k bs := by
    intro k
    fun_induction leadFrom k bs with
    | case1 => simp [leadFrom]; omega
    | case2 => simp [leadFrom]; omega
    | case3 k b hb => simp [leadFrom, hb]; omega
    | case4 k a b bs h => simp [leadFrom, h]; omega
    | case5 k a b bs h ih =>
      rw [leadFrom, if_neg h, ← ih]
      congr 1
      omega
  have h := shift 0
  rwa [Nat.zero_add] at h

theorem lead_singleton (b : UInt8) : lead [b] = if b = mark then 0 else 1 := by
  simp only [lead, leadFrom, Nat.zero_add]

theorem lead_cons_cons (a b : UInt8) (bs : Bytes) :
    lead (a :: b :: bs) = if a = mark ∧ b = opening then 0 else lead (b :: bs) + 1 := by
  simp only [lead, leadFrom]
  split
  · rfl
  · rw [leadFrom_eq, lead]
    omega

/-- A byte that opens nothing is dropped, whatever comes behind it. -/
theorem lead_cons_of_ne {a : UInt8} (h : a ≠ mark) (bs : Bytes) : lead (a :: bs) = lead bs + 1 := by
  cases bs with
  | nil => rw [lead_singleton, if_neg h]; rfl
  | cons b bs => rw [lead_cons_cons, if_neg fun h' => h h'.1]

/-- What was dropped before an image is dropped all the same when more bytes are there. -/
theorem lead_append (bs more : Bytes) : lead (bs ++ more) = lead bs + lead (seek bs ++ more) := by
  match bs with
  | [] => simp [seek, lead, leadFrom]
  | [b] =>
    by_cases hb : b = mark
    · simp [seek, lead_singleton, hb]
    · have hs : seek [b] = [] := by simp [seek, lead_singleton, hb]
      rw [hs, lead_singleton, if_neg hb, List.singleton_append, lead_cons_of_ne hb, List.nil_append]
      omega
  | a :: b :: bs =>
    by_cases hab : a = mark ∧ b = opening
    · have hs : seek (a :: b :: bs) = a :: b :: bs := by simp [seek, lead_cons_cons, hab]
      rw [hs, lead_cons_cons, if_pos hab, Nat.zero_add]
    · have ih := lead_append (b :: bs) more
      have hl : lead (a :: b :: bs) = lead (b :: bs) + 1 := by rw [lead_cons_cons, if_neg hab]
      have hs : seek (a :: b :: bs) = seek (b :: bs) := by rw [seek, hl]; rfl
      have hm : lead (a :: b :: bs ++ more) = lead (b :: bs ++ more) + 1 := by
        rw [List.cons_append, List.cons_append, lead_cons_cons, if_neg hab]
      rw [hs, hl, hm, ih]
      omega

theorem seek_append (bs more : Bytes) : seek (bs ++ more) = seek (seek bs ++ more) := by
  have hle := lead_le bs
  have hd : (bs ++ more).drop (lead bs) = seek bs ++ more := List.drop_append_of_le_length hle
  show (bs ++ more).drop (lead (bs ++ more)) = (seek bs ++ more).drop (lead (seek bs ++ more))
  rw [lead_append, ← List.drop_drop, hd]

theorem lead_of_opens (h : opens bs = true) : lead bs = 0 := by
  match bs, h with
  | a :: b :: bs, h =>
    simp only [opens, Bool.and_eq_true, beq_iff_eq] at h
    rw [lead_cons_cons, if_pos h]

theorem seek_of_opens (h : opens bs = true) : seek bs = bs := by
  rw [seek, lead_of_opens h]
  rfl

theorem opens_append (h : opens bs = true) : opens (bs ++ more) = true := by
  match bs, h with
  | _ :: _ :: _, h => exact h

/-- Where an image opens, it opens at the same place when more bytes are there. -/
theorem seek_append_of_opens (h : opens (seek bs) = true) (more : Bytes) :
    seek (bs ++ more) = seek bs ++ more ∧ lead (bs ++ more) = lead bs := by
  have ho : opens (seek bs ++ more) = true := opens_append h
  constructor
  · rw [seek_append, seek_of_opens ho]
  · rw [lead_append, lead_of_opens ho]
    rfl

/-! ## Searching on -/

/-- A search depends on what stands before the first image only by the count of it. -/
theorem search_seek (limit n : Nat) (bs more : Bytes) :
    search limit n (bs ++ more) = search limit (n + lead bs) (seek bs ++ more) := by
  rw [search.eq_1 limit n, search.eq_1 limit (n + lead bs), seek_append bs more, lead_append bs more, ← Nat.add_assoc]

/-- What the search makes of all bytes, from what it has made of the first of them. -/
def Search.goOn (limit : Nat) (s : Search) (more : Bytes) : Search :=
  match s.image with
  | some image => ⟨some image, s.rest ++ more, s.dropped⟩
  | none => search limit s.dropped (s.rest ++ more)

/-- To search, take in more bytes and search on is to search all bytes at once, where the limit does not bind. -/
theorem search_append (h : (bs ++ more).length ≤ limit) :
    search limit n (bs ++ more) = (search limit n bs).goOn limit more := by
  fun_induction search limit n bs with
  | case1 n bs ho k hr =>
    have h₂ := two_le_length_of_opens ho
    obtain ⟨hs, hl⟩ := seek_append_of_opens ho more
    have hra : read (seek bs ++ more) = .image k := by
      rw [read_append h₂ (by simp [hr]), hr]
    have hk := (read_image hr h₂).2
    rw [search, hs, hl, dif_pos (opens_append ho), hra]
    simp only [Search.goOn, List.take_append_of_le_length hk, List.drop_append_of_le_length hk]
  | case2 n bs ho hr hb =>
    -- The limit would bind.
    have hlen := length_seek bs
    rw [Bytes.hasAtLeast_iff] at hb
    rw [List.length_append] at h
    omega
  | case3 n bs ho hr hb => exact search_seek limit n bs more
  | case4 n bs ho hr ih =>
    have h₂ := two_le_length_of_opens ho
    have hlen := length_seek bs
    obtain ⟨hs, hl⟩ := seek_append_of_opens ho more
    have hra : read (seek bs ++ more) = .broken := by
      rw [read_append h₂ (by simp [hr]), hr]
    rw [search, hs, hl, dif_pos (opens_append ho), hra, List.drop_append_of_le_length h₂]
    apply ih
    simp only [List.length_append, List.length_drop] at h ⊢
    omega
  | case5 n bs ho => exact search_seek limit n bs more

/-- Where the limit does not bind it has no say in what is found. -/
theorem search_eq_of_not_overflows {wide : Nat} (h : overflows limit bs = false) (hw : bs.length ≤ wide) :
    search wide n bs = search limit n bs := by
  fun_induction search limit n bs with
  | case1 n bs ho k hr => rw [search, dif_pos ho, hr]
  | case2 n bs ho hr hb =>
    have h' : overflows limit bs = Bytes.hasAtLeast (limit + 1) (seek bs) := by rw [overflows, dif_pos ho, hr]
    rw [← h', h] at hb
    cases hb
  | case3 n bs ho hr hb =>
    have hlen := length_seek bs
    have hwide : ¬Bytes.hasAtLeast (wide + 1) (seek bs) = true := by
      rw [Bytes.hasAtLeast_iff]
      omega
    rw [search, dif_pos ho, hr]
    simp only [hwide, Bool.false_eq_true, if_false]
  | case4 n bs ho hr ih =>
    have hlen := length_seek bs
    have h' : overflows limit ((seek bs).drop 2) = false := by
      rw [overflows, dif_pos ho, hr] at h
      exact h
    rw [search, dif_pos ho, hr]
    apply ih h'
    simp only [List.length_drop]
    omega
  | case5 n bs ho => rw [search, dif_neg ho]

theorem le_dropped (limit n : Nat) (bs : Bytes) : n ≤ (search limit n bs).dropped := by
  fun_induction search limit n bs with
  | case1 => simp
  | case2 n bs ho hr hb ih => omega
  | case3 => simp
  | case4 n bs ho hr ih => omega
  | case5 => simp

theorem length_rest_le (limit n : Nat) (bs : Bytes) : (search limit n bs).rest.length ≤ bs.length := by
  have hb := length_search limit n bs
  have hd := le_dropped limit n bs
  omega

/-! ## Draining -/

namespace Splitter

variable {s s' : Splitter} {image : Bytes} {wide : Nat} {cs ds : List Bytes}

theorem drain_of_next (h : s.next = (some image, s')) : s.drain = (image :: s'.drain.1, s'.drain.2) := by
  rw [drain]
  split
  · next i t ht =>
    rw [h] at ht
    cases ht
    rfl
  · next t ht =>
    rw [h] at ht
    cases ht

theorem drain_of_next_none (h : s.next = (none, s')) : s.drain = ([], s') := by
  rw [drain]
  split
  · next i t ht =>
    rw [h] at ht
    cases ht
  · next t ht =>
    rw [h] at ht
    cases ht
    rfl

theorem drain_congr {t : Splitter} (h : s.next = t.next) : s.drain = t.drain := by
  rcases ht : t.next with ⟨r, s'⟩
  rw [ht] at h
  cases r with
  | some image => rw [drain_of_next h, drain_of_next ht]
  | none => rw [drain_of_next_none h, drain_of_next_none ht]

theorem le_of_next {r : Option Bytes} (h : s.next = (r, s')) :
    s'.buffer.length ≤ s.buffer.length ∧ s'.limit = s.limit := by
  simp only [next, Prod.mk.injEq] at h
  rw [← h.2]
  exact ⟨length_rest_le _ _ _, rfl⟩

/-- Draining leaves no more than was there, and the limit stays. -/
theorem drain_le (s : Splitter) : s.drain.2.buffer.length ≤ s.buffer.length ∧ s.drain.2.limit = s.limit := by
  induction s using drain.induct with
  | case1 s image s' hn ih =>
    obtain ⟨hle, hl⟩ := le_of_next hn
    rw [drain_of_next hn]
    exact ⟨Nat.le_trans ih.1 hle, ih.2.trans hl⟩
  | case2 s s' hn =>
    rw [drain_of_next_none hn]
    exact le_of_next hn

@[simp] theorem push_nil (s : Splitter) : s.push [] = s := by
  simp [push]

theorem push_push (s : Splitter) (bs cs : Bytes) : (s.push bs).push cs = s.push (bs ++ cs) := by
  simp [push]

theorem next_push (h : s.buffer.length + more.length ≤ s.limit) :
    (s.push more).next = match s.next with
      | (some image, s') => (some image, s'.push more)
      | (none, s') => (s'.push more).next := by
  have ha : search s.limit s.discarded (s.buffer ++ more) = (search s.limit s.discarded s.buffer).goOn s.limit more :=
    search_append (by simpa using h)
  simp only [next, push, ha, Search.goOn]
  cases hi : (search s.limit s.discarded s.buffer).image with
  | some image => rfl
  | none => rfl

/-- To drain, take in more bytes and drain again is to take them in and drain once, where the limit does not bind. -/
theorem drain_push (h : s.buffer.length + more.length ≤ s.limit) :
    (s.push more).drain = (s.drain.1 ++ (s.drain.2.push more).drain.1, (s.drain.2.push more).drain.2) := by
  induction s using drain.induct with
  | case1 s image s' hn ih =>
    have hp := next_push h
    obtain ⟨hle, hl⟩ := le_of_next hn
    rw [hn] at hp
    rw [drain_of_next hp, drain_of_next hn, ih (by omega)]
    rfl
  | case2 s s' hn =>
    have hp := next_push h
    rw [hn] at hp
    rw [drain_of_next_none hn, drain_congr hp]
    rfl

/-- Chunks give what the whole stream gives, where the limit does not bind. -/
theorem feed_eq_drain (h : s.buffer.length + cs.flatten.length ≤ s.limit) :
    (s.drain.1 ++ (s.drain.2.feed cs).1, (s.drain.2.feed cs).2) = (s.push cs.flatten).drain := by
  induction cs generalizing s with
  | nil => simp [feed]
  | cons c cs ih =>
    rw [List.flatten_cons, List.length_append] at h
    obtain ⟨hle, hl⟩ := s.drain_le
    have hc : (s.drain.2.push c).buffer.length + cs.flatten.length ≤ (s.drain.2.push c).limit := by
      simp only [push, List.length_append]
      omega
    have ih := ih hc
    rw [← List.length_append] at h
    rw [List.flatten_cons, drain_push h, ← push_push, ← ih]
    simp [feed]

/-! ## The limit -/

/-- The splitter with another limit. -/
def withLimit (s : Splitter) (limit : Nat) : Splitter := { s with limit := limit }

theorem withLimit_withLimit (s : Splitter) (l₁ l₂ : Nat) : (s.withLimit l₁).withLimit l₂ = s.withLimit l₂ := rfl

theorem withLimit_eq (h : s.limit = limit) : s.withLimit limit = s := by
  rw [← h]
  rfl

theorem next_withLimit (h : Jpeg.overflows s.limit s.buffer = false) (hw : s.buffer.length ≤ wide) :
    (s.withLimit wide).next = (s.next.1, s.next.2.withLimit wide) := by
  simp only [next, withLimit, search_eq_of_not_overflows h hw]

theorem overflows_of_next (h : s.overflows = false) :
    Jpeg.overflows s.limit s.buffer = false ∧ ∀ image s', s.next = (some image, s') → s'.overflows = false := by
  rw [overflows, Bool.or_eq_false_iff] at h
  refine ⟨h.1, fun image s' hn => ?_⟩
  have h₂ := h.2
  split at h₂
  · next i t ht =>
    rw [hn] at ht
    cases ht
    exact h₂
  · next t ht =>
    rw [hn] at ht
    cases ht

theorem drain_withLimit (h : s.overflows = false) (hw : s.buffer.length ≤ wide) :
    (s.withLimit wide).drain = (s.drain.1, s.drain.2.withLimit wide) := by
  induction s using drain.induct with
  | case1 s image s' hn ih =>
    obtain ⟨ho, hlater⟩ := overflows_of_next h
    have hwide := next_withLimit ho hw
    have hle := (le_of_next hn).1
    rw [hn] at hwide
    rw [drain_of_next hwide, drain_of_next hn, ih (hlater image s' hn) (by omega)]
  | case2 s s' hn =>
    have hwide := next_withLimit (overflows_of_next h).1 hw
    rw [hn] at hwide
    rw [drain_of_next_none hwide, drain_of_next_none hn]

/-- Chunks that fit give what they give under any greater limit. -/
theorem feed_withLimit (h : s.fits cs = true) (hw : s.buffer.length + cs.flatten.length ≤ wide) :
    (s.withLimit wide).feed cs = ((s.feed cs).1, (s.feed cs).2.withLimit wide) := by
  induction cs generalizing s with
  | nil => rfl
  | cons c cs ih =>
    rw [List.flatten_cons, List.length_append] at hw
    rw [fits, Bool.and_eq_true, Bool.not_eq_true'] at h
    have hpush : (s.push c).buffer.length = s.buffer.length + c.length := by simp [push]
    have hb : (s.push c).buffer.length ≤ wide := by omega
    have hd : ((s.withLimit wide).push c).drain = ((s.push c).drain.1, (s.push c).drain.2.withLimit wide) :=
      drain_withLimit h.1 hb
    have hle := (s.push c).drain_le.1
    have ih := ih h.2 (by omega)
    simp only [feed, hd, ih]

theorem feed_limit (s : Splitter) (cs : List Bytes) : (s.feed cs).2.limit = s.limit := by
  induction cs generalizing s with
  | nil => rfl
  | cons c cs ih => exact (ih _).trans (s.push c).drain_le.2

/-- Take a stream of images and two ways to cut it into chunks, such that in neither the limit ever binds. Then both lead
to the same images and to the same splitter: the same bytes are left, and the same number of bytes was dropped. -/
theorem images_of_stream (limit : Nat) (h : cs.flatten = ds.flatten) (hc : fits { limit := limit } cs = true)
    (hd : fits { limit := limit } ds = true) : feed { limit := limit } cs = feed { limit := limit } ds := by
  -- Under a limit that the whole stream does not exceed, each of them is the drained whole stream.
  have whole : ∀ {es : List Bytes}, fits { limit := limit } es = true →
      ((feed { limit := limit } es).1, (feed { limit := limit } es).2.withLimit es.flatten.length) =
        (({ limit := es.flatten.length } : Splitter).push es.flatten).drain := by
    intro es he
    have hle : ({ limit := es.flatten.length } : Splitter).buffer.length + es.flatten.length ≤ es.flatten.length :=
      Nat.le_of_eq (Nat.zero_add _)
    have hw := feed_withLimit he hle
    have hf := feed_eq_drain hle
    have hnone : ({ limit := es.flatten.length } : Splitter).drain = ([], { limit := es.flatten.length }) :=
      drain_of_next_none (by simp [next, search, seek, opens, lead, leadFrom])
    rw [hnone] at hf
    rw [← hw, ← hf]
    rfl
  have he := whole hc
  rw [h, ← whole hd, Prod.mk.injEq] at he
  have hs := congrArg (withLimit · limit) he.2
  have hlimit : ∀ es, (feed { limit := limit } es).2.withLimit limit = (feed { limit := limit } es).2 :=
    fun es => withLimit_eq (feed_limit _ es)
  simp only [withLimit_withLimit, hlimit] at hs
  exact Prod.ext he.1 hs

/-- Two small images in a stream, with a byte before them, a false opening between them and half an opening behind. -/
def twoImages : Bytes :=
  [0x41, 0xFF, 0xD8, 0xFF, 0xDA, 0, 2, 7, 0xFF, 0xD9, 0xFF, 0xD8, 0, 0, 0xFF, 0xD8, 0xFF, 0xDA, 0, 2, 8, 0xFF, 0xD9, 0xFF]

/-- The stream is longer than the limit. It may come byte by byte, or cut behind the first byte of the false opening. -/
theorem images_of_two_cuts :
    (twoImages.map fun b => [b]).flatten = [twoImages.take 11, twoImages.drop 11].flatten ∧
      fits { limit := 16 } (twoImages.map fun b => [b]) = true ∧
      fits { limit := 16 } [twoImages.take 11, twoImages.drop 11] = true ∧
      feed { limit := 16 } (twoImages.map fun b => [b]) = feed { limit := 16 } [twoImages.take 11, twoImages.drop 11] ∧
      (feed { limit := 16 } [twoImages.take 11, twoImages.drop 11]).2 =
        { limit := 16, buffer := [0xFF], discarded := 5 } := by
  have h : (twoImages.map fun b => [b]).flatten = [twoImages.take 11, twoImages.drop 11].flatten := by decide
  have hc : fits { limit := 16 } (twoImages.map fun b => [b]) = true := by decide +kernel
  have hd : fits { limit := 16 } [twoImages.take 11, twoImages.drop 11] = true := by decide +kernel
  have hs : (feed { limit := 16 } [twoImages.take 11, twoImages.drop 11]).2 =
      { limit := 16, buffer := [0xFF], discarded := 5 } := by decide +kernel
  exact ⟨h, hc, hd, images_of_stream 16 h hc hd, hs⟩

end Splitter

end EncoderFleet.Jpeg
