import EncoderFleet.Proofs.Jpeg.Pieces

/-!
# What a limit binds

A search that finds no image leaves no more than the limit: whatever outgrew it has lost its opening, and where no image
opens, at most half an opening is left (`length_of_search_none`). So what waits for more bytes is within the limit, and
an image is no longer than the limit and what came in since the splitter was last asked in vain (`Splitter.Since`).

An image that is complete when the splitter is asked is not measured. Up to its last portion it waits, and the splitter
leaves it as it is while it is within the limit (`Splitter.drain_front`), and drops its opening as soon as it is not
(`Splitter.next_front_overflowing`). So it comes through exactly if what had come of it before the last portion was
within the limit, however long it is itself (`Splitter.limit_binds_what_waits`).
-/

namespace EncoderFleet.Jpeg

variable {limit n : Nat} {bs front rest image : Bytes}

/-! ## What a search leaves -/

theorem seek_cons_cons (a b : UInt8) (bs : Bytes) :
    seek (a :: b :: bs) = if a = mark ∧ b = opening then a :: b :: bs else seek (b :: bs) := by
  rw [seek, lead_cons_cons]
  split <;> rfl

/-- Where no image opens, at most half an opening is left. -/
theorem length_seek_le_one : ∀ {bs : Bytes}, opens (seek bs) = false → (seek bs).length ≤ 1
  | [], _ => Nat.zero_le 1
  | [b], _ => by
    rw [seek, List.length_drop, List.length_singleton]
    omega
  | a :: b :: bs, h => by
    rw [seek_cons_cons] at h ⊢
    split at h
    · next hab => simp [opens, hab] at h
    · next hab =>
      rw [if_neg hab]
      exact length_seek_le_one h

/-- A search that finds nothing leaves no more than may wait. -/
theorem length_of_search_none (h : (search limit n bs).image = none) :
    (search limit n bs).rest.length ≤ max limit 1 := by
  fun_induction search limit n bs with
  | case1 => cases h
  | case2 n bs ho hr hb ih => exact ih h
  | case3 n bs ho hr hb =>
    rw [Bytes.hasAtLeast_iff] at hb
    dsimp only
    omega
  | case4 n bs ho hr ih => exact ih h
  | case5 n bs ho => exact Nat.le_trans (length_seek_le_one (Bool.eq_false_iff.mpr ho)) (Nat.le_max_right limit 1)

namespace Splitter

variable {fresh : Nat} {s s' : Splitter} {held last : Bytes} {cs : List Bytes}

theorem length_of_next_none (h : s.next = (none, s')) : s'.buffer.length ≤ max s.limit 1 := by
  rw [next, Prod.mk.injEq] at h
  obtain ⟨hnone, rfl⟩ := h
  exact length_of_search_none hnone

theorem length_of_next_some (h : s.next = (some image, s')) :
    image.length + s'.buffer.length ≤ s.buffer.length := by
  rw [next, Prod.mk.injEq] at h
  obtain ⟨hsome, rfl⟩ := h
  have hlength := length_search s.limit s.discarded s.buffer
  have hdropped := le_dropped s.limit s.discarded s.buffer
  rw [Search.taken, hsome, Option.getD_some] at hlength
  dsimp only
  omega

/-! ## Since a splitter was asked in vain -/

/-- Where a splitter with this limit may be, and how many bytes it has taken in since it was last asked in vain. -/
inductive Since (limit : Nat) : Nat → Splitter → Prop
  | start : Since limit 0 { limit := limit }
  | push {fresh : Nat} {s : Splitter} (h : Since limit fresh s) (more : Bytes) :
      Since limit (fresh + more.length) (s.push more)
  | found {fresh : Nat} {s s' : Splitter} {image : Bytes} (h : Since limit fresh s) (hn : s.next = (some image, s')) :
      Since limit fresh s'
  | vain {fresh : Nat} {s s' : Splitter} (h : Since limit fresh s) (hn : s.next = (none, s')) : Since limit 0 s'

theorem Since.limit_eq (h : Since limit fresh s) : s.limit = limit := by
  induction h with
  | start => rfl
  | push _ _ ih => exact ih
  | found _ hn ih => exact (le_of_next hn).2.trans ih
  | vain _ hn ih => exact (le_of_next hn).2.trans ih

/-- What was there when a splitter was asked in vain was within the limit. -/
theorem Since.length_buffer_le (hl : 1 ≤ limit) (h : Since limit fresh s) : s.buffer.length ≤ limit + fresh := by
  induction h with
  | start => exact Nat.zero_le _
  | push h more ih =>
    rw [Splitter.push, List.length_append]
    omega
  | found h hn ih => exact Nat.le_trans (le_of_next hn).1 ih
  | vain h hn ih =>
    have hle := length_of_next_none hn
    rw [h.limit_eq] at hle
    omega

/-! ## An image in portions -/

/-- An image of which not all has come is not decided on. -/
theorem read_front (h : IsImage (front ++ rest)) (hne : rest ≠ []) (h₂ : 2 ≤ front.length) : read front = .short := by
  refine Decidable.byContradiction fun hread => ?_
  have hwhole := (isImage_iff.mp h).2
  rw [read_append h₂ hread] at hwhole
  have hle := (read_image hwhole h₂).2
  have hpos := List.length_pos_iff.mpr hne
  rw [List.length_append] at hle
  omega

theorem opens_front (h : IsImage (front ++ rest)) (h₂ : 2 ≤ front.length) : opens front = true := by
  obtain ⟨items, himage, -⟩ := h
  match front, h₂ with
  | a :: b :: front, _ =>
    simp only [List.cons_append, List.cons.injEq] at himage
    simp [opens, himage.1, himage.2.1]

/-- The beginning of an image is left as it is while it is within the limit. -/
theorem next_front (h : IsImage (front ++ rest)) (hne : rest ≠ []) (hle : front.length ≤ limit) (n : Nat) :
    next ⟨limit, front, n⟩ = (none, ⟨limit, front, n⟩) := by
  have hsearch : search limit n front = ⟨none, front, n⟩ := by
    rcases Nat.lt_or_ge front.length 2 with hshort | h₂
    · obtain ⟨items, himage, -⟩ := h
      match front, hshort with
      | [], _ => simp [search, seek, opens, lead, leadFrom]
      | [a], _ =>
        simp only [List.cons_append, List.cons.injEq] at himage
        simp [search, seek, opens, lead, leadFrom, himage.1]
    · have ho := opens_front h h₂
      have hfits : ¬Bytes.hasAtLeast (limit + 1) front = true := by
        rw [Bytes.hasAtLeast_iff]
        omega
      rw [search, seek_of_opens ho, lead_of_opens ho, dif_pos ho, read_front h hne h₂]
      simp only [if_neg hfits, Nat.add_zero]
  simp only [next, hsearch]

theorem drain_front (h : IsImage (front ++ rest)) (hne : rest ≠ []) (hle : front.length ≤ limit) (n : Nat) :
    drain ⟨limit, front, n⟩ = ([], ⟨limit, front, n⟩) := drain_of_next_none (next_front h hne hle n)

/-- The beginning of an image loses its opening when it has outgrown the limit. -/
theorem next_front_overflowing (h : IsImage (front ++ rest)) (hne : rest ≠ []) (hl : 1 ≤ limit)
    (hlt : limit < front.length) (n : Nat) :
    next ⟨limit, front, n⟩ = next ⟨limit, front.drop 2, n + 2⟩ := by
  have h₂ : 2 ≤ front.length := by omega
  have ho := opens_front h h₂
  have hover : Bytes.hasAtLeast (limit + 1) front = true := Bytes.hasAtLeast_iff.mpr hlt
  have hsearch : search limit n front = search limit (n + 2) (front.drop 2) := by
    rw [search, seek_of_opens ho, lead_of_opens ho, dif_pos ho, read_front h hne h₂]
    simp only [hover, if_true, Nat.add_zero]
  simp only [next, hsearch]

theorem length_of_mem_drain (h : image ∈ s.drain.1) : image.length ≤ s.buffer.length := by
  induction s using drain.induct with
  | case1 s first s' hn ih =>
    have hlength := length_of_next_some hn
    rw [drain_of_next hn] at h
    rcases List.mem_cons.mp h with rfl | h
    · omega
    · have := ih h
      omega
  | case2 s s' hn =>
    rw [drain_of_next_none hn] at h
    cases h

/-- No image is longer than all that was there or came in. -/
theorem length_of_mem_feed (h : image ∈ (s.feed cs).1) : image.length ≤ s.buffer.length + cs.flatten.length := by
  induction cs generalizing s with
  | nil => cases h
  | cons c cs ih =>
    have hpush : (s.push c).buffer.length = s.buffer.length + c.length := List.length_append
    rw [List.flatten_cons, List.length_append]
    rcases List.mem_append.mp h with h | h
    · have := length_of_mem_drain h
      omega
    · have := ih h
      have := (s.push c).drain_le.1
      omega

theorem feed_cons_of_drain {c : Bytes} {t : Splitter} (h : (s.push c).drain = t.drain) (cs : List Bytes) :
    s.feed (c :: cs) = t.feed ([] :: cs) := by
  simp only [feed, push_nil, h]

/-- An image of which something within the limit is held comes through exactly if all that comes of it before its last
portion is within the limit. -/
theorem mem_feed_iff (hl : 1 ≤ limit) (h : IsImage (held ++ (cs.flatten ++ last))) (hne : last ≠ [])
    (hheld : held.length ≤ limit) (n : Nat) :
    held ++ (cs.flatten ++ last) ∈ (feed ⟨limit, held, n⟩ (cs ++ [last])).1 ↔
      (held ++ cs.flatten).length ≤ limit := by
  induction cs generalizing held with
  | nil =>
    rw [List.flatten_nil, List.nil_append] at h ⊢
    have hnext : next ⟨limit, [] ++ (held ++ last ++ []), n⟩ = _ := next_of_piece (by decide) h n []
    rw [List.nil_append, List.append_nil] at hnext
    refine iff_of_true (List.mem_append_left _ ?_) (by rwa [List.append_nil])
    rw [show push ⟨limit, held, n⟩ last = ⟨limit, held ++ last, n⟩ from rfl, drain_of_next hnext]
    exact List.mem_cons_self
  | cons c cs ih =>
    have hwhole : held ++ ((c :: cs).flatten ++ last) = held ++ c ++ (cs.flatten ++ last) := by
      simp only [List.flatten_cons, List.append_assoc]
    have hcame : held ++ (c :: cs).flatten = held ++ c ++ cs.flatten := by
      rw [List.flatten_cons, List.append_assoc]
    rw [hwhole] at h
    rw [hwhole, hcame, List.cons_append]
    have hrest : cs.flatten ++ last ≠ [] := List.append_ne_nil_of_right_ne_nil _ hne
    rcases Nat.lt_or_ge limit (held ++ c).length with hlt | hle
    · -- The image has lost its opening and cannot come through any more.
      have hdrain : (push ⟨limit, held, n⟩ c).drain = drain ⟨limit, (held ++ c).drop 2, n + 2⟩ :=
        drain_congr (next_front_overflowing h hrest hl hlt n)
      refine iff_of_false (fun hmem => ?_) (by rw [List.length_append]; omega)
      rw [feed_cons_of_drain hdrain] at hmem
      have hle := length_of_mem_feed hmem
      simp only [List.flatten_cons, List.flatten_append, List.flatten_nil, List.length_append, List.length_drop,
        List.length_nil] at hle hlt
      omega
    · have hdrain : (push ⟨limit, held, n⟩ c).drain = ([], ⟨limit, held ++ c, n⟩) := drain_front h hrest hle n
      rw [feed, hdrain]
      exact ih h hle

/-- Take a limit of at least one byte. A splitter that is asked in vain holds no more than the limit, and an image that
it gives out is no longer than the limit and what the splitter has taken in since it was last asked in vain. Longer than
the limit it may be: an image that comes in portions, with the splitter drained after each, comes through if and only if
all that came of it before its last portion was within the limit. -/
theorem limit_binds_what_waits (limit : Nat) (hl : 1 ≤ limit) :
    (∀ fresh s, Since limit fresh s →
      (∀ s', s.next = (none, s') → s'.buffer.length ≤ limit) ∧
        ∀ image s', s.next = (some image, s') → image.length ≤ limit + fresh) ∧
    ∀ cs last, last ≠ [] → IsImage (cs.flatten ++ last) →
      (cs.flatten ++ last ∈ (feed { limit := limit } (cs ++ [last])).1 ↔ cs.flatten.length ≤ limit) := by
  refine ⟨fun fresh s h => ⟨fun s' hn => ?_, fun image s' hn => ?_⟩, fun cs last hne h => ?_⟩
  · have hle := length_of_next_none hn
    rw [h.limit_eq] at hle
    omega
  · have hle := h.length_buffer_le hl
    have hlength := length_of_next_some hn
    omega
  · exact @mem_feed_iff limit [] last cs hl h hne (Nat.zero_le limit) 0

/-- An image of nine bytes. -/
def nineBytes : Bytes := [0xFF, 0xD8, 0xFF, 0xDA, 0, 2, 7, 0xFF, 0xD9]

/-- Under a limit of four bytes the image comes through if it is cut behind four bytes, and then it has the greatest
length that it may have. It does not come through if it is cut behind five. -/
theorem nine_bytes_cut :
    1 ≤ 4 ∧ nineBytes.drop 4 ≠ [] ∧ nineBytes.drop 5 ≠ [] ∧ IsImage nineBytes ∧
      nineBytes ∈ (feed { limit := 4 } [nineBytes.take 4, nineBytes.drop 4]).1 ∧
      nineBytes ∉ (feed { limit := 4 } [nineBytes.take 5, nineBytes.drop 5]).1 ∧
      ∃ fresh s s', Since 4 fresh s ∧ s.next = (some nineBytes, s') ∧ nineBytes.length ≤ 4 + fresh ∧ fresh = 5 := by
  have himage : IsImage nineBytes := by decide
  have hfour := (limit_binds_what_waits 4 (by decide)).2 [nineBytes.take 4] (nineBytes.drop 4) (by decide) himage
  have hfive := (limit_binds_what_waits 4 (by decide)).2 [nineBytes.take 5] (nineBytes.drop 5) (by decide) himage
  have hvain : (push { limit := 4 } (nineBytes.take 4)).next = (none, ⟨4, nineBytes.take 4, 0⟩) := by decide +kernel
  have hfound : (push ⟨4, nineBytes.take 4, 0⟩ (nineBytes.drop 4)).next = (some nineBytes, ⟨4, [], 0⟩) := by
    decide +kernel
  have hsince : Since 4 5 (push ⟨4, nineBytes.take 4, 0⟩ (nineBytes.drop 4)) :=
    ((Since.start.push (nineBytes.take 4)).vain hvain).push (nineBytes.drop 4)
  have hbound := ((limit_binds_what_waits 4 (by decide)).1 5 _ hsince).2 _ _ hfound
  exact ⟨by decide, by decide, by decide, himage, hfour.mpr (by decide), fun hmem => absurd (hfive.mp hmem) (by decide),
    _, _, _, hsince, hfound, hbound, rfl⟩

/-- An image that comes whole is given out, though it is longer than the limit. -/
theorem long_image_given_out :
    ∃ fresh s, Since 4 fresh s ∧ ∃ image s', s.next = (some image, s') ∧ 4 < image.length := by
  have hfound : (push { limit := 4 } nineBytes).next = (some nineBytes, ⟨4, [], 0⟩) := by decide +kernel
  exact ⟨_, _, Since.start.push nineBytes, _, _, hfound, by decide⟩

end Splitter

end EncoderFleet.Jpeg
