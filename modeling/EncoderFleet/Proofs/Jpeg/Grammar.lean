import EncoderFleet.Proofs.Jpeg.Cuts

/-!
# The grammar of an image

An image is `FF D8`, then items, then a marker `D9` (`IsImage`). An item is a marker that stands alone, a segment behind
its marker, or a segment with coded data behind it (`IsItem`). Coded data goes on for as long as a run of `FF` is
followed by a byte that stuffs it (`IsCoded`), so that what stands behind it opens with a marker of another kind
(`IsItems`).

For each place in an image, `Place.Completes` says which bytes complete it. One byte more leads from the bytes that
complete a place to those that complete the next (`Place.completes_step`), so that the bytes read as an image are those
of the grammar (`readFrom_eq_image`, `isImage_of_read`, `read_of_isImage`). What is an image can so be computed.
-/

namespace EncoderFleet.Jpeg

/-! ## The grammar -/

/-- A marker: a run of `FF` and the byte behind it. -/
def marker (fill : Nat) (b : UInt8) : Bytes := List.replicate (fill + 1) mark ++ [b]

/-- Whether a run of `FF` with this byte behind it is coded data. -/
def Stuffs (b : UInt8) : Prop := b = 0x00 ∨ isRestart b

/-- A segment: two bytes that say how long it is, counting themselves, and its content. -/
inductive IsSegment : Bytes → Prop
  | of (high low : UInt8) (content : Bytes) (h : content.length + 2 = Bytes.word16 high low) :
      IsSegment (high :: low :: content)

/-- Coded data: bytes other than `FF`, and runs of `FF` with a byte behind them that stuffs them. -/
inductive IsCoded : Bytes → Prop
  | nil : IsCoded []
  | plain {b : UInt8} {bs : Bytes} (hb : b ≠ mark) (h : IsCoded bs) : IsCoded (b :: bs)
  | stuffed (fill : Nat) {b : UInt8} {bs : Bytes} (hb : Stuffs b) (h : IsCoded bs) : IsCoded (marker fill b ++ bs)

/-- An item, which the marker `b` opens, behind that marker. -/
inductive IsItem : UInt8 → Bytes → Prop
  | alone {b : UInt8} (hb : standsAlone b) : IsItem b []
  | segment {b : UInt8} {segment : Bytes} (hb : b ∉ [mark, opening, ending, scanHeader]) (ha : ¬standsAlone b)
      (h : IsSegment segment) : IsItem b segment
  | scan {segment coded : Bytes} (h : IsSegment segment) (hc : IsCoded coded) : IsItem scanHeader (segment ++ coded)

/-- Items and the marker that ends an image. Where coded data stands before them, the first marker is none of those that
go on with it. -/
inductive IsItems : Bool → Bytes → Prop
  | ended (behindCoded : Bool) (fill : Nat) : IsItems behindCoded (marker fill ending)
  | item {behindCoded : Bool} (fill : Nat) {b : UInt8} {item rest : Bytes} (hb : behindCoded = true → ¬Stuffs b)
      (hi : IsItem b item) (hr : IsItems (b == scanHeader) rest) : IsItems behindCoded (marker fill b ++ (item ++ rest))

/-- An image. -/
def IsImage (bs : Bytes) : Prop := ∃ items, bs = mark :: opening :: items ∧ IsItems false items

instance : DecidablePred Stuffs := fun b => inferInstanceAs (Decidable (b = 0x00 ∨ isRestart b))

variable {b b' first high : UInt8} {c scan : Bool} {left n k fill : Nat} {bs w rest more item : Bytes} {p : Place}

theorem Stuffs.ne_mark (h : Stuffs b) : b ≠ mark := by
  rintro rfl
  exact absurd h (by decide)

theorem Stuffs.ne_ending (h : Stuffs b) : b ≠ ending := by
  rintro rfl
  exact absurd h (by decide)

/-- What opens an item is none of the bytes that have a meaning of their own there. -/
theorem IsItem.ne (h : IsItem b item) : b ≠ mark ∧ b ≠ ending ∧ b ≠ opening := by
  cases h with
  | alone hb => refine ⟨?_, ?_, ?_⟩ <;> rintro rfl <;> exact absurd hb (by decide)
  | segment hb =>
    simp only [List.mem_cons, not_or] at hb
    exact ⟨hb.1, hb.2.2.1, hb.2.1⟩
  | scan => decide

/-! ## Markers -/

theorem marker_succ (fill : Nat) (b : UInt8) : marker (fill + 1) b = mark :: marker fill b := rfl

/-- What opens with a marker opens with `FF`, and has more than that. -/
theorem eq_mark_of_marker (h : first :: bs = marker fill b ++ more) : first = mark ∧ bs ≠ [] := by
  cases fill with
  | zero =>
    cases h
    exact ⟨rfl, by simp⟩
  | succ fill =>
    cases h
    exact ⟨rfl, by simp⟩

/-- The run of `FF` in a marker is over at the first byte that is none. -/
theorem eq_of_marker (hb : b ≠ mark) (h : mark :: b :: bs = marker fill b' ++ more) : b' = b ∧ more = bs := by
  cases fill with
  | zero =>
    cases h
    exact ⟨rfl, rfl⟩
  | succ fill =>
    rw [marker_succ, List.cons_append, List.cons.injEq] at h
    exact absurd (eq_mark_of_marker h.2).1 hb

/-- One `FF` more in front of a marker fills it. -/
theorem marker_fill (hb : b ≠ mark) :
    (∃ fill, mark :: mark :: bs = marker fill b ++ more) ↔ ∃ fill, mark :: bs = marker fill b ++ more := by
  constructor
  · rintro ⟨fill, h⟩
    cases fill with
    | zero =>
      cases h
      exact absurd rfl hb
    | succ fill =>
      rw [marker_succ, List.cons_append, List.cons.injEq] at h
      exact ⟨fill, h.2⟩
  · rintro ⟨fill, h⟩
    exact ⟨fill + 1, by rw [marker_succ, List.cons_append, h]⟩

/-! ## What a marker opens -/

/-- What stands behind the run of `FF` in a marker: the byte that ends an image, or the byte that opens an item, the
item and the items behind it. -/
def Opened (behindCoded : Bool) (b : UInt8) (bs : Bytes) : Prop :=
  b = ending ∧ bs = [] ∨
    ∃ item rest, bs = item ++ rest ∧ (behindCoded = true → ¬Stuffs b) ∧ IsItem b item ∧ IsItems (b == scanHeader) rest

theorem Opened.ne_mark (h : Opened c b bs) : b ≠ mark := by
  rcases h with ⟨rfl, -⟩ | ⟨item, rest, -, -, hi, -⟩
  · decide
  · exact hi.ne.1

theorem isItems_iff : IsItems c bs ↔ ∃ b opened, Opened c b opened ∧ ∃ fill, bs = marker fill b ++ opened := by
  constructor
  · intro h
    cases h with
    | ended _ fill => exact ⟨ending, [], .inl ⟨rfl, rfl⟩, fill, by simp⟩
    | @item _ fill b item rest hb hi hr => exact ⟨b, item ++ rest, .inr ⟨item, rest, rfl, hb, hi, hr⟩, fill, rfl⟩
  · rintro ⟨b, opened, ⟨rfl, rfl⟩ | ⟨item, rest, rfl, hb, hi, hr⟩, fill, rfl⟩
    · rw [List.append_nil]
      exact .ended c fill
    · exact .item fill hb hi hr

theorem IsItems.eq_mark (h : IsItems c (first :: bs)) : first = mark ∧ bs ≠ [] := by
  obtain ⟨b, opened, -, fill, hw⟩ := isItems_iff.mp h
  exact eq_mark_of_marker hw

theorem not_isItems_nil : ¬IsItems c [] := by
  intro h
  obtain ⟨b, opened, -, fill, hw⟩ := isItems_iff.mp h
  simp [marker] at hw

theorem isItems_fill : IsItems c (mark :: mark :: bs) ↔ IsItems c (mark :: bs) := by
  rw [isItems_iff, isItems_iff]
  constructor
  · rintro ⟨b, opened, ho, h⟩
    exact ⟨b, opened, ho, (marker_fill ho.ne_mark).mp h⟩
  · rintro ⟨b, opened, ho, h⟩
    exact ⟨b, opened, ho, (marker_fill ho.ne_mark).mpr h⟩

theorem isItems_marker (hb : b ≠ mark) : IsItems c (mark :: b :: bs) ↔ Opened c b bs := by
  rw [isItems_iff]
  constructor
  · rintro ⟨b', opened, ho, fill, hw⟩
    obtain ⟨rfl, rfl⟩ := eq_of_marker hb hw
    exact ho
  · intro ho
    exact ⟨b, bs, ho, 0, rfl⟩

/-! ## Coded data -/

/-- What completes an image behind a segment, with coded data first when `scan`. -/
def Behind : Bool → Bytes → Prop
  | false, bs => IsItems false bs
  | true, bs => ∃ coded rest, bs = coded ++ rest ∧ IsCoded coded ∧ IsItems true rest

theorem behind_plain (hb : b ≠ mark) : Behind true (b :: bs) ↔ Behind true bs := by
  constructor
  · rintro ⟨coded, rest, hw, hc, hr⟩
    cases hc with
    | nil =>
      subst hw
      exact absurd hr.eq_mark.1 hb
    | plain _ hc =>
      cases hw
      exact ⟨_, rest, rfl, hc, hr⟩
    | stuffed fill _ _ =>
      rw [List.append_assoc] at hw
      exact absurd (eq_mark_of_marker hw).1 hb
  · rintro ⟨coded, rest, rfl, hc, hr⟩
    exact ⟨b :: coded, rest, rfl, .plain hb hc, hr⟩

/-- Where coded data is not over at an `FF`, a run of `FF` with a byte that stuffs it stands there. -/
theorem behind_mark : Behind true (mark :: bs) ↔
    IsItems true (mark :: bs) ∨
      ∃ b rest, Stuffs b ∧ Behind true rest ∧ ∃ fill, mark :: bs = marker fill b ++ rest := by
  constructor
  · rintro ⟨coded, rest, hw, hc, hr⟩
    cases hc with
    | nil =>
      rw [List.nil_append] at hw
      rw [hw]
      exact .inl hr
    | plain hb _ =>
      cases hw
      exact absurd rfl hb
    | stuffed fill hb hc =>
      rw [List.append_assoc] at hw
      exact .inr ⟨_, _, hb, ⟨_, rest, rfl, hc, hr⟩, fill, hw⟩
  · rintro (h | ⟨b, _, hb, ⟨coded, rest, rfl, hc, hr⟩, fill, hw⟩)
    · exact ⟨[], mark :: bs, rfl, .nil, h⟩
    · exact ⟨marker fill b ++ coded, rest, by rw [hw, List.append_assoc], .stuffed fill hb hc, hr⟩

theorem behind_fill : Behind true (mark :: mark :: bs) ↔ Behind true (mark :: bs) := by
  rw [behind_mark, behind_mark, isItems_fill]
  refine or_congr_right ⟨?_, ?_⟩
  · rintro ⟨b, rest, hb, hr, h⟩
    exact ⟨b, rest, hb, hr, (marker_fill hb.ne_mark).mp h⟩
  · rintro ⟨b, rest, hb, hr, h⟩
    exact ⟨b, rest, hb, hr, (marker_fill hb.ne_mark).mpr h⟩

theorem behind_stuffed (hb : Stuffs b) : Behind true (mark :: b :: bs) ↔ Behind true bs := by
  rw [behind_mark, isItems_marker hb.ne_mark]
  constructor
  · rintro ((⟨he, -⟩ | ⟨_, _, -, hn, -⟩) | ⟨b', rest, -, hr, fill, hw⟩)
    · exact absurd he hb.ne_ending
    · exact absurd hb (hn rfl)
    · obtain ⟨rfl, rfl⟩ := eq_of_marker hb.ne_mark hw
      exact hr
  · intro h
    exact .inr ⟨b, bs, hb, h, 0, rfl⟩

/-- A marker that no byte stuffs ends coded data and is read as any other. -/
theorem behind_marker (hm : b ≠ mark) (hb : ¬Stuffs b) :
    Behind true (mark :: b :: bs) ↔ IsItems false (mark :: b :: bs) := by
  rw [behind_mark, isItems_marker hm, isItems_marker hm]
  constructor
  · rintro ((h | ⟨item, rest, hw, -, hi, hr⟩) | ⟨b', rest, hb', -, fill, hw⟩)
    · exact .inl h
    · exact .inr ⟨item, rest, hw, nofun, hi, hr⟩
    · obtain ⟨rfl, rfl⟩ := eq_of_marker hm hw
      exact absurd hb' hb
  · rintro (h | ⟨item, rest, hw, -, hi, hr⟩)
    · exact .inl (.inl h)
    · exact .inl (.inr ⟨item, rest, hw, fun _ => hb, hi, hr⟩)

/-! ## What completes an image -/

/-- A segment, and what completes an image behind it. -/
def InSegment (scan : Bool) (bs : Bytes) : Prop :=
  ∃ segment rest, bs = segment ++ rest ∧ IsSegment segment ∧ Behind scan rest

theorem opened_ending : Opened c ending bs ↔ bs = [] := by
  constructor
  · rintro (⟨-, h⟩ | ⟨_, _, -, -, hi, -⟩)
    · exact h
    · exact absurd rfl hi.ne.2.1
  · intro h
    exact .inl ⟨rfl, h⟩

theorem not_opened_opening : ¬Opened c opening bs := by
  rintro (⟨he, -⟩ | ⟨_, _, -, -, hi, -⟩)
  · exact absurd he (by decide)
  · exact hi.ne.2.2 rfl

theorem opened_alone (he : b ≠ ending) (ha : standsAlone b) : Opened false b bs ↔ IsItems false bs := by
  have hs : (b == scanHeader) = false := by
    rw [beq_eq_false_iff_ne]
    rintro rfl
    exact absurd ha (by decide)
  constructor
  · rintro (h | ⟨_, rest, rfl, -, hi, hr⟩)
    · exact absurd h.1 he
    · rw [hs] at hr
      cases hi with
      | alone => exact hr
      | segment _ hn => exact absurd ha hn
      | scan => exact absurd ha (by decide)
  · intro h
    exact .inr ⟨[], bs, rfl, nofun, .alone ha, by rwa [hs]⟩

/-- Any other marker opens a segment. -/
theorem opened_segment (hb : b ∉ [mark, opening, ending]) (ha : ¬standsAlone b) :
    Opened false b bs ↔ InSegment (b == scanHeader) bs := by
  simp only [List.mem_cons, List.not_mem_nil, or_false, not_or] at hb
  by_cases hs : b = scanHeader
  · subst hs
    constructor
    · rintro (h | ⟨_, rest, rfl, -, hi, hr⟩)
      · exact absurd h.1 hb.2.2
      · cases hi with
        | alone hb => exact absurd hb ha
        | segment hb => simp at hb
        | scan h hc => exact ⟨_, _, List.append_assoc .., h, _, rest, rfl, hc, hr⟩
    · rintro ⟨segment, _, rfl, h, coded, rest, rfl, hc, hr⟩
      exact .inr ⟨segment ++ coded, rest, by rw [List.append_assoc], nofun, .scan h hc, hr⟩
  · have hs' : (b == scanHeader) = false := beq_eq_false_iff_ne.mpr hs
    rw [hs']
    constructor
    · rintro (h | ⟨_, rest, rfl, -, hi, hr⟩)
      · exact absurd h.1 hb.2.2
      · rw [hs'] at hr
        cases hi with
        | alone hb => exact absurd hb ha
        | segment _ _ h => exact ⟨_, rest, rfl, h, hr⟩
        | scan => exact absurd rfl hs
    · rintro ⟨segment, rest, rfl, h, hr⟩
      exact .inr ⟨segment, rest, rfl, nofun, .segment (by simp [hb, hs]) ha h, by rwa [hs']⟩

/-- The bytes that complete an image from a place on. What the place has kept of a marker or of a length stands in front
of them. -/
def Place.Completes : Place → Bytes → Prop
  | .between, bs => IsItems false bs
  | .begun first, bs => IsItems false (first :: bs)
  | .length scan, bs => InSegment scan bs
  | .lengthHigh scan high, bs => InSegment scan (high :: bs)
  | .segment scan left, bs => ∃ content rest, bs = content ++ rest ∧ content.length = max left 1 ∧ Behind scan rest
  | .coded, bs => Behind true bs
  | .codedMark, bs => Behind true (Jpeg.mark :: bs)

/-- The bytes that complete an image from where a byte has led. -/
def Move.Completes : Move → Bytes → Prop
  | .to p, bs => p.Completes bs
  | .ended, bs => bs = []
  | .broken, _ => False

namespace Place

/-- In a segment with no byte to come, the reader is past it. -/
theorem completes_inSegment : (inSegment scan left).Completes bs ↔
    ∃ content rest, bs = content ++ rest ∧ content.length = left ∧ Behind scan rest := by
  unfold inSegment
  split
  next h =>
    subst h
    have hnone : (∃ content rest, bs = content ++ rest ∧ content.length = 0 ∧ Behind scan rest) ↔ Behind scan bs := by
      constructor
      · rintro ⟨content, rest, rfl, hl, h⟩
        rwa [List.length_eq_zero_iff.mp hl]
      · intro h
        exact ⟨[], bs, rfl, rfl, h⟩
    rw [hnone]
    cases scan with
    | false => rfl
    | true => rfl
  next h => rw [Completes, Nat.max_eq_left (by omega)]

theorem completes_segment (b : UInt8) :
    (segment scan left).Completes (b :: bs) ↔ (inSegment scan (left - 1)).Completes bs := by
  rw [completes_inSegment]
  constructor
  · rintro ⟨content, rest, hw, hl, h⟩
    cases content with
    | nil =>
      rw [List.length_nil] at hl
      omega
    | cons b' content =>
      cases hw
      rw [List.length_cons] at hl
      exact ⟨content, rest, rfl, by omega, h⟩
  · rintro ⟨content, rest, rfl, hl, h⟩
    refine ⟨b :: content, rest, rfl, ?_, h⟩
    rw [List.length_cons]
    omega

/-- Both bytes of a length are there: it counts them. -/
theorem completes_lengthHigh :
    (lengthHigh scan high).Completes (b :: bs) ↔ ((lengthHigh scan high).step b).Completes bs := by
  simp only [step]
  constructor
  · rintro ⟨_, rest, hw, ⟨high, low, content, hl⟩, h⟩
    cases hw
    rw [if_neg (by omega), Move.Completes, completes_inSegment]
    exact ⟨content, rest, rfl, by omega, h⟩
  · intro h
    split at h
    · cases h
    next hn =>
      rw [Move.Completes, completes_inSegment] at h
      obtain ⟨content, rest, rfl, hl, h⟩ := h
      exact ⟨high :: b :: content, rest, rfl, .of high b content (by omega), h⟩

/-- The second byte of a marker leads to what the marker opens. -/
theorem completes_mark : IsItems false (Jpeg.mark :: b :: bs) ↔ (mark b).Completes bs := by
  unfold mark
  split
  next hm =>
    subst hm
    exact isItems_fill
  next hm =>
    rw [isItems_marker hm]
    split
    next he =>
      subst he
      exact opened_ending
    next he =>
      split
      next ha => exact opened_alone he ha
      next ha =>
        split
        next ho =>
          subst ho
          exact iff_of_false not_opened_opening id
        next ho => exact opened_segment (by simp [hm, ho, he]) ha

/-- One byte more leads from the bytes that complete an image to those that complete it from the next place on. -/
theorem completes_step (p : Place) (b : UInt8) (bs : Bytes) : p.Completes (b :: bs) ↔ (p.step b).Completes bs := by
  cases p with
  | between => rfl
  | begun first =>
    simp only [step]
    split
    next h =>
      subst h
      exact completes_mark
    next h => exact ⟨fun hi => h hi.eq_mark.1, False.elim⟩
  | length scan => rfl
  | lengthHigh scan high => exact completes_lengthHigh
  | segment scan left => exact completes_segment b
  | coded =>
    simp only [step]
    split
    next h =>
      subst h
      rfl
    next h => exact behind_plain h
  | codedMark =>
    simp only [step]
    split
    next h =>
      subst h
      exact behind_fill
    next h =>
      split
      next hb => exact behind_stuffed hb
      next hb => exact (behind_marker h hb).trans completes_mark

/-- An image is never over before its last byte. -/
theorem not_completes_nil (p : Place) : ¬p.Completes [] := by
  cases p with
  | between => exact not_isItems_nil
  | begun first => exact fun h => h.eq_mark.2 rfl
  | length scan =>
    rintro ⟨_, rest, hw, ⟨high, low, content, -⟩, -⟩
    cases hw
  | lengthHigh scan high =>
    rintro ⟨_, rest, hw, ⟨high, low, content, -⟩, -⟩
    cases hw
  | segment scan left =>
    rintro ⟨content, rest, hw, hl, -⟩
    rw [(List.append_eq_nil_iff.mp hw.symm).1, List.length_nil] at hl
    omega
  | coded =>
    rintro ⟨coded, rest, hw, -, hr⟩
    rw [(List.append_eq_nil_iff.mp hw.symm).2] at hr
    exact not_isItems_nil hr
  | codedMark =>
    intro h
    rcases behind_mark.mp h with h | ⟨b, rest, -, -, fill, hw⟩
    · exact h.eq_mark.2 rfl
    · exact (eq_mark_of_marker hw).2 rfl

end Place

/-- The bytes that are read as the rest of an image are those that complete it. -/
theorem readFrom_eq_image :
    readFrom p n bs = .image k ↔ ∃ w rest, bs = w ++ rest ∧ p.Completes w ∧ k = n + w.length := by
  induction bs generalizing p n with
  | nil =>
    constructor
    · nofun
    · rintro ⟨w, rest, hw, h, -⟩
      rw [(List.append_eq_nil_iff.mp hw.symm).1] at h
      exact absurd h p.not_completes_nil
  | cons b bs ih =>
    have hcons : (∃ w rest, b :: bs = w ++ rest ∧ p.Completes w ∧ k = n + w.length) ↔
        ∃ w rest, bs = w ++ rest ∧ (p.step b).Completes w ∧ k = n + 1 + w.length := by
      constructor
      · rintro ⟨w, rest, hw, h, hk⟩
        cases w with
        | nil => exact absurd h p.not_completes_nil
        | cons b' w =>
          cases hw
          rw [List.length_cons] at hk
          exact ⟨w, rest, rfl, (p.completes_step b w).mp h, by omega⟩
      · rintro ⟨w, rest, rfl, h, hk⟩
        refine ⟨b :: w, rest, rfl, (p.completes_step b w).mpr h, ?_⟩
        rw [List.length_cons]
        omega
    rw [hcons, readFrom]
    cases p.step b with
    | «to» q => exact ih
    | ended =>
      constructor
      · intro h
        cases h
        exact ⟨[], bs, rfl, rfl, rfl⟩
      · rintro ⟨w, rest, -, rfl, rfl⟩
        rfl
    | broken =>
      constructor
      · nofun
      · rintro ⟨w, rest, -, h, -⟩
        exact h.elim

/-- What is read as an image is one. -/
theorem isImage_of_read (ho : opens bs = true) (h : read bs = .image k) : IsImage (bs.take k) := by
  match bs, ho with
  | a :: b :: bs, ho =>
    simp only [opens, Bool.and_eq_true, beq_iff_eq] at ho
    obtain ⟨rfl, rfl⟩ := ho
    obtain ⟨items, rest, rfl, hi, rfl⟩ := readFrom_eq_image.mp h
    refine ⟨items, ?_, hi⟩
    rw [Nat.add_comm, List.take_succ_cons, List.take_succ_cons, List.take_left]

/-- An image is read, whatever stands behind it. -/
theorem read_of_isImage (h : IsImage w) (rest : Bytes) : read (w ++ rest) = .image w.length := by
  obtain ⟨items, rfl, hi⟩ := h
  refine readFrom_eq_image.mpr ⟨items, rest, rfl, hi, ?_⟩
  rw [List.length_cons, List.length_cons]
  omega

theorem IsImage.opens (h : IsImage w) (rest : Bytes) : opens (w ++ rest) = true := by
  obtain ⟨items, rfl, -⟩ := h
  rfl

/-- Images are the bytes that open like one and are read as one to their end. -/
theorem isImage_iff : IsImage w ↔ Jpeg.opens w = true ∧ read w = .image w.length := by
  constructor
  · intro h
    have ho := h.opens []
    have hr := read_of_isImage h []
    rw [List.append_nil] at ho hr
    exact ⟨ho, hr⟩
  · rintro ⟨ho, hr⟩
    have h := isImage_of_read ho hr
    rwa [List.take_length] at h

instance : DecidablePred IsImage := fun _ => decidable_of_iff _ isImage_iff.symm

/-- A segment may hold a whole picture, which does not end the image that the segment is in. -/
example : IsImage [0xFF, 0xD8, 0xFF, 0xE1, 0, 6, 0xFF, 0xD8, 0xFF, 0xD9, 0xFF, 0xDA, 0, 2, 7, 0xFF, 0xD9] := by decide

end EncoderFleet.Jpeg
