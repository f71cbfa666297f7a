import EncoderFleet.Proofs.Jpeg.Grammar
import Mathlib.Algebra.GroupWithZero.Nat

/-!
# A splitter gives out the images of the grammar

A splitter takes in bytes and is asked for images, in any order (`Splitter.Runs`). Whatever the bytes are, they are made
of gaps and images in turn: the images are those that it gave out, the bytes of the gaps are those that it counted, and
what it still holds comes last (`Splitter.Runs.pieces`).

Where a stream is made of images of the grammar and gaps in which none opens, it is drained to those images
(`Splitter.drain_weave`). A splitter whose limit the stream does not exceed comes to the same, however the stream is cut
and whenever the splitter is asked (`Splitter.Runs.drain`). So it accepts the grammar and nothing else
(`Splitter.gives_out_grammar`).
-/

namespace EncoderFleet.Jpeg

/-- An image and the gap in front of it. -/
structure Piece where
  gap : Bytes
  image : Bytes

/-- The stream of these pieces, with `last` behind them. -/
def weave (ps : List Piece) (last : Bytes) : Bytes := ps.flatMap (fun p => p.gap ++ p.image) ++ last

/-- How many bytes are in gaps. -/
def inGaps (ps : List Piece) (last : Bytes) : Nat := (ps.map fun p => p.gap.length).sum + last.length

/-- A gap: no image opens in it. -/
def IsGap (gap : Bytes) : Prop := ¬[mark, opening] <:+: gap

instance : DecidablePred IsGap := fun gap => inferInstanceAs (Decidable ¬[mark, opening] <:+: gap)

/-- What is held back of the last gap: an `FF` at its end, which may become an opening. -/
def kept (last : Bytes) : Bytes := if last.getLast? = some mark then [mark] else []

/-- What bytes a splitter with this limit has taken in, what images it has given out, and where it is then. -/
inductive Splitter.Runs (limit : Nat) : Bytes → List Bytes → Splitter → Prop
  | start : Runs limit [] [] { limit := limit }
  | push {bs : Bytes} {images : List Bytes} {s : Splitter} (h : Runs limit bs images s) (more : Bytes) :
      Runs limit (bs ++ more) images (s.push more)
  | ask {bs : Bytes} {images : List Bytes} {s : Splitter} (h : Runs limit bs images s) :
      Runs limit bs (images ++ s.next.1.toList) s.next.2

variable {limit n : Nat} {bs gap last image more : Bytes} {ps : List Piece} {images : List Bytes} {s : Splitter}

theorem weave_append (ps : List Piece) (last more : Bytes) : weave ps last ++ more = weave ps (last ++ more) := by
  rw [weave, weave, List.append_assoc]

theorem weave_cons (p : Piece) (ps : List Piece) (last : Bytes) :
    weave (p :: ps) last = p.gap ++ (p.image ++ weave ps last) := by
  simp only [weave, List.flatMap_cons, List.append_assoc]

theorem weave_snoc (ps : List Piece) (p : Piece) (last : Bytes) :
    weave (ps ++ [p]) last = weave ps (p.gap ++ (p.image ++ last)) := by
  simp only [weave, List.flatMap_append, List.flatMap_singleton, List.append_assoc]

theorem inGaps_cons (p : Piece) (ps : List Piece) (last : Bytes) :
    inGaps (p :: ps) last = p.gap.length + inGaps ps last := by
  simp only [inGaps, List.map_cons, List.sum_cons]
  omega

/-! ## What is given out is of the grammar -/

/-- What a search leaves: a gap was dropped, and what was taken behind it is an image. -/
def Search.Cuts (r : Search) (n : Nat) (bs : Bytes) : Prop :=
  ∃ gap, bs = gap ++ (r.taken ++ r.rest) ∧ r.dropped = n + gap.length ∧ ∀ image ∈ r.image, IsImage image

/-- Bytes dropped before a search belong to the gap. -/
theorem Search.Cuts.behind {r : Search} {k : Nat} (hk : k ≤ bs.length) (h : r.Cuts (n + k) (bs.drop k)) :
    r.Cuts n bs := by
  obtain ⟨gap, hw, hd, hi⟩ := h
  refine ⟨bs.take k ++ gap, ?_, ?_, hi⟩
  · rw [List.append_assoc, ← hw, List.take_append_drop]
  · rw [hd, List.length_append, List.length_take, Nat.min_eq_left hk, Nat.add_assoc]

theorem cuts_search (limit n : Nat) (bs : Bytes) : (search limit n bs).Cuts n bs := by
  have nothing : ∀ m cs, Search.Cuts ⟨none, cs, m⟩ m cs := fun m cs => ⟨[], rfl, rfl, nofun⟩
  fun_induction search limit n bs with
  | case1 n bs ho k hr =>
    refine .behind (lead_le bs) ⟨[], ?_, rfl, ?_⟩
    · exact (List.take_append_drop k (seek bs)).symm
    · rintro image ⟨⟩
      exact isImage_of_read ho hr
  | case2 n bs ho hr hb ih => exact .behind (lead_le bs) (.behind (two_le_length_of_opens ho) ih)
  | case3 n bs ho hr hb => exact .behind (lead_le bs) (nothing _ _)
  | case4 n bs ho hr ih => exact .behind (lead_le bs) (.behind (two_le_length_of_opens ho) ih)
  | case5 n bs ho => exact .behind (lead_le bs) (nothing _ _)

namespace Splitter

/-- What a splitter took in is made of the images that it gave out, with the bytes that it counted between them, and of
what it still holds. -/
theorem Runs.pieces (h : Runs limit bs images s) :
    ∃ ps gap, bs = weave ps (gap ++ s.buffer) ∧ images = ps.map Piece.image ∧ (∀ p ∈ ps, IsImage p.image) ∧
      s.discarded = inGaps ps gap := by
  induction h with
  | start => exact ⟨[], [], rfl, rfl, nofun, rfl⟩
  | push h more ih =>
    obtain ⟨ps, gap, rfl, hi, himage, hd⟩ := ih
    refine ⟨ps, gap, ?_, hi, himage, hd⟩
    rw [weave_append, List.append_assoc]
    rfl
  | @ask bs images s h ih =>
    obtain ⟨ps, gap, rfl, rfl, himage, hd⟩ := ih
    obtain ⟨gap', hw, hdropped, hfound⟩ := cuts_search s.limit s.discarded s.buffer
    have hdropped' : s.next.2.discarded = s.discarded + gap'.length := hdropped
    rw [Search.taken] at hw
    cases hi : (search s.limit s.discarded s.buffer).image with
    | none =>
      refine ⟨ps, gap ++ gap', ?_, ?_, himage, ?_⟩
      · rw [hi] at hw
        rw [hw, List.append_assoc]
        rfl
      · simp [next, hi]
      · rw [hdropped', hd, inGaps, inGaps, List.length_append]
        omega
    | some image =>
      refine ⟨ps ++ [⟨gap ++ gap', image⟩], [], ?_, ?_, ?_, ?_⟩
      · rw [hi] at hw
        rw [weave_snoc, hw, List.append_assoc]
        rfl
      · simp [next, hi]
      · intro p hp
        rcases List.mem_append.mp hp with hp | hp
        · exact himage p hp
        · rw [List.mem_singleton.mp hp]
          exact hfound image hi
      · rw [hdropped', hd]
        simp only [inGaps, List.map_append, List.map_singleton, List.sum_append, List.sum_singleton, List.length_append,
          List.length_nil]
        omega

end Splitter

/-! ## What is of the grammar is given out -/

theorem IsGap.tail {b : UInt8} (h : IsGap (b :: gap)) : IsGap gap := fun hi => h (List.infix_cons hi)

theorem IsGap.not_opening {a b : UInt8} (h : IsGap (a :: b :: gap)) : ¬(a = mark ∧ b = opening) := by
  rintro ⟨rfl, rfl⟩
  exact h ⟨[], gap, rfl⟩

/-- A gap before an image is dropped. The `FF` that opens the image opens none with the byte before it. -/
theorem lead_of_isGap (h : IsGap gap) (ho : opens bs = true) :
    lead (gap ++ bs) = gap.length ∧ seek (gap ++ bs) = bs := by
  suffices hl : lead (gap ++ bs) = gap.length from ⟨hl, by rw [seek, hl, List.drop_left]⟩
  have hopen := lead_of_opens ho
  obtain - | ⟨a, - | ⟨b, bs⟩⟩ := bs
  · cases ho
  · cases ho
  · simp only [opens, Bool.and_eq_true, beq_iff_eq] at ho
    obtain ⟨rfl, rfl⟩ := ho
    induction gap with
    | nil => exact hopen
    | cons c gap ih =>
      rw [List.length_cons, ← ih h.tail]
      cases gap with
      | nil =>
        rw [List.cons_append, List.nil_append, lead_cons_cons, if_neg]
        rintro ⟨-, hm⟩
        exact absurd hm (by decide)
      | cons d gap => rw [List.cons_append, List.cons_append, lead_cons_cons, if_neg h.not_opening]

/-- All of a last gap is dropped but for what is held back of it. -/
theorem lead_of_last : ∀ {last : Bytes}, IsGap last →
    lead last + (kept last).length = last.length ∧ seek last = kept last
  | [], _ => ⟨rfl, rfl⟩
  | [b], _ => by
    by_cases hb : b = mark
    · subst hb
      exact ⟨rfl, rfl⟩
    · simp [seek, lead_singleton, kept, hb]
  | a :: b :: gap, h => by
    obtain ⟨hl, hs⟩ := lead_of_last h.tail
    have hlead : lead (a :: b :: gap) = lead (b :: gap) + 1 := by rw [lead_cons_cons, if_neg h.not_opening]
    have hkept : kept (a :: b :: gap) = kept (b :: gap) := by simp only [kept, List.getLast?_cons_cons]
    constructor
    · rw [hlead, hkept, List.length_cons, ← hl]
      omega
    · rw [hkept, ← hs, seek, hlead]
      rfl

theorem not_opens_kept (last : Bytes) : opens (kept last) = false := by
  unfold kept
  split <;> rfl

namespace Splitter

theorem next_of_piece (hg : IsGap gap) (hi : IsImage image) (n : Nat) (rest : Bytes) :
    next ⟨limit, gap ++ (image ++ rest), n⟩ = (some image, ⟨limit, rest, n + gap.length⟩) := by
  have ho := hi.opens rest
  obtain ⟨hl, hs⟩ := lead_of_isGap hg ho
  have hsearch : search limit n (gap ++ (image ++ rest)) = ⟨some image, rest, n + gap.length⟩ := by
    rw [search, hs, hl, dif_pos ho, read_of_isImage hi rest]
    simp only [List.take_left, List.drop_left]
  simp only [next, hsearch]

theorem next_of_last (hg : IsGap last) (n : Nat) :
    next ⟨limit, last, n⟩ = (none, ⟨limit, kept last, n + (last.length - (kept last).length)⟩) := by
  obtain ⟨hl, hs⟩ := lead_of_last hg
  have hsearch : search limit n last = ⟨none, kept last, n + (last.length - (kept last).length)⟩ := by
    rw [search, hs, dif_neg (by simp [not_opens_kept]), ← hl, Nat.add_sub_cancel]
  simp only [next, hsearch]

/-- Images of the grammar with gaps between them are drained to those images. -/
theorem drain_weave (hps : ∀ p ∈ ps, IsGap p.gap ∧ IsImage p.image) (hlast : IsGap last) (n : Nat) :
    drain ⟨limit, weave ps last, n⟩ =
      (ps.map Piece.image, ⟨limit, kept last, n + (inGaps ps last - (kept last).length)⟩) := by
  induction ps generalizing n with
  | nil =>
    have hn : next ⟨limit, last, n⟩ = _ := next_of_last hlast n
    rw [weave, List.flatMap_nil, List.nil_append, drain_of_next_none hn, inGaps, List.map_nil, List.map_nil,
      List.sum_nil, Nat.zero_add]
  | cons p ps ih =>
    obtain ⟨hg, hi⟩ := hps p List.mem_cons_self
    have hle : (kept last).length ≤ inGaps ps last := by
      have := (lead_of_last hlast).1
      rw [inGaps]
      omega
    have hn : next ⟨limit, _, n⟩ = _ := next_of_piece hg hi n (weave ps last)
    have hcount : n + p.gap.length + (inGaps ps last - (kept last).length) =
        n + (p.gap.length + inGaps ps last - (kept last).length) := by omega
    rw [weave_cons, drain_of_next hn, ih (fun q hq => hps q (List.mem_cons_of_mem p hq)), inGaps_cons, List.map_cons,
      hcount]

theorem Runs.limit_eq (h : Runs limit bs images s) : s.limit = limit := by
  induction h with
  | start => rfl
  | push _ _ ih => exact ih
  | ask _ ih => exact ih

theorem Runs.length_buffer_le (h : Runs limit bs images s) : s.buffer.length ≤ bs.length := by
  obtain ⟨ps, gap, rfl, -⟩ := h.pieces
  simp only [weave, List.length_append]
  omega

/-- A splitter that is drained at the end has given out what it gives out when it takes in everything first, if its
limit is no less than that. -/
theorem Runs.drain (h : Runs limit bs images s) (hl : bs.length ≤ limit) :
    Splitter.drain ⟨limit, bs, 0⟩ = (images ++ s.drain.1, s.drain.2) := by
  induction h with
  | start => rfl
  | @push bs images s h more ih =>
    rw [List.length_append] at hl
    have hlimit := h.limit_eq
    have hle := h.length_buffer_le
    have hwhole : (Splitter.push ⟨limit, bs, 0⟩ more).drain = _ := drain_push hl
    have hhere : (s.push more).drain = _ := drain_push (by omega)
    rw [ih (by omega)] at hwhole
    rw [hhere, ← List.append_assoc]
    exact hwhole
  | @ask bs images s h ih =>
    rw [ih hl]
    rcases hn : s.next with ⟨_ | image, s'⟩
    · -- To ask again changes nothing.
      have hfits : s.buffer.length + ([] : Bytes).length ≤ s.limit := by
        rw [h.limit_eq]
        exact Nat.le_trans h.length_buffer_le hl
      have hagain := next_push hfits
      rw [hn, push_nil] at hagain
      rw [drain_congr hagain, push_nil]
      simp
    · rw [drain_of_next hn]
      simp

/-- A splitter gives out the images of the grammar. Take any bytes, in whatever portions and asked for in whatever way,
under any limit: they are made of the images given out, each of the grammar, in order and apart from each other, of the
bytes counted as dropped, and of those still held. Take images of the grammar with gaps before, between and behind them
in which none opens, and a limit no less than all of them: the splitter gives out exactly those images, and drops the
gaps, but for an `FF` at the end of the last one, which it holds back. -/
theorem gives_out_grammar (limit : Nat) :
    (∀ bs images s, Runs limit bs images s →
      ∃ ps gap, bs = weave ps (gap ++ s.buffer) ∧ images = ps.map Piece.image ∧ (∀ p ∈ ps, IsImage p.image) ∧
        s.discarded = inGaps ps gap) ∧
    ∀ ps last, (∀ p ∈ ps, IsGap p.gap ∧ IsImage p.image) → IsGap last → (weave ps last).length ≤ limit →
      ∀ images s, Runs limit (weave ps last) images s →
        images ++ s.drain.1 = ps.map Piece.image ∧ s.drain.2.buffer = kept last ∧
          s.drain.2.discarded = inGaps ps last - (kept last).length := by
  refine ⟨fun bs images s h => h.pieces, ?_⟩
  intro ps last hps hlast hle images s h
  have hdrain := h.drain hle
  rw [drain_weave hps hlast 0, Nat.zero_add, Prod.mk.injEq] at hdrain
  refine ⟨hdrain.1.symm, ?_, ?_⟩
  · rw [← hdrain.2]
  · rw [← hdrain.2]

/-- Two images, the first with a picture inside a segment, filled markers, a marker that stands alone, a restart inside
its coded data and a second scan. An `FF` stands before each of them and behind both. The stream comes in two portions,
and the splitter is asked after the first of them and after the second. -/
theorem gives_out_grammar_of_two :
    let first : Bytes := [0xFF, 0xD8, 0xFF, 0xFF, 0xE1, 0, 6, 0xFF, 0xD8, 0xFF, 0xD9, 0xFF, 0x01, 0xFF, 0xDA, 0, 3, 9,
      7, 0xFF, 0xFF, 0, 0xFF, 0xD3, 8, 0xFF, 0xDA, 0, 2, 0xFF, 0xFF, 0xD9]
    let second : Bytes := [0xFF, 0xD8, 0xFF, 0xD9]
    let ps : List Piece := [⟨[0x41, 0xFF], first⟩, ⟨[0xD8, 0xFF], second⟩]
    (∀ p ∈ ps, IsGap p.gap ∧ IsImage p.image) ∧ IsGap [0, 0xFF] ∧ (weave ps [0, 0xFF]).length ≤ 42 ∧
      ∃ images s, Runs 42 (weave ps [0, 0xFF]) images s ∧ images = [first] ∧
        images ++ s.drain.1 = [first, second] ∧ s.drain.2.buffer = [0xFF] ∧ s.drain.2.discarded = 5 := by
  intro first second ps
  have hps : ∀ p ∈ ps, IsGap p.gap ∧ IsImage p.image := by decide
  have hlast : IsGap [0, 0xFF] := by decide
  have hle : (weave ps [0, 0xFF]).length ≤ 42 := by decide
  have hrun : Runs 42 _ _ _ := (Runs.start.push ((weave ps [0, 0xFF]).take 20)).ask.push ((weave ps [0, 0xFF]).drop 20)
  rw [List.nil_append, List.take_append_drop] at hrun
  refine ⟨hps, hlast, hle, _, _, hrun.ask, by decide +kernel, ?_⟩
  exact (gives_out_grammar 42).2 ps [0, 0xFF] hps hlast hle _ _ hrun.ask

end Splitter

end EncoderFleet.Jpeg
