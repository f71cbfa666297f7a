import EncoderFleet.Jpeg.Frame

/-!
# Cutting a stream of images

A `Splitter` takes bytes as they come and gives out the images in them. What stands before an image is dropped, and what
opens like an image but is none loses its opening marker and is searched again; so does an image that outgrows the limit
without being complete. The splitter counts the bytes that it drops: every byte that came in is in an image, or counted,
or still there (`length_search`).
-/

namespace EncoderFleet.Jpeg

/-- Whether an image opens here. -/
def opens : Bytes → Bool
  | a :: b :: _ => a == mark && b == opening
  | _ => false

/-- How many bytes stand before the first opening of an image, `n` more counted. Where none opens, a last `FF` is not
counted: it may be the first half of an opening. -/
def leadFrom (n : Nat) : Bytes → Nat
  | [] => n
  | [b] => if b = mark then n else n + 1
  | a :: b :: bs => if a = mark ∧ b = opening then n else leadFrom (n + 1) (b :: bs)

/-- How many bytes stand before the first opening of an image. -/
def lead (bs : Bytes) : Nat := leadFrom 0 bs

/-- The bytes from the first opening of an image on; without one, what may still become one. -/
def seek (bs : Bytes) : Bytes := bs.drop (lead bs)

theorem leadFrom_le (n : Nat) (bs : Bytes) : leadFrom n bs ≤ n + bs.length := by
  fun_induction leadFrom n bs with
  | case1 => exact Nat.le_refl _
  | case2 => simp
  | case3 => simp
  | case4 => omega
  | case5 n a b bs h ih => simp only [List.length_cons] at ih ⊢; omega

theorem lead_le (bs : Bytes) : lead bs ≤ bs.length := by
  have := leadFrom_le 0 bs
  rwa [Nat.zero_add] at this

theorem length_seek (bs : Bytes) : lead bs + (seek bs).length = bs.length := by
  have := lead_le bs
  simp only [seek, List.length_drop]
  omega

theorem two_le_length_of_opens {bs : Bytes} (h : opens bs = true) : 2 ≤ bs.length := by
  match bs, h with
  | _ :: _ :: _, _ => simp

/-- What a search leaves. -/
structure Search where
  /-- The image, if one was found. -/
  image : Option Bytes
  /-- The bytes behind it. -/
  rest : Bytes
  /-- How many bytes were dropped. -/
  dropped : Nat
deriving DecidableEq

/-- Search for an image, with `n` bytes dropped before. At most `limit` bytes may wait for the end of an image. -/
def search (limit n : Nat) (bs : Bytes) : Search :=
  if _h : opens (seek bs) then
    match read (seek bs) with
    | .image k => ⟨some ((seek bs).take k), (seek bs).drop k, n + lead bs⟩
    | .short =>
      if Bytes.hasAtLeast (limit + 1) (seek bs) then search limit (n + lead bs + 2) ((seek bs).drop 2)
      else ⟨none, seek bs, n + lead bs⟩
    | .broken => search limit (n + lead bs + 2) ((seek bs).drop 2)
  else ⟨none, seek bs, n + lead bs⟩
termination_by bs.length
decreasing_by
  all_goals
    have h₁ := length_seek bs
    have h₂ := two_le_length_of_opens _h
    simp only [List.length_drop]
    omega

/-- The bytes of the image that was found; none if none was found. -/
def Search.taken (s : Search) : Bytes := s.image.getD []

theorem readFrom_image {p : Place} {n k : Nat} {bs : Bytes} (h : readFrom p n bs = .image k) :
    n < k ∧ k ≤ n + bs.length := by
  induction bs generalizing p n with
  | nil => cases h
  | cons b bs ih =>
    unfold readFrom at h
    simp only [List.length_cons]
    split at h
    · have := ih h; omega
    · cases h; omega
    · cases h

theorem read_image {bs : Bytes} {k : Nat} (h : read bs = .image k) (h₂ : 2 ≤ bs.length) : 2 < k ∧ k ≤ bs.length := by
  have := readFrom_image h
  simp only [List.length_drop] at this
  omega

/-- A search loses no byte. -/
theorem length_search (limit n : Nat) (bs : Bytes) :
    (search limit n bs).dropped + (search limit n bs).taken.length + (search limit n bs).rest.length =
      n + bs.length := by
  fun_induction search limit n bs with
  | case1 n bs ho k hr =>
    have h₁ := length_seek bs
    have h₂ := read_image hr (two_le_length_of_opens ho)
    simp only [Search.taken, Option.getD_some, List.length_take, List.length_drop]
    omega
  | case2 n bs ho _ _ ih =>
    have h₁ := length_seek bs
    have h₂ := two_le_length_of_opens ho
    simp only [List.length_drop] at ih
    omega
  | case3 n bs =>
    have h₁ := length_seek bs
    simp only [Search.taken, Option.getD_none, List.length_nil]
    omega
  | case4 n bs ho _ ih =>
    have h₁ := length_seek bs
    have h₂ := two_le_length_of_opens ho
    simp only [List.length_drop] at ih
    omega
  | case5 n bs =>
    have h₁ := length_seek bs
    simp only [Search.taken, Option.getD_none, List.length_nil]
    omega

/-- A search that finds an image takes bytes away. -/
theorem length_rest_search {limit n : Nat} {bs image : Bytes} (h : (search limit n bs).image = some image) :
    (search limit n bs).rest.length < bs.length := by
  fun_induction search limit n bs with
  | case1 n bs ho k hr =>
    have h₁ := length_seek bs
    have h₂ := read_image hr (two_le_length_of_opens ho)
    simp only [List.length_drop]
    omega
  | case2 n bs ho _ _ ih =>
    have h₁ := length_seek bs
    have := ih h
    simp only [List.length_drop] at this
    omega
  | case3 => cases h
  | case4 n bs ho _ ih =>
    have h₁ := length_seek bs
    have := ih h
    simp only [List.length_drop] at this
    omega
  | case5 => cases h

/-- A stream of images part way through. -/
structure Splitter where
  /-- The most bytes that may wait for the end of an image. -/
  limit : Nat := 8 * 1024 * 1024
  /-- The bytes that no image has taken yet. -/
  buffer : Bytes := []
  /-- How many bytes were dropped. -/
  discarded : Nat := 0
deriving DecidableEq

namespace Splitter

/-- Take in more bytes. -/
def push (s : Splitter) (bs : Bytes) : Splitter := { s with buffer := s.buffer ++ bs }

/-- The next image. -/
def next (s : Splitter) : Option Bytes × Splitter :=
  let r := search s.limit s.discarded s.buffer
  (r.image, { s with buffer := r.rest, discarded := r.dropped })

theorem length_of_next {s s' : Splitter} {image : Bytes} (h : s.next = (some image, s')) :
    s'.buffer.length < s.buffer.length := by
  simp only [next, Prod.mk.injEq] at h
  obtain ⟨hi, rfl⟩ := h
  exact length_rest_search hi

/-- All images that are complete, and the splitter after them. -/
def drain (s : Splitter) : List Bytes × Splitter :=
  match _h : s.next with
  | (some image, s') =>
    let r := s'.drain
    (image :: r.1, r.2)
  | (none, s') => ([], s')
termination_by s.buffer.length
decreasing_by exact length_of_next ‹_›

end Splitter

end EncoderFleet.Jpeg
