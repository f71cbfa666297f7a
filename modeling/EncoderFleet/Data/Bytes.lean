/-!
# Bytes

A run of bytes is a list, first byte first. Incoming streams are read by cutting runs off the front; a cut either takes
exactly what was asked for or reports that the stream does not hold that much yet.
-/

namespace EncoderFleet

/-- A run of bytes. -/
abbrev Bytes := List UInt8

namespace Bytes

/-- Whether there are at least `n` bytes. -/
def hasAtLeast : Nat → Bytes → Bool
  | 0, _ => true
  | _ + 1, [] => false
  | n + 1, _ :: bs => hasAtLeast n bs

theorem hasAtLeast_iff {n : Nat} {bs : Bytes} : hasAtLeast n bs = true ↔ n ≤ bs.length := by
  induction n generalizing bs with
  | zero => simp [hasAtLeast]
  | succ n ih => cases bs <;> simp [hasAtLeast, ih]

/-- The first `n` bytes and the rest, if there are that many. -/
def cut? (n : Nat) (bs : Bytes) : Option (Bytes × Bytes) :=
  if hasAtLeast n bs then some (bs.take n, bs.drop n) else none

theorem cut?_eq (n : Nat) (bs : Bytes) :
    cut? n bs = if n ≤ bs.length then some (bs.take n, bs.drop n) else none := by
  simp only [cut?, hasAtLeast_iff]

/-- A cut loses nothing. -/
theorem append_of_cut? {n : Nat} {bs front rest : Bytes} (h : cut? n bs = some (front, rest)) :
    front ++ rest = bs ∧ front.length = n := by
  rw [cut?_eq] at h
  split at h
  · cases h; simp [List.take_append_drop, Nat.min_eq_left ‹_›]
  · cases h

/-- The number written by three bytes, most significant first. -/
def word24 (a b c : UInt8) : UInt32 := (a.toUInt32 <<< 16) ||| (b.toUInt32 <<< 8) ||| c.toUInt32

/-- The number written by four bytes, most significant first. -/
def word32 (a b c d : UInt8) : UInt32 := (a.toUInt32 <<< 24) ||| word24 b c d

/-- The number written by two bytes, most significant first. -/
def word16 (a b : UInt8) : Nat := a.toNat * 256 + b.toNat

/-- The UTF-8 form of a text. -/
def ofString (s : String) : Bytes := s.toUTF8.toList

/-- The text that the bytes encode in UTF-8, if they do. -/
def toString? (bs : Bytes) : Option String := String.fromUTF8? ⟨bs.toArray⟩

end Bytes

end EncoderFleet
