import EncoderFleet.Flv.Wire

/-!
# Cutting an FLV stream

A `Demuxer` takes bytes as they come and gives out the header and the tags as soon as they are complete, each with the
very bytes that it stood in. A tag of unknown type is passed over. A stream that cannot be read on stays so: the demuxer
answers every further question with the same fault.
-/

namespace EncoderFleet.Flv

/-- An element of a stream, with its bytes. -/
inductive Event
  | header (wire : Bytes)
  | tag (t : Tag) (wire : Bytes)
deriving DecidableEq

/-- What a demuxer has to say when asked for an element. -/
inductive Outcome
  | event (e : Event)
  /-- No element is complete. -/
  | waiting
  | fault (f : Fault)
deriving DecidableEq

/-- A stream part way through. -/
structure Demuxer where
  /-- The longest body that a tag may have. -/
  limit : Nat := 16 * 1024 * 1024
  /-- Whether the header has gone by. -/
  opened : Bool := false
  /-- The bytes that no element has taken yet. -/
  buffer : Bytes := []
deriving DecidableEq

namespace Demuxer

/-- Take in more bytes. -/
def push (d : Demuxer) (bs : Bytes) : Demuxer := { d with buffer := d.buffer ++ bs }

/-- The first tag of known type, and the bytes that are left. -/
def nextTag (limit : Nat) (bs : Bytes) : Outcome × Bytes :=
  match _h : WireTag.read limit bs with
  | .short => (.waiting, bs)
  | .fault f => (.fault f, bs)
  | .whole w wire rest =>
    match w.tag? with
    | some t => (.event (.tag t wire), rest)
    | none => nextTag limit rest
termination_by bs.length
decreasing_by exact WireTag.length_of_read ‹_›

/-- The next element. -/
def next (d : Demuxer) : Outcome × Demuxer :=
  if d.opened then
    let r := nextTag d.limit d.buffer
    (r.1, { d with buffer := r.2 })
  else
    match readHeader d.buffer with
    | .short => (.waiting, d)
    | .fault f => (.fault f, d)
    | .whole () wire rest => (.event (.header wire), { d with opened := true, buffer := rest })

theorem nextTag_length (limit : Nat) (bs : Bytes) :
    (nextTag limit bs).2.length ≤ bs.length ∧
      ∀ e, (nextTag limit bs).1 = .event e → (nextTag limit bs).2.length < bs.length := by
  fun_induction nextTag limit bs with
  | case1 bs h => simp
  | case2 bs f h => simp
  | case3 bs w wire rest h t ht =>
    have := WireTag.length_of_read h
    exact ⟨by dsimp only; omega, fun _ _ => by dsimp only; omega⟩
  | case4 bs w wire rest h ht ih =>
    have := WireTag.length_of_read h
    exact ⟨by omega, fun _ _ => by omega⟩

/-- Whoever hands out an element has fewer bytes left. -/
theorem length_of_next {d d' : Demuxer} {e : Event} (h : d.next = (.event e, d')) :
    d'.buffer.length < d.buffer.length := by
  unfold next at h
  split at h
  · simp only [Prod.mk.injEq] at h
    obtain ⟨he, rfl⟩ := h
    exact (nextTag_length _ _).2 e he
  · split at h
    · cases h
    · cases h
    · next wire rest hr =>
      cases h
      unfold readHeader at hr
      split at hr
      · split at hr
        · dsimp only at hr
          split at hr
          · cases hr
          · split at hr
            · next hc =>
              cases hr
              have hk := Bytes.append_of_cut? hc
              have hl := congrArg List.length hk.1
              rw [List.length_append, hk.2] at hl
              simp only [trailerLength] at hl
              dsimp only
              omega
            · cases hr
        · cases hr
      · cases hr

/-- All elements that are complete, why there are no more, and the demuxer after them. -/
def drain (d : Demuxer) : List Event × Option Fault × Demuxer :=
  match _h : d.next with
  | (.event e, d') =>
    let r := d'.drain
    (e :: r.1, r.2)
  | (.waiting, d') => ([], none, d')
  | (.fault f, d') => ([], some f, d')
termination_by d.buffer.length
decreasing_by exact length_of_next ‹_›

end Demuxer

end EncoderFleet.Flv
