import EncoderFleet.Proofs.Text.Quoting
import Mathlib.Data.List.DropRight

/-!
# Blanks around a text

What `trim` leaves of a text with blanks around it is that text, if it neither begins nor ends with a blank itself
(`IsSolid`, `trim_solid`). An argument line is such a text, however its arguments are quoted (`Joined.isSolid`).

Arguments are printed with a space between each two (`spaced`). Quoting adds nothing but quotes to them
(`Argument.mem_written`), so what is printed has a line feed only if an argument has one.
-/

namespace EncoderFleet.Text

open Arguments (IsGap)

variable {cs ds gap lead body trail : List Char}

/-! ## Blanks at the ends -/

/-- A text that begins and ends with characters that are not blank. -/
def IsSolid (cs : List Char) : Prop := (∃ c ∈ cs.head?, isBlank c = false) ∧ ∃ c ∈ cs.getLast?, isBlank c = false

theorem trimLeft_gap (h : IsGap gap) (cs : List Char) : trimLeft (gap ++ cs) = trimLeft cs :=
  List.dropWhile_append_of_pos h

theorem trimRight_gap (h : IsGap gap) (cs : List Char) : trimRight (cs ++ gap) = trimRight cs := by
  have hreverse : IsGap gap.reverse := fun c hc => h c (List.mem_reverse.mp hc)
  rw [trimRight, List.reverse_append]
  exact congrArg List.reverse (trimLeft_gap hreverse cs.reverse)

theorem trimLeft_of_head (h : ∃ c ∈ cs.head?, isBlank c = false) : trimLeft cs = cs := by
  obtain ⟨c, hc, hblank⟩ := h
  obtain ⟨rest, rfl⟩ := List.head?_eq_some_iff.mp hc
  exact List.dropWhile_cons_of_neg (Bool.eq_false_iff.mp hblank)

theorem trimRight_of_getLast (h : ∃ c ∈ cs.getLast?, isBlank c = false) : trimRight cs = cs := by
  rw [← List.head?_reverse] at h
  exact (congrArg List.reverse (trimLeft_of_head h)).trans (List.reverse_reverse cs)

/-- Blanks at the end of a text are not part of it. -/
theorem trim_gap (h : IsGap gap) (cs : List Char) : trim (cs ++ gap) = trim cs := by
  rw [trim, trimLeft, List.dropWhile_append]
  split
  · next hnone =>
    -- Nothing but blanks: both sides are empty.
    have hall : gap.dropWhile isBlank = [] := List.dropWhile_eq_nil_iff.mpr h
    rw [hall, trim, trimLeft, List.isEmpty_iff.mp hnone]
  · exact trimRight_gap h _

/-- What is left is what stands between the blanks. -/
theorem trim_solid (hlead : IsGap lead) (h : IsSolid body) (htrail : IsGap trail) :
    trim (lead ++ (body ++ trail)) = body := by
  rw [← List.append_assoc, trim_gap htrail, trim, trimLeft_gap hlead, trimLeft_of_head h.1, trimRight_of_getLast h.2]

theorem IsSolid.append (h : IsSolid cs) (gap : List Char) (h' : IsSolid ds) : IsSolid (cs ++ (gap ++ ds)) := by
  obtain ⟨⟨c, hc, hblank⟩, -⟩ := h
  obtain ⟨-, d, hd, hblank'⟩ := h'
  refine ⟨⟨c, ?_, hblank⟩, d, ?_, hblank'⟩
  · rw [List.head?_append, Option.mem_def.mp hc, Option.some_or]
    rfl
  · rw [List.getLast?_append, List.getLast?_append, Option.mem_def.mp hd]
    rfl

theorem isSolid_of_forall (hne : cs ≠ []) (h : ∀ c ∈ cs, isBlank c = false) : IsSolid cs :=
  ⟨⟨cs.head hne, List.head?_eq_some_head hne, h _ (List.head_mem hne)⟩,
    cs.getLast hne, List.getLast?_eq_some_getLast hne, h _ (List.getLast_mem hne)⟩

namespace Arguments

variable {as : List Argument}

/-! ## Arguments with a space between each two -/

theorem Piece.isSolid (p : Piece) : IsSolid p.written := by
  cases p with
  | bare run nonempty plain => exact isSolid_of_forall nonempty fun c hc => (plain c hc).2
  | quoted q text quotes _ =>
    have hquote : IsSolid [q] := isSolid_of_forall (List.cons_ne_nil q []) (by simpa using isBlank_of_isQuote quotes)
    exact hquote.append text hquote

theorem Argument.isSolid (a : Argument) : IsSolid a.written := by
  rw [Argument.written]
  obtain ⟨ps, p, hps⟩ := (List.eq_nil_or_concat' a.pieces).resolve_left a.nonempty
  obtain ⟨c, cs, ha, hc⟩ := a.written_eq_cons
  refine ⟨⟨c, ?_, hc⟩, ?_⟩
  · rw [← Argument.written, ha]
    rfl
  · obtain ⟨-, d, hd, hblank⟩ := p.isSolid
    refine ⟨d, ?_, hblank⟩
    rw [hps, List.flatMap_append, List.flatMap_singleton, List.getLast?_append, Option.mem_def.mp hd]
    rfl

theorem Joined.isSolid (h : Joined as body) : IsSolid body := by
  induction h with
  | single a => exact a.isSolid
  | cons a _ _ _ ih => exact a.isSolid.append _ ih

/-- How arguments are written with a space between each two. -/
def spaced (as : List Argument) : List Char := [' '].intercalate (as.map Argument.written)

theorem spaced_singleton (a : Argument) : spaced [a] = a.written := List.intercalate_singleton

theorem spaced_cons_cons (a b : Argument) (as : List Argument) :
    spaced (a :: b :: as) = a.written ++ ([' '] ++ spaced (b :: as)) :=
  List.intercalate_cons_cons.trans (List.append_assoc ..)

theorem joined_spaced : ∀ {as : List Argument}, as ≠ [] → Joined as (spaced as)
  | [], h => absurd rfl h
  | [a], _ => spaced_singleton a ▸ .single a
  | a :: b :: as, _ => by
    have hspace : IsGap [' '] := List.forall_mem_singleton.mpr rfl
    rw [spaced_cons_cons]
    exact .cons a hspace (List.cons_ne_nil ' ' []) (joined_spaced (List.cons_ne_nil b as))

/-- Quoting adds nothing but quotes. -/
theorem Argument.mem_written {a : Argument} {c : Char} (h : c ∈ a.written) : c ∈ a.text ∨ isQuote c = true := by
  obtain ⟨p, hp, hc⟩ := List.mem_flatMap.mp h
  cases p with
  | bare run nonempty plain => exact .inl (List.mem_flatMap.mpr ⟨_, hp, hc⟩)
  | quoted q text quotes closed =>
    rcases List.mem_cons.mp hc with rfl | hc
    · exact .inr quotes
    · rcases List.mem_append.mp hc with hc | hc
      · exact .inl (List.mem_flatMap.mpr ⟨_, hp, hc⟩)
      · obtain rfl := List.mem_singleton.mp hc
        exact .inr quotes

theorem lineFeed_notMem_spaced : ∀ {as : List Argument}, (∀ a ∈ as, '\n' ∉ a.text) → '\n' ∉ spaced as
  | [], _ => List.not_mem_nil
  | [a], h => fun hmem => by
    rw [spaced_singleton] at hmem
    exact (Argument.mem_written hmem).elim (h a List.mem_cons_self) (by decide)
  | a :: b :: as, h => fun hmem => by
    rw [spaced_cons_cons] at hmem
    rcases List.mem_append.mp hmem with hmem | hmem
    · exact (Argument.mem_written hmem).elim (h a List.mem_cons_self) (by decide)
    · rcases List.mem_append.mp hmem with hmem | hmem
      · exact absurd hmem (by decide)
      · exact lineFeed_notMem_spaced (fun c hc => h c (List.mem_cons_of_mem a hc)) hmem

end Arguments

end EncoderFleet.Text
