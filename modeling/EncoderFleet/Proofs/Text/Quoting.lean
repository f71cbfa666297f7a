import EncoderFleet.Text.Arguments

/-!
# What an argument line says

An argument is written as pieces, one right behind the other: runs of plain characters, and texts between two equal
quotes (`Piece`, `Argument`). A line holds its arguments in order, with blanks between each two and perhaps at its ends
(`IsLine`).

A scan that stands before an argument has read its text when it stands behind it (`scan_argument`), so a line is cut
into the texts of its arguments (`IsLine.ofChars`). For the converse it is enough to know which quote is open behind a
text (`quoteAfter`). Where none is, the text is a line (`exists_isLine_of_closed`); where one is, that quote at the end
makes the text a line and changes nothing about its arguments (`scan_close`). So every text is a line, but for a last
quote (`split_line`).
-/

namespace EncoderFleet.Text.Arguments

/-! ## The grammar -/

/-- A run of blanks, perhaps an empty one. -/
def IsGap (cs : List Char) : Prop := ∀ c ∈ cs, isBlank c = true

instance (cs : List Char) : Decidable (IsGap cs) := List.decidableBAll (isBlank · = true) cs

/-- A piece of an argument. -/
inductive Piece
  /-- A run of characters that are neither quotes nor blanks. -/
  | bare (run : List Char) (nonempty : run ≠ []) (plain : ∀ c ∈ run, isQuote c = false ∧ isBlank c = false)
  /-- A text between two equal quotes, in which this quote does not stand. -/
  | quoted (quote : Char) (text : List Char) (quotes : isQuote quote = true) (closed : quote ∉ text)

/-- What a piece says. -/
def Piece.text : Piece → List Char
  | bare run .. => run
  | quoted _ text .. => text

/-- How a piece is written. -/
def Piece.written : Piece → List Char
  | bare run .. => run
  | quoted quote text .. => quote :: (text ++ [quote])

/-- An argument is written as one piece or several. -/
structure Argument where
  pieces : List Piece
  nonempty : pieces ≠ []

/-- What an argument says. -/
def Argument.text (a : Argument) : List Char := a.pieces.flatMap Piece.text

/-- How an argument is written. -/
def Argument.written (a : Argument) : List Char := a.pieces.flatMap Piece.written

/-- Arguments in order, with blanks between each two. -/
inductive Joined : List Argument → List Char → Prop
  | single (a : Argument) : Joined [a] a.written
  | cons (a : Argument) {as : List Argument} {gap body : List Char} (hgap : IsGap gap) (hne : gap ≠ [])
      (h : Joined as body) : Joined (a :: as) (a.written ++ (gap ++ body))

/-- A line with these arguments. -/
inductive IsLine : List Argument → List Char → Prop
  | blank {gap : List Char} (h : IsGap gap) : IsLine [] gap
  | joined {as : List Argument} {lead body trail : List Char} (hlead : IsGap lead) (h : Joined as body)
      (htrail : IsGap trail) : IsLine as (lead ++ (body ++ trail))

/-! ## One character -/

section Steps

variable {c q : Char}

theorem isBlank_of_isQuote (h : isQuote c = true) : isBlank c = false := by
  simp only [isQuote, Bool.or_eq_true, beq_iff_eq] at h
  rcases h with rfl | rfl <;> decide

theorem isQuote_of_isBlank (h : isBlank c = true) : isQuote c = false := Bool.eq_false_iff.mpr fun hq => by
  rw [isBlank_of_isQuote hq] at h
  cases h

theorem char_cases (c : Char) :
    isQuote c = true ∨ isBlank c = true ∨ isQuote c = false ∧ isBlank c = false := by
  cases isQuote c <;> cases isBlank c <;> simp

theorem scan_between_quote (h : isQuote c = true) (cs : List Char) :
    scan .between (c :: cs) = scan (.quoted c []) cs := if_pos h

theorem scan_between_blank (h : isBlank c = true) (cs : List Char) : scan .between (c :: cs) = scan .between cs :=
  (if_neg (Bool.eq_false_iff.mp (isQuote_of_isBlank h))).trans (if_pos h)

theorem scan_between_plain (hquote : isQuote c = false) (hblank : isBlank c = false) (cs : List Char) :
    scan .between (c :: cs) = scan (.bare [c]) cs :=
  (if_neg (Bool.eq_false_iff.mp hquote)).trans (if_neg (Bool.eq_false_iff.mp hblank))

theorem scan_bare_quote (h : isQuote c = true) (word cs : List Char) :
    scan (.bare word) (c :: cs) = scan (.quoted c word) cs := if_pos h

theorem scan_bare_blank (h : isBlank c = true) (word cs : List Char) :
    scan (.bare word) (c :: cs) = word.reverse :: scan .between cs :=
  (if_neg (Bool.eq_false_iff.mp (isQuote_of_isBlank h))).trans (if_pos h)

theorem scan_bare_plain (hquote : isQuote c = false) (hblank : isBlank c = false) (word cs : List Char) :
    scan (.bare word) (c :: cs) = scan (.bare (c :: word)) cs :=
  (if_neg (Bool.eq_false_iff.mp hquote)).trans (if_neg (Bool.eq_false_iff.mp hblank))

theorem scan_quoted_close (q : Char) (word cs : List Char) :
    scan (.quoted q word) (q :: cs) = scan (.bare word) cs := if_pos (beq_self_eq_true q)

theorem scan_quoted_inside (h : c ≠ q) (word cs : List Char) :
    scan (.quoted q word) (c :: cs) = scan (.quoted q (c :: word)) cs := if_neg fun heq => h (eq_of_beq heq)

/-- Before a character that is not blank it does not matter whether an argument has begun. -/
theorem scan_between (h : isBlank c = false) (cs : List Char) :
    scan .between (c :: cs) = scan (.bare []) (c :: cs) := by
  cases hc : isQuote c with
  | false => rw [scan_between_plain hc h, scan_bare_plain hc h]
  | true => rw [scan_between_quote hc, scan_bare_quote hc]

end Steps

/-! ## Reading a line -/

section Reading

variable {cs gap trail body line word text : List Char} {c q : Char} {as : List Argument}

theorem isGap_cons : IsGap (c :: cs) ↔ isBlank c = true ∧ IsGap cs := List.forall_mem_cons

theorem scan_gap (h : IsGap gap) (cs : List Char) : scan .between (gap ++ cs) = scan .between cs := by
  induction gap with
  | nil => rfl
  | cons c gap ih =>
    obtain ⟨hc, hgap⟩ := isGap_cons.mp h
    rw [List.cons_append, scan_between_blank hc, ih hgap]

/-- An argument ends at a gap. -/
theorem scan_bare_gap (h : IsGap gap) (hne : gap ≠ []) (word cs : List Char) :
    scan (.bare word) (gap ++ cs) = word.reverse :: scan .between cs := by
  obtain ⟨c, gap, rfl⟩ := List.exists_cons_of_ne_nil hne
  obtain ⟨hc, hgap⟩ := isGap_cons.mp h
  rw [List.cons_append, scan_bare_blank hc, scan_gap hgap]

theorem scan_bare_trail (h : IsGap trail) (word : List Char) : scan (.bare word) trail = [word.reverse] := by
  cases trail with
  | nil => rfl
  | cons c trail =>
    have hend := scan_bare_gap h (List.cons_ne_nil c trail) word []
    rwa [List.append_nil] at hend

theorem scan_run {run : List Char} (h : ∀ c ∈ run, isQuote c = false ∧ isBlank c = false) (word cs : List Char) :
    scan (.bare word) (run ++ cs) = scan (.bare (run.reverse ++ word)) cs := by
  induction run generalizing word with
  | nil => rfl
  | cons c run ih =>
    obtain ⟨⟨hquote, hblank⟩, hrun⟩ := List.forall_mem_cons.mp h
    rw [List.cons_append, scan_bare_plain hquote hblank, ih hrun, List.reverse_cons, List.append_assoc,
      List.singleton_append]

theorem scan_closed (h : q ∉ text) (word cs : List Char) :
    scan (.quoted q word) (text ++ q :: cs) = scan (.bare (text.reverse ++ word)) cs := by
  induction text generalizing word with
  | nil => exact scan_quoted_close q word cs
  | cons c text ih =>
    obtain ⟨hc, htext⟩ := not_or.mp (mt List.mem_cons.mpr h)
    rw [List.cons_append, scan_quoted_inside (Ne.symm hc), ih htext, List.reverse_cons, List.append_assoc,
      List.singleton_append]

theorem scan_piece (p : Piece) (word cs : List Char) :
    scan (.bare word) (p.written ++ cs) = scan (.bare (p.text.reverse ++ word)) cs := by
  cases p with
  | bare run _ plain => exact scan_run plain word cs
  | quoted q text quotes closed =>
    rw [Piece.written, List.cons_append, scan_bare_quote quotes, List.append_assoc, List.singleton_append,
      scan_closed closed, Piece.text]

theorem scan_pieces (ps : List Piece) (word cs : List Char) :
    scan (.bare word) (ps.flatMap Piece.written ++ cs) = scan (.bare ((ps.flatMap Piece.text).reverse ++ word)) cs := by
  induction ps generalizing word with
  | nil => rfl
  | cons p ps ih =>
    rw [List.flatMap_cons, List.append_assoc, scan_piece, ih, List.flatMap_cons, List.reverse_append,
      List.append_assoc]

theorem Piece.written_eq_cons (p : Piece) : ∃ c cs, p.written = c :: cs ∧ isBlank c = false := by
  cases p with
  | bare run nonempty plain =>
    obtain ⟨c, cs, rfl⟩ := List.exists_cons_of_ne_nil nonempty
    exact ⟨c, cs, rfl, (plain c List.mem_cons_self).2⟩
  | quoted q text quotes _ => exact ⟨q, text ++ [q], rfl, isBlank_of_isQuote quotes⟩

/-- An argument does not begin with a blank. -/
theorem Argument.written_eq_cons (a : Argument) : ∃ c cs, a.written = c :: cs ∧ isBlank c = false := by
  obtain ⟨p, ps, hps⟩ := List.exists_cons_of_ne_nil a.nonempty
  obtain ⟨c, cs, hp, hc⟩ := p.written_eq_cons
  exact ⟨c, cs ++ ps.flatMap Piece.written, by rw [Argument.written, hps, List.flatMap_cons, hp, List.cons_append], hc⟩

/-- Behind an argument its text is read. -/
theorem scan_argument (a : Argument) (cs : List Char) :
    scan .between (a.written ++ cs) = scan (.bare a.text.reverse) cs := by
  obtain ⟨c, ds, ha, hc⟩ := a.written_eq_cons
  have hbegun := scan_pieces a.pieces [] cs
  rw [← Argument.written, ← Argument.text, List.append_nil] at hbegun
  rw [← hbegun, ha, List.cons_append, scan_between hc]

theorem Joined.scan (h : Joined as body) (htrail : IsGap trail) :
    scan .between (body ++ trail) = as.map Argument.text := by
  induction h with
  | single a => rw [scan_argument, scan_bare_trail htrail, List.reverse_reverse, List.map_singleton]
  | cons a hgap hne _ ih =>
    rw [List.append_assoc, scan_argument, List.append_assoc, scan_bare_gap hgap hne, List.reverse_reverse, ih,
      List.map_cons]

/-- A line is cut into the texts of its arguments. -/
theorem IsLine.ofChars (h : IsLine as line) : ofChars line = as.map Argument.text := by
  cases h with
  | blank hgap =>
    have hnone := scan_gap hgap []
    rwa [List.append_nil] at hnone
  | joined hlead hbody htrail => rw [Arguments.ofChars, scan_gap hlead, hbody.scan htrail]

end Reading

/-! ## Open quotes -/

/-- The quote that is open behind some characters, for the one that is open before them. -/
def quoteAfter : Option Char → List Char → Option Char
  | quote, [] => quote
  | none, c :: cs => quoteAfter (if isQuote c then some c else none) cs
  | some quote, c :: cs => quoteAfter (if c == quote then none else some quote) cs

/-- The quote that is open where a scan stands. -/
def Scan.quote? : Scan → Option Char
  | between => none
  | bare _ => none
  | quoted quote _ => some quote

section Quotes

variable {cs ds gap body line text : List Char} {c q : Char} {as : List Argument}

theorem quoteAfter_quote (h : isQuote c = true) (cs : List Char) :
    quoteAfter none (c :: cs) = quoteAfter (some c) cs := congrArg (quoteAfter · cs) (if_pos h)

theorem quoteAfter_other (h : isQuote c = false) (cs : List Char) : quoteAfter none (c :: cs) = quoteAfter none cs :=
  congrArg (quoteAfter · cs) (if_neg (Bool.eq_false_iff.mp h))

theorem quoteAfter_close (q : Char) (cs : List Char) : quoteAfter (some q) (q :: cs) = quoteAfter none cs :=
  congrArg (quoteAfter · cs) (if_pos (beq_self_eq_true q))

theorem quoteAfter_inside (h : c ≠ q) (cs : List Char) : quoteAfter (some q) (c :: cs) = quoteAfter (some q) cs :=
  congrArg (quoteAfter · cs) (if_neg fun heq => h (eq_of_beq heq))

theorem quoteAfter_append (quote : Option Char) (cs ds : List Char) :
    quoteAfter quote (cs ++ ds) = quoteAfter (quoteAfter quote cs) ds := by
  induction cs generalizing quote with
  | nil => cases quote <;> rfl
  | cons c cs ih => cases quote <;> exact ih _

/-- Only quotes are ever open. -/
theorem isQuote_of_quoteAfter {quote : Option Char} (hq : ∀ q, quote = some q → isQuote q = true)
    (h : quoteAfter quote cs = some q) : isQuote q = true := by
  induction cs generalizing quote with
  | nil => exact hq q h
  | cons c cs ih =>
    cases quote with
    | none =>
      cases hc : isQuote c with
      | false => exact ih hq (quoteAfter_other hc cs ▸ h)
      | true => exact ih (fun q hq => Option.some.inj hq ▸ hc) (quoteAfter_quote hc cs ▸ h)
    | some quote =>
      rcases Decidable.em (c = quote) with rfl | hc
      · exact ih (fun _ hq => by cases hq) (quoteAfter_close c cs ▸ h)
      · exact ih hq (quoteAfter_inside hc cs ▸ h)

/-- To close the quote that is open at the end of a text does not change its arguments. -/
theorem scan_close (s : Scan) (cs : List Char) (h : quoteAfter s.quote? cs = some q) :
    scan s (cs ++ [q]) = scan s cs := by
  induction cs generalizing s with
  | nil =>
    cases s with
    | between => cases h
    | bare word => cases h
    | quoted quote word =>
      obtain rfl : quote = q := Option.some.inj h
      exact scan_quoted_close quote word []
  | cons c cs ih =>
    rw [List.cons_append]
    cases s with
    | between =>
      rcases char_cases c with hc | hc | ⟨hquote, hblank⟩
      · rw [scan_between_quote hc, scan_between_quote hc, ih _ (quoteAfter_quote hc cs ▸ h)]
      · rw [scan_between_blank hc, scan_between_blank hc, ih _ (quoteAfter_other (isQuote_of_isBlank hc) cs ▸ h)]
      · rw [scan_between_plain hquote hblank, scan_between_plain hquote hblank,
          ih _ (quoteAfter_other hquote cs ▸ h)]
    | bare word =>
      rcases char_cases c with hc | hc | ⟨hquote, hblank⟩
      · rw [scan_bare_quote hc, scan_bare_quote hc, ih _ (quoteAfter_quote hc cs ▸ h)]
      · rw [scan_bare_blank hc, scan_bare_blank hc, ih _ (quoteAfter_other (isQuote_of_isBlank hc) cs ▸ h)]
      · rw [scan_bare_plain hquote hblank, scan_bare_plain hquote hblank, ih _ (quoteAfter_other hquote cs ▸ h)]
    | quoted quote word =>
      rcases Decidable.em (c = quote) with rfl | hc
      · rw [scan_quoted_close, scan_quoted_close, ih _ (quoteAfter_close c cs ▸ h)]
      · rw [scan_quoted_inside hc, scan_quoted_inside hc, ih _ (quoteAfter_inside hc cs ▸ h)]

theorem quoteAfter_of_plain (h : ∀ c ∈ cs, isQuote c = false) : quoteAfter none cs = none := by
  induction cs with
  | nil => rfl
  | cons c cs ih =>
    obtain ⟨hc, hcs⟩ := List.forall_mem_cons.mp h
    rw [quoteAfter_other hc, ih hcs]

theorem quoteAfter_closed (h : q ∉ text) : quoteAfter (some q) (text ++ [q]) = none := by
  induction text with
  | nil => exact quoteAfter_close q []
  | cons c text ih =>
    obtain ⟨hc, htext⟩ := not_or.mp (mt List.mem_cons.mpr h)
    rw [List.cons_append, quoteAfter_inside (Ne.symm hc), ih htext]

theorem quoteAfter_piece (p : Piece) : quoteAfter none p.written = none := by
  cases p with
  | bare run _ plain => exact quoteAfter_of_plain fun c hc => (plain c hc).1
  | quoted q text quotes closed => rw [Piece.written, quoteAfter_quote quotes, quoteAfter_closed closed]

theorem quoteAfter_argument (a : Argument) : quoteAfter none a.written = none := by
  rw [Argument.written]
  induction a.pieces with
  | nil => rfl
  | cons p ps ih => rw [List.flatMap_cons, quoteAfter_append, quoteAfter_piece, ih]

theorem quoteAfter_gap (h : IsGap gap) : quoteAfter none gap = none :=
  quoteAfter_of_plain fun c hc => isQuote_of_isBlank (h c hc)

theorem Joined.quoteAfter (h : Joined as body) : quoteAfter none body = none := by
  induction h with
  | single a => exact quoteAfter_argument a
  | cons a hgap _ _ ih => rw [quoteAfter_append, quoteAfter_argument, quoteAfter_append, quoteAfter_gap hgap, ih]

/-- Behind a line no quote is open. -/
theorem IsLine.quoteAfter (h : IsLine as line) : quoteAfter none line = none := by
  cases h with
  | blank hgap => exact quoteAfter_gap hgap
  | joined hlead hbody htrail =>
    rw [quoteAfter_append, quoteAfter_gap hlead, quoteAfter_append, hbody.quoteAfter, quoteAfter_gap htrail]

/-- A text that a quote at its end makes a line has this quote open. -/
theorem IsLine.quoteAfter_init (h : IsLine as (line ++ [q])) (hq : isQuote q = true) :
    Arguments.quoteAfter none line = some q := by
  have hclosed := h.quoteAfter
  rw [quoteAfter_append] at hclosed
  cases hopen : Arguments.quoteAfter none line with
  | none =>
    rw [hopen, quoteAfter_quote hq] at hclosed
    cases hclosed
  | some quote =>
    rcases Decidable.em (q = quote) with rfl | hne
    · rfl
    · rw [hopen, quoteAfter_inside hne] at hclosed
      cases hclosed

/-! ## Every text is a line -/

/-- A quote that is closed somewhere is closed at its first occurrence. -/
theorem exists_closed (h : quoteAfter (some q) cs = none) :
    ∃ text rest, q ∉ text ∧ cs = text ++ q :: rest ∧ quoteAfter none rest = none := by
  induction cs with
  | nil => cases h
  | cons c cs ih =>
    rcases Decidable.em (c = q) with rfl | hc
    · exact ⟨[], cs, List.not_mem_nil, rfl, quoteAfter_close c cs ▸ h⟩
    · obtain ⟨text, rest, htext, rfl, hrest⟩ := ih (quoteAfter_inside hc cs ▸ h)
      exact ⟨c :: text, rest, List.not_mem_cons_of_ne_of_not_mem (Ne.symm hc) htext, rfl, hrest⟩

theorem Joined.eq_cons (h : Joined as body) : ∃ c cs, body = c :: cs ∧ isBlank c = false := by
  cases h with
  | single a => exact a.written_eq_cons
  | @cons a as gap rest hgap hne h =>
    obtain ⟨c, cs, ha, hc⟩ := a.written_eq_cons
    exact ⟨c, cs ++ (gap ++ rest), by rw [ha, List.cons_append], hc⟩

theorem IsLine.cons_blank (h : IsLine as line) (hc : isBlank c = true) : IsLine as (c :: line) := by
  cases h with
  | blank hgap => exact .blank (isGap_cons.mpr ⟨hc, hgap⟩)
  | joined hlead hbody htrail => exact .joined (isGap_cons.mpr ⟨hc, hlead⟩) hbody htrail

/-- An argument may stand before a line that is empty or begins with a blank. -/
theorem IsLine.cons_argument (a : Argument) (h : IsLine as line) (hhead : ∀ c ∈ line.head?, isBlank c = true) :
    IsLine (a :: as) (a.written ++ line) := by
  have hnil : IsGap [] := nofun
  cases h with
  | blank hgap => exact .joined hnil (.single a) hgap
  | @joined as lead body trail hlead hbody htrail =>
    have hne : lead ≠ [] := by
      rintro rfl
      obtain ⟨c, cs, rfl, hc⟩ := hbody.eq_cons
      rw [hhead c rfl] at hc
      cases hc
    have hline := IsLine.joined hnil (.cons a hlead hne hbody) htrail
    rwa [List.nil_append, List.append_assoc, List.append_assoc] at hline

theorem IsLine.exists_of_pieces (ps : List Piece) (h : IsLine as line) (hhead : ∀ c ∈ line.head?, isBlank c = true) :
    ∃ as, IsLine as (ps.flatMap Piece.written ++ line) := by
  cases ps with
  | nil => exact ⟨as, h⟩
  | cons p ps => exact ⟨⟨p :: ps, List.cons_ne_nil p ps⟩ :: as, h.cons_argument _ hhead⟩

/-- A text behind which no quote is open begins with the rest of an argument, perhaps an empty one, and goes on as a
line that the argument can end at. -/
theorem exists_pieces : ∀ cs : List Char, quoteAfter none cs = none →
    ∃ (ps : List Piece) (as : List Argument) (line : List Char),
      cs = ps.flatMap Piece.written ++ line ∧ IsLine as line ∧ ∀ c ∈ line.head?, isBlank c = true
  | [], _ => ⟨[], [], [], rfl, .blank nofun, nofun⟩
  | c :: cs, h => by
    rcases char_cases c with hquote | hblank | ⟨hquote, hblank⟩
    · obtain ⟨text, rest, htext, hcs, hrest⟩ := exists_closed (quoteAfter_quote hquote cs ▸ h)
      obtain ⟨ps, as, line, hps, hline, hhead⟩ := exists_pieces rest hrest
      refine ⟨.quoted c text hquote htext :: ps, as, line, ?_, hline, hhead⟩
      rw [List.flatMap_cons, Piece.written, hcs, hps]
      simp
    · obtain ⟨ps, as, line, rfl, hline, hhead⟩ := exists_pieces cs (quoteAfter_other (isQuote_of_isBlank hblank) cs ▸ h)
      obtain ⟨as', hline'⟩ := hline.exists_of_pieces ps hhead
      exact ⟨[], as', _, rfl, hline'.cons_blank hblank, by simpa using hblank⟩
    · obtain ⟨ps, as, line, rfl, hline, hhead⟩ := exists_pieces cs (quoteAfter_other hquote cs ▸ h)
      have hplain : ∀ d ∈ [c], isQuote d = false ∧ isBlank d = false := List.forall_mem_singleton.mpr ⟨hquote, hblank⟩
      exact ⟨.bare [c] (List.cons_ne_nil c []) hplain :: ps, as, line, rfl, hline, hhead⟩
termination_by cs => cs.length
decreasing_by
  · rw [hcs, List.length_cons, List.length_append, List.length_cons]
    omega
  all_goals exact Nat.lt_succ_self _

/-- A text behind which no quote is open is a line. -/
theorem exists_isLine_of_closed (h : quoteAfter none cs = none) : ∃ as, IsLine as cs := by
  obtain ⟨ps, as, line, rfl, hline, hhead⟩ := exists_pieces cs h
  exact hline.exists_of_pieces ps hhead

end Quotes

/-! ## Writing a line -/

/-- A character in quotes that are not itself. -/
def Piece.ofChar (c : Char) : Piece :=
  if h : c = '"' then .quoted '\'' [c] rfl (by subst h; decide)
  else .quoted '"' [c] rfl (by simpa using Ne.symm h)

theorem Piece.text_ofChar (c : Char) : (ofChar c).text = [c] := by
  unfold ofChar
  split <;> rfl

/-- An argument with a given text, which may be empty and may hold any quotes. -/
def Argument.ofText (text : List Char) : Argument where
  pieces := .quoted '"' [] rfl List.not_mem_nil :: text.map Piece.ofChar
  nonempty := List.cons_ne_nil _ _

theorem Argument.text_ofText (text : List Char) : (ofText text).text = text := by
  have hempty : (Piece.quoted '"' [] rfl List.not_mem_nil).text = [] := rfl
  rw [Argument.text, ofText, List.flatMap_cons, hempty, List.nil_append, List.flatMap_map]
  simp only [Piece.text_ofChar, List.flatMap_singleton']

/-- Arguments can be joined by single spaces. -/
theorem exists_joined (a : Argument) (as : List Argument) : ∃ body, Joined (a :: as) body := by
  induction as generalizing a with
  | nil => exact ⟨_, .single a⟩
  | cons b as ih =>
    obtain ⟨body, hbody⟩ := ih b
    have hspace : IsGap [' '] := by
      rw [IsGap, List.forall_mem_singleton]
      rfl
    exact ⟨_, .cons a hspace (List.cons_ne_nil _ _) hbody⟩

theorem exists_isLine (as : List Argument) : ∃ line, IsLine as line := by
  have hnil : IsGap [] := nofun
  cases as with
  | nil => exact ⟨[], .blank hnil⟩
  | cons a as =>
    obtain ⟨body, hbody⟩ := exists_joined a as
    exact ⟨_, .joined hnil hbody hnil⟩

/-! ## Splitting -/

/-- A line is split into the texts of its arguments. A text that lacks only the quote at its end is split as if it had
that quote. Every text is a line or lacks only such a quote, and every list of words is what some text is split into. -/
theorem split_line :
    (∀ (as : List Argument) (line : String), IsLine as line.toList →
      split line = as.map fun a => String.ofList a.text) ∧
    (∀ (as : List Argument) (line : String) (q : Char), isQuote q = true → IsLine as (line.push q).toList →
      split line = split (line.push q)) ∧
    (∀ line : String, ∃ as, IsLine as line.toList ∨ ∃ q, isQuote q = true ∧ IsLine as (line.push q).toList) ∧
    ∀ words : List String, ∃ line, split line = words := by
  have hsplit : ∀ (as : List Argument) (line : String), IsLine as line.toList →
      split line = as.map fun a => String.ofList a.text := fun as line h => by
    rw [split, h.ofChars, List.map_map]
    rfl
  refine ⟨hsplit, fun as line q hq h => ?_, fun line => ?_, fun words => ?_⟩
  · rw [String.toList_push] at h
    rw [split, split, String.toList_push, ofChars, ofChars, scan_close .between _ (h.quoteAfter_init hq)]
  · cases hopen : quoteAfter none line.toList with
    | none => exact (exists_isLine_of_closed hopen).imp fun _ h => .inl h
    | some q =>
      have hquote := isQuote_of_quoteAfter (fun _ hq => by cases hq) hopen
      have hclosed : quoteAfter none (line.push q).toList = none := by
        rw [String.toList_push, quoteAfter_append, hopen]
        exact quoteAfter_closed List.not_mem_nil
      exact (exists_isLine_of_closed hclosed).imp fun _ h => .inr ⟨q, hquote, h⟩
  · obtain ⟨line, hline⟩ := exists_isLine (words.map fun w => .ofText w.toList)
    refine ⟨String.ofList line, ?_⟩
    rw [hsplit _ _ (by rwa [String.toList_ofList]), List.map_map]
    simp [Function.comp_def, Argument.text_ofText]

/-- An argument in three pieces, which holds a blank and a quote. -/
def threePieces : Argument where
  pieces := [.bare ['a'] (by decide) (List.forall_mem_singleton.mpr (by decide)),
    .quoted '"' ['b', ' ', 'c'] rfl (by decide), .quoted '\'' ['"'] rfl (by decide)]
  nonempty := by decide

/-- The three pieces are one argument, an empty text in quotes is another, and the last quote may be missing. -/
theorem split_three_pieces :
    split " a\"b c\"'\"'  \"\"" = ["ab c\"", ""] ∧ split "a\"b c\"'\"" = ["ab c\""] := by
  obtain ⟨hsplit, hopen, -⟩ := split_line
  have hnil : IsGap [] := nofun
  have hline : IsLine [threePieces, .ofText []] " a\"b c\"'\"'  \"\"".toList :=
    .joined (by decide : IsGap [' ']) (.cons threePieces (by decide : IsGap [' ', ' ']) (by decide) (.single _)) hnil
  have hlast : IsLine [threePieces] ("a\"b c\"'\"".push '\'').toList := .joined hnil (.single threePieces) hnil
  exact ⟨hsplit _ _ hline, (hopen _ _ '\'' rfl hlast).trans (hsplit _ _ hlast)⟩

end EncoderFleet.Text.Arguments
