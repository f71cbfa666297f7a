import EncoderFleet.Process.Listing
import EncoderFleet.Proofs.Process.Cleanups
import EncoderFleet.Proofs.Text.Spacing

/-!
# Reading back a process listing

A row holds a process as it is printed: its pid in decimal, blanks with the separator among them, and its arguments,
written in any way that quoting allows, with a space between each two. More blanks may stand at both ends (`IsRow`). A
listing holds rows, and behind each but perhaps the last a line end of either kind (`Prints`).

What a line says depends on nothing but the line without the blanks at its ends. So it does not matter whether a line
end takes a carriage return away, and a text is read line by line (`read_lineFeed`). The blanks at the two ends of a pid
and of an argument line never belong to these, since neither begins or ends with a blank (`IsSolid`); so a row says its
process (`IsRow.ofLine?`).
-/

namespace EncoderFleet.Listing

open Text Text.Arguments

variable {separator c : Char} {row line a b : List Char} {more : List (List Char)}

/-! ## Line by line -/

theorem lines_singleton (hc : c ≠ '\n') : lines [c] = [[c]] := by
  rw [lines, lines]
  exact hc

/-- A carriage return that stands before a line feed belongs to the line end. -/
theorem lines_cons_lineFeed (hc : c ≠ '\n') (cs : List Char) :
    lines (c :: '\n' :: cs) = (if c = '\r' then [] else [c]) :: lines cs := by
  rw [lines, lines]
  · simp
  · exact hc

/-- Any other character belongs to its line. -/
theorem lines_cons_cons {d : Char} {cs : List Char} (hc : c ≠ '\n') (hd : d ≠ '\n')
    (h : lines (d :: cs) = line :: more) : lines (c :: d :: cs) = (c :: line) :: more := by
  rw [lines, h]
  · simp [hd]
  · exact hc

theorem lines_row (h : '\n' ∉ row) (hne : row ≠ []) : lines row = [row] := by
  induction row with
  | nil => exact absurd rfl hne
  | cons c row ih =>
    obtain ⟨hc, hrow⟩ := not_or.mp (mt List.mem_cons.mpr h)
    cases row with
    | nil => exact lines_singleton (Ne.symm hc)
    | cons d row =>
      have hd : d ≠ '\n' := fun heq => hrow (heq ▸ List.mem_cons_self)
      exact lines_cons_cons (Ne.symm hc) hd (ih hrow (List.cons_ne_nil d row))

/-- A row in front of a line feed is a line, perhaps without a carriage return at its end. -/
theorem lines_lineFeed (h : '\n' ∉ row) (rest : List Char) :
    ∃ line, (row = line ∨ row = line ++ ['\r']) ∧ lines (row ++ '\n' :: rest) = line :: lines rest := by
  induction row with
  | nil => exact ⟨[], .inl rfl, rfl⟩
  | cons c row ih =>
    obtain ⟨hc, hrow⟩ := not_or.mp (mt List.mem_cons.mpr h)
    cases row with
    | nil =>
      refine ⟨if c = '\r' then [] else [c], ?_, lines_cons_lineFeed (Ne.symm hc) rest⟩
      split
      · next heq => exact .inr (congrArg (fun c => [c]) heq)
      · exact .inl rfl
    | cons d row =>
      have hd : d ≠ '\n' := fun heq => hrow (heq ▸ List.mem_cons_self)
      obtain ⟨line, hline, hlines⟩ := ih hrow
      exact ⟨c :: line, hline.imp (congrArg (List.cons c)) (congrArg (List.cons c)),
        lines_cons_cons (Ne.symm hc) hd hlines⟩

/-- The processes of a listing that is given as characters. -/
def read (separator : Char) (cs : List Char) : List Entry := (lines cs).filterMap (ofLine? separator)

theorem entries_eq_read (separator : Char) (text : String) : entries separator text = read separator text.toList := rfl

theorem isGap_return : IsGap ['\r'] := List.forall_mem_singleton.mpr rfl

theorem ofLine?_congr (h : trim a = trim b) : ofLine? separator a = ofLine? separator b := by
  unfold ofLine?
  rw [h]

theorem read_row (h : '\n' ∉ row) : read separator row = (ofLine? separator row).toList := by
  cases row with
  | nil => rfl
  | cons c row =>
    rw [read, lines_row h (List.cons_ne_nil c row), List.filterMap_cons, List.filterMap_nil]
    cases ofLine? separator (c :: row) <;> rfl

/-- A row says the same with a line feed behind it. -/
theorem read_lineFeed (h : '\n' ∉ row) (rest : List Char) :
    read separator (row ++ '\n' :: rest) = read separator row ++ read separator rest := by
  obtain ⟨line, hrow, hlines⟩ := lines_lineFeed h rest
  have hline : ofLine? separator line = ofLine? separator row := by
    rcases hrow with rfl | rfl
    · rfl
    · exact ofLine?_congr (trim_gap isGap_return line).symm
  rw [read_row h, read, hlines, List.filterMap_cons, hline]
  cases ofLine? separator row <;> rfl

/-- A line feed parts a listing in two that are read on their own. -/
theorem read_append (a b : List Char) :
    read separator (a ++ '\n' :: b) = read separator a ++ read separator b := by
  -- The induction takes one row after the other from the front.
  induction hn : a.length using Nat.strongRecOn generalizing a with
  | _ n ih =>
    rcases Decidable.em ('\n' ∈ a) with ha | ha
    · obtain ⟨row, rest, rfl, hrow⟩ := List.eq_append_cons_of_mem ha
      have hshorter : rest.length < n := by
        rw [← hn, List.length_append, List.length_cons]
        omega
      rw [List.append_assoc, List.cons_append, read_lineFeed hrow, ih _ hshorter rest rfl, read_lineFeed hrow,
        List.append_assoc]
    · exact read_lineFeed ha b

/-! ## One row -/

theorem isBlank_of_isDigit {c : Char} (h : c.isDigit = true) : isBlank c = false := by
  simp only [Char.isDigit, Bool.and_eq_true, decide_eq_true_eq, ge_iff_le, UInt32.le_iff_toNat_le] at h
  obtain ⟨hlow, hhigh⟩ := h
  have hlow : 48 ≤ c.toNat := hlow
  have hhigh : c.toNat ≤ 57 := hhigh
  simp only [isBlank, Bool.or_eq_false_iff, Bool.and_eq_false_iff, decide_eq_false_iff_not, beq_eq_false_iff_ne]
  omega

theorem isDigit_toDigits (n : Nat) : ∀ c ∈ Nat.toDigits 10 n, c.isDigit = true :=
  fun _ => Nat.isDigit_of_mem_toDigits (by decide) (by decide)

theorem isSolid_toDigits (n : Nat) : IsSolid (Nat.toDigits 10 n) :=
  isSolid_of_forall Nat.toDigits_ne_nil fun c hc => isBlank_of_isDigit (isDigit_toDigits n c hc)

/-- A number that is below the bound is read back from its digits. -/
theorem decimal?_toDigits {bound n : Nat} (h : n < bound) : decimal? bound (Nat.toDigits 10 n) = some n := by
  have hvalue : (Nat.toDigits 10 n).foldl (fun n d => 10 * n + (d.toNat - '0'.toNat)) 0 = n :=
    Nat.ofDigitChars_toDigits (by decide) (le_refl 10)
  have hne : Nat.toDigits 10 n ≠ [] := Nat.toDigits_ne_nil
  have hdigits := isDigit_toDigits n
  unfold decimal?
  cases hds : Nat.toDigits 10 n with
  | nil => exact absurd hds hne
  | cons d ds =>
    rw [hds] at hvalue hdigits hne
    have hplus : d ≠ '+' := by
      rintro rfl
      exact absurd (hdigits '+' List.mem_cons_self) (by decide)
    split
    · next heq => exact absurd (List.cons.inj heq).1 hplus
    · rw [if_pos ⟨hne, List.all_eq_true.mpr hdigits⟩, hvalue]
      exact if_pos h

/-- Blanks within a row. -/
def IsSpace (cs : List Char) : Prop := IsGap cs ∧ '\n' ∉ cs

instance (cs : List Char) : Decidable (IsSpace cs) := inferInstanceAs (Decidable (IsGap cs ∧ '\n' ∉ cs))

/-- A process as it is printed on a row. -/
inductive IsRow (separator : Char) : Entry → List Char → Prop
  | intro (pid : UInt32) (as : List Argument) {lead between trail : List Char} (hne : as ≠ []) (hlead : IsSpace lead)
      (hbetween : IsSpace between) (hsep : separator ∈ between) (htrail : IsSpace trail) :
      IsRow separator (.new pid (as.map fun a => String.ofList a.text))
        (lead ++ (Nat.toDigits 10 pid.toNat ++ (between ++ (spaced as ++ trail))))

/-- A row is cut at the first separator behind its pid. -/
theorem ofLine?_row {digits between args lead trail : List Char} {n : Nat} (hdigits : IsSolid digits)
    (hno : separator ∉ digits) (hn : decimal? UInt32.size digits = some n) (hargs : IsSolid args)
    (hwords : ofChars args ≠ []) (hlead : IsGap lead) (hbetween : IsGap between) (hsep : separator ∈ between)
    (htrail : IsGap trail) :
    ofLine? separator (lead ++ (digits ++ (between ++ (args ++ trail)))) =
      some (.new (UInt32.ofNat n) ((ofChars args).map String.ofList)) := by
  obtain ⟨before, after, rfl, hbefore⟩ := List.eq_append_cons_of_mem hsep
  have hgap : IsGap before ∧ IsGap after :=
    ⟨fun c hc => hbetween c (List.mem_append_left _ hc),
      fun c hc => hbetween c (List.mem_append_right _ (List.mem_cons_of_mem _ hc))⟩
  have hnil : IsGap [] := nofun
  have hline : trim (lead ++ (digits ++ (before ++ separator :: after ++ (args ++ trail)))) =
      digits ++ before ++ separator :: (after ++ args) := by
    have hsolid := hdigits.append (before ++ separator :: after) hargs
    have htrim := trim_solid hlead hsolid htrail
    simpa only [List.append_assoc, List.cons_append] using htrim
  have hpid : trim (digits ++ before) = digits := by
    have htrim := trim_solid hnil hdigits hgap.1
    rwa [List.nil_append] at htrim
  have hrest : trim (after ++ args) = args := by
    have htrim := trim_solid hgap.2 hargs hnil
    rwa [List.append_nil] at htrim
  have hfront : ∀ c ∈ digits ++ before, (c != separator) = true := fun c hc => by
    rw [bne_iff_ne]
    rintro rfl
    exact (List.mem_append.mp hc).elim hno hbefore
  unfold ofLine?
  rw [hline]
  simp only [List.takeWhile_append_of_pos hfront, List.dropWhile_append_of_pos hfront]
  simp only [bne_self_eq_false, Bool.false_eq_true, not_false_eq_true, List.takeWhile_cons_of_neg,
    List.dropWhile_cons_of_neg, List.append_nil, hpid, hrest, hn]

section Rows

variable {e : Entry} {es : List Entry} {text : List Char}

/-- A row says the process that it was printed for. -/
theorem IsRow.ofLine? (h : IsRow separator e row) : Listing.ofLine? separator row = some e := by
  cases h with
  | @intro pid as lead between trail hne hlead hbetween hsep htrail =>
    have hnil : IsGap [] := nofun
    have hjoined := joined_spaced hne
    have hwords : ofChars (spaced as) = as.map Argument.text := by
      have hline := (IsLine.joined hnil hjoined hnil).ofChars
      rwa [List.nil_append, List.append_nil] at hline
    have hno : separator ∉ Nat.toDigits 10 pid.toNat := fun hmem =>
      Bool.noConfusion ((hbetween.1 separator hsep).symm.trans (isBlank_of_isDigit (isDigit_toDigits _ _ hmem)))
    rw [ofLine?_row (isSolid_toDigits _) hno (decimal?_toDigits pid.toNat_lt) hjoined.isSolid
      (hwords ▸ mt List.map_eq_nil_iff.mp hne) hlead.1 hbetween.1 hsep htrail.1, hwords, List.map_map,
      UInt32.ofNat_toNat]
    rfl

theorem IsRow.lineFeed_notMem (h : IsRow separator e row) (hwords : ∀ word ∈ e.cmdline, '\n' ∉ word.toList) :
    '\n' ∉ row := by
  cases h with
  | @intro pid as lead between trail hne hlead hbetween hsep htrail =>
    have has : ∀ a ∈ as, '\n' ∉ a.text := fun a ha => by
      have hword := hwords _ (List.mem_map_of_mem ha)
      rwa [String.toList_ofList] at hword
    have hdigits : '\n' ∉ Nat.toDigits 10 pid.toNat := fun hmem =>
      absurd (isDigit_toDigits _ _ hmem) (by decide)
    simp only [List.mem_append, not_or]
    exact ⟨hlead.2, hdigits, hbetween.2, lineFeed_notMem_spaced has, htrail.2⟩

/-- Every process can be printed on a row. -/
theorem exists_isRow (hsep : separator = ' ' ∨ separator = '\t') (pid : UInt32) {cmdline : List String}
    (hne : cmdline ≠ []) : ∃ row, IsRow separator (.new pid cmdline) row := by
  have hnil : IsSpace [] := ⟨nofun, nofun⟩
  have hspace : IsSpace [separator] := by
    rcases hsep with rfl | rfl
    all_goals exact ⟨List.forall_mem_singleton.mpr rfl, by decide⟩
  have hargs : cmdline.map (fun word => Argument.ofText word.toList) ≠ [] := mt List.map_eq_nil_iff.mp hne
  have hwords : (cmdline.map fun word => Argument.ofText word.toList).map (fun a => String.ofList a.text) =
      cmdline := by
    simp [Function.comp_def, Argument.text_ofText]
  rw [← hwords]
  exact ⟨_, .intro pid _ hargs hnil hspace (List.mem_singleton_self separator) hnil⟩

/-! ## A listing -/

/-- The end of a line, with a carriage return or without. -/
def IsLineEnd (cs : List Char) : Prop := cs = ['\n'] ∨ cs = ['\r', '\n']

/-- Processes as they are printed, each on a row; behind the last row the line end may be missing. -/
inductive Prints (separator : Char) : List Entry → List Char → Prop
  | nil : Prints separator [] []
  | last {e : Entry} {row : List Char} (h : IsRow separator e row) : Prints separator [e] row
  | cons {e : Entry} {es : List Entry} {row lineEnd text : List Char} (h : IsRow separator e row)
      (hend : IsLineEnd lineEnd) (hmore : Prints separator es text) :
      Prints separator (e :: es) (row ++ (lineEnd ++ text))

theorem IsRow.read (h : IsRow separator e row) (hwords : ∀ word ∈ e.cmdline, '\n' ∉ word.toList) :
    read separator row = [e] := by
  rw [read_row (h.lineFeed_notMem hwords), h.ofLine?]
  rfl

/-- The line end behind a row is not part of it. -/
theorem IsRow.read_lineEnd (h : IsRow separator e row) (hwords : ∀ word ∈ e.cmdline, '\n' ∉ word.toList)
    {lineEnd : List Char} (hend : IsLineEnd lineEnd) (text : List Char) :
    Listing.read separator (row ++ (lineEnd ++ text)) = e :: Listing.read separator text := by
  have hrow := h.lineFeed_notMem hwords
  rcases hend with rfl | rfl
  · exact (read_lineFeed hrow text).trans (by rw [h.read hwords, List.singleton_append])
  · have hrow' : '\n' ∉ row ++ ['\r'] := by simp [hrow]
    have hsplit : row ++ (['\r', '\n'] ++ text) = (row ++ ['\r']) ++ '\n' :: text := by simp
    rw [hsplit, read_lineFeed hrow', read_row hrow', ofLine?_congr (trim_gap isGap_return row), h.ofLine?]
    rfl

/-- What was printed is read back. -/
theorem Prints.read (h : Prints separator es text)
    (hwords : ∀ e ∈ es, ∀ word ∈ e.cmdline, '\n' ∉ word.toList) : read separator text = es := by
  induction h with
  | nil => rfl
  | last h => exact h.read (hwords _ List.mem_cons_self)
  | cons h hend _ ih =>
    obtain ⟨hfirst, hmore⟩ := List.forall_mem_cons.mp hwords
    rw [h.read_lineEnd hfirst hend, ih hmore]

theorem exists_prints (hsep : separator = ' ' ∨ separator = '\t') {ps : List (UInt32 × List String)}
    (hne : ∀ p ∈ ps, p.2 ≠ []) : ∃ text, Prints separator (ps.map fun p => .new p.1 p.2) text := by
  induction ps with
  | nil => exact ⟨[], .nil⟩
  | cons p ps ih =>
    obtain ⟨hfirst, hmore⟩ := List.forall_mem_cons.mp hne
    obtain ⟨row, hrow⟩ := exists_isRow hsep p.1 hfirst
    obtain ⟨text, htext⟩ := ih hmore
    exact ⟨_, .cons hrow (.inl rfl) htext⟩

end Rows

/-- The separator is a space or a tab. A line feed parts a listing in two that say what each says on its own, so a line
that says nothing changes nothing. Any processes, given by pids and arguments, can be printed if each has arguments and
none has a line feed in it; and however they are printed, just these are read back, in order, each under the file name
of its program. -/
theorem printed_read_back (separator : Char) (hsep : separator = ' ' ∨ separator = '\t') :
    (∀ a b : String, entries separator (a ++ "\n" ++ b) = entries separator a ++ entries separator b) ∧
    (∀ a line b : String, entries separator line = [] →
      entries separator (a ++ "\n" ++ line ++ "\n" ++ b) = entries separator a ++ entries separator b) ∧
    ∀ ps : List (UInt32 × List String), (∀ p ∈ ps, p.2 ≠ [] ∧ ∀ word ∈ p.2, '\n' ∉ word.toList) →
      let es := ps.map fun p => Entry.new p.1 p.2
      (∃ text : String, Prints separator es text.toList) ∧
      ∀ text : String, Prints separator es text.toList →
        entries separator text = es ∧ ∀ e ∈ es, ∀ program ∈ e.cmdline.head?, IsFileName program e.name := by
  have happend : ∀ a b : String, entries separator (a ++ "\n" ++ b) = entries separator a ++ entries separator b :=
    fun a b => by
      have hsplit : (a ++ "\n" ++ b).toList = a.toList ++ '\n' :: b.toList := by simp
      rw [entries_eq_read, hsplit, read_append]
      rfl
  refine ⟨happend, fun a line b hline => ?_, fun ps hps => ⟨?_, fun text htext => ⟨?_, ?_⟩⟩⟩
  · rw [happend, happend, hline, List.append_nil]
  · obtain ⟨text, htext⟩ := exists_prints hsep fun p hp => (hps p hp).1
    exact ⟨String.ofList text, by rwa [String.toList_ofList]⟩
  · exact htext.read (List.forall_mem_map.mpr fun p hp => (hps p hp).2)
  · refine List.forall_mem_map.mpr fun p _ program hprogram => ?_
    obtain ⟨args, hargs⟩ := List.head?_eq_some_iff.mp hprogram
    have hcmdline : p.2 = program :: args := hargs
    rw [hcmdline]
    exact (Entry.name_new_eq_iff p.1 program args _).mp rfl

/-- An encoder whose path holds a blank and whose last argument is empty, and one with quotes in an argument. -/
def twoEncoders : List Entry := [.new 42 ["/opt/my tools/encode", ""], .new 7 ["C:\\encode.exe", "say \"go\""]]

/-- The two, each printed with blanks of its own and with its own line end. -/
def twoRows : String := "  42 \t'/opt/my tools/encode' \"\" \r\n7\t C:\\encode.exe say\" \"'\"go\"'\n"

theorem prints_twoRows : Prints '\t' twoEncoders twoRows.toList := by
  have hnil : IsSpace [] := by decide
  have hfirst : IsRow '\t' (.new 42 ["/opt/my tools/encode", ""]) "  42 \t'/opt/my tools/encode' \"\" ".toList :=
    .intro 42 [⟨[.quoted '\'' "/opt/my tools/encode".toList rfl (by decide)], List.cons_ne_nil _ _⟩, .ofText []]
      (List.cons_ne_nil _ _) (by decide : IsSpace [' ', ' ']) (by decide : IsSpace [' ', '\t']) (by decide)
      (by decide : IsSpace [' '])
  have hsecond : IsRow '\t' (.new 7 ["C:\\encode.exe", "say \"go\""]) "7\t C:\\encode.exe say\" \"'\"go\"'".toList :=
    .intro 7
      [⟨[.bare "C:\\encode.exe".toList (by decide) (by simp [isQuote, isBlank])], List.cons_ne_nil _ _⟩,
        ⟨[.bare "say".toList (by decide) (by simp [isQuote, isBlank]), .quoted '"' [' '] rfl (by decide),
          .quoted '\'' "\"go\"".toList rfl (by decide)], List.cons_ne_nil _ _⟩]
      (List.cons_ne_nil _ _) hnil (by decide : IsSpace ['\t', ' ']) (by decide) hnil
  exact .cons hfirst (.inr rfl) (.cons hsecond (.inl rfl) .nil)

/-- The two are read back, also with a line between them that says nothing and leaves a quote open. -/
theorem two_encoders_read_back :
    entries '\t' twoRows = twoEncoders ∧
    (∀ e ∈ twoEncoders, ∀ program ∈ e.cmdline.head?, IsFileName program e.name) ∧
    twoEncoders.map Entry.name = ["encode", "encode.exe"] ∧
    entries '\t' "no pid\t'" = [] ∧
    entries '\t' (twoRows ++ "\n" ++ "no pid\t'" ++ "\n" ++ twoRows) = twoEncoders ++ twoEncoders := by
  obtain ⟨-, hmalformed, hprinted⟩ := printed_read_back '\t' (.inr rfl)
  have hwords : ∀ p ∈ twoEncoders.map fun e => (e.pid, e.cmdline), p.2 ≠ [] ∧ ∀ word ∈ p.2, '\n' ∉ word.toList := by
    decide
  obtain ⟨hentries, hnames⟩ : entries '\t' twoRows = twoEncoders ∧
      ∀ e ∈ twoEncoders, ∀ program ∈ e.cmdline.head?, IsFileName program e.name :=
    (hprinted _ hwords).2 twoRows prints_twoRows
  have hnone : entries '\t' "no pid\t'" = [] := by decide +kernel
  refine ⟨hentries, hnames, by decide +kernel, hnone, ?_⟩
  rw [hmalformed _ _ _ hnone, hentries]

end EncoderFleet.Listing
