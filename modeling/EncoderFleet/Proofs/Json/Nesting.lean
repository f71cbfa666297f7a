import EncoderFleet.Json.Printer
import EncoderFleet.Json.Reader
import Mathlib.Data.List.Forall2

/-!
# Texts inside texts

What the reader makes of a text does not depend on where the text stands. Read inside an open container, it takes the
reader through the states that it takes it through on its own, each with the open containers `within` it
(`State.step_within`, `State.run_within`), and at the next separator its value is handed to the container
(`State.run_item`).

So the texts of items and fields can be put together: `parse?_enclosed_array` and `parse?_enclosed_object` say what the
text of an array and of an object is read as, whatever texts its values have, and `parse?_padded` that blanks around a
text mean nothing.
-/

namespace EncoderFleet.Json

/-- A text of blanks. -/
def Blank (ws : List Char) : Prop := ∀ c ∈ ws, isSpace c = true

theorem isSpace_iff {c : Char} : isSpace c = true ↔ c = ' ' ∨ c = '\t' ∨ c = '\n' ∨ c = '\r' := by
  simp only [isSpace, Bool.or_eq_true, beq_iff_eq, or_assoc]

/-- Blanks do not belong to numbers. -/
theorem extend_of_space {c : Char} (h : isSpace c = true) (n : NumberScan) : n.extend c = none := by
  unfold NumberScan.extend
  rcases isSpace_iff.mp h with rfl | rfl | rfl | rfl <;> cases n.part <;> rfl

/-- A character at which a value ends that stands in a container. -/
inductive EndsValue : Char → Prop
  | blank {c : Char} (h : isSpace c = true) : EndsValue c
  | comma : EndsValue ','
  | bracket : EndsValue ']'
  | brace : EndsValue '\x7d'

/-- Nothing that ends a value belongs to a number. -/
theorem EndsValue.extend {c : Char} (h : EndsValue c) (n : NumberScan) : n.extend c = none := by
  cases h with
  | blank h => exact extend_of_space h n
  | _ => unfold NumberScan.extend; cases n.part <;> rfl

namespace State

/-! ## One step -/

/-- A state of the reader, with containers around the text that it reads that were open before it. Once the text has
been read, its value belongs to the innermost of them. -/
def within (k : List Frame) (s : State) : Option State :=
  match s.focus with
  | .done v => deliver v k
  | focus => some ⟨s.frames ++ k, focus⟩

/-- A list of open containers whose innermost one can take a value. -/
def Takes (k : List Frame) : Prop := ∀ v, ∃ g, deliver v k = some ⟨g, .after⟩

theorem takes_array (items : List Json) (k : List Frame) : Takes (.array items :: k) := fun _ => ⟨_, rfl⟩

theorem takes_member (fields : List (Option String × Json)) (name : Option String) (k : List Frame) :
    Takes (.member fields name :: k) := fun _ => ⟨_, rfl⟩

variable {k : List Frame} {s s' : State} {c : Char}

theorem deliver_within {v : Json} {fs : List Frame} (h : deliver v fs = some s') :
    deliver v (fs ++ k) = within k s' := by
  match fs, h with
  | [], h => cases h; rfl
  | .array _ :: _, h => cases h; rfl
  | .member _ _ :: _, h => cases h; rfl

theorem beginValue_within {fs : List Frame} (h : beginValue fs c = some s') :
    beginValue (fs ++ k) c = within k s' := by
  unfold beginValue at h ⊢
  split at h
  case h_8 =>
    obtain ⟨n, hn, rfl⟩ := Option.map_eq_some_iff.mp h
    rw [hn]
    rfl
  all_goals cases h; rfl

theorem afterValue_of_space (h : isSpace c = true) : afterValue s c = some s := if_pos h

theorem afterValue_within (h : afterValue s c = some s') :
    ((within k s).bind fun s => afterValue s c) = within k s' := by
  by_cases hc : isSpace c = true
  · rw [afterValue_of_space hc] at h
    cases h
    cases within k s with
    | none => rfl
    | some t => exact afterValue_of_space hc
  · obtain ⟨fs, focus⟩ := s
    unfold afterValue at h
    rw [if_neg hc] at h
    split at h
    case h_5 => cases h
    all_goals
      rename_i h1 h2
      obtain rfl : focus = .after := h1
      obtain rfl : fs = _ := h2
    · cases h
      simp [within, afterValue, hc]
    · simpa [within, afterValue, hc] using deliver_within h
    · cases h
      simp [within, afterValue, hc]
    · simpa [within, afterValue, hc] using deliver_within h

theorem item_within {fs : List Frame} (h : step ⟨fs, .item⟩ c = some s') :
    step ⟨fs ++ k, .item⟩ c = within k s' := by
  dsimp only [step] at h ⊢
  split at h
  · rw [if_pos ‹_›]
    cases h
    rfl
  · rw [if_neg ‹_›]
    split at h
    · exact deliver_within h
    · -- A closing bracket begins no value, so the one inside the containers is not taken for their end.
      have hc : c ≠ ']' := by
        rintro rfl
        cases h
      split
      · exact absurd rfl hc
      · exact beginValue_within h

theorem name_within {fs : List Frame} {first : Bool} (h : step ⟨fs, .name first⟩ c = some s') :
    step ⟨fs ++ k, .name first⟩ c = within k s' := by
  dsimp only [step] at h ⊢
  split at h
  · rw [if_pos ‹_›]
    cases h
    rfl
  · rw [if_neg ‹_›]
    split at h
    · cases h
      rfl
    · cases first with
      | true => exact deliver_within h
      | false => cases h
    · cases h

theorem word_within {fs : List Frame} {rest : List Char} {v : Json} (h : step ⟨fs, .word rest v⟩ c = some s') :
    step ⟨fs ++ k, .word rest v⟩ c = within k s' := by
  dsimp only [step] at h ⊢
  split at h
  · cases h
  · split at h
    · rw [if_pos ‹_›]
      exact deliver_within h
    · cases h
  · split at h
    · rw [if_pos ‹_›]
      cases h
      rfl
    · cases h

theorem text_within {fs : List Frame} {isName : Bool} {t : TextScan} (h : step ⟨fs, .text isName t⟩ c = some s') :
    step ⟨fs ++ k, .text isName t⟩ c = within k s' := by
  dsimp only [step] at h ⊢
  split at h
  · cases h
  · cases h
    rfl
  · cases isName with
    | true =>
      -- Only an object waits for a name, and it is one of the reader's own.
      simp only [if_true] at h ⊢
      match fs, h with
      | .object _ :: _, h => cases h; rfl
    | false => exact deliver_within h

theorem number_within {fs : List Frame} {n : NumberScan} (h : step ⟨fs, .number n⟩ c = some s') :
    step ⟨fs ++ k, .number n⟩ c = within k s' := by
  dsimp only [step] at h ⊢
  split at h
  · cases h
    rfl
  · split at h
    · rw [if_pos ‹_›]
      obtain ⟨t, ht, h⟩ := Option.bind_eq_some_iff.mp h
      rw [deliver_within ht]
      exact afterValue_within h
    · cases h

/-- A step of the reader is the same step inside open containers. -/
theorem step_within (hk : Takes k) (h : s.step c = some s') : ((within k s).bind fun s => s.step c) = within k s' := by
  obtain ⟨fs, focus⟩ := s
  cases focus with
  | value =>
    show step ⟨fs ++ k, .value⟩ c = _
    dsimp only [step] at h ⊢
    split at h
    · rw [if_pos ‹_›]
      cases h
      rfl
    · rw [if_neg ‹_›]
      exact beginValue_within h
  | item => exact item_within h
  | name first => exact name_within h
  | colon =>
    show step ⟨fs ++ k, .colon⟩ c = _
    dsimp only [step] at h ⊢
    split at h
    · rw [if_pos ‹_›]
      cases h
      rfl
    · rw [if_neg ‹_›]
      split at h
      · rw [if_pos ‹_›]
        cases h
        rfl
      · cases h
  | after => exact afterValue_within h
  | done v =>
    -- The containers take the value that ended the text, and the reader is after it there.
    obtain ⟨g, hg⟩ := hk v
    have hw : within k ⟨fs, .done v⟩ = some ⟨g, .after⟩ := hg
    have h := afterValue_within (k := k) (show afterValue ⟨fs, .done v⟩ c = some s' from h)
    rw [hw] at h ⊢
    exact h
  | word rest v => exact word_within h
  | text isName t => exact text_within h
  | number n => exact number_within h

/-! ## Whole texts -/

/-- What is read of a text is the same inside open containers. -/
theorem run_within (hk : Takes k) {w : List Char} (h : s.run w = some s') :
    ((within k s).bind fun s => s.run w) = within k s' := by
  induction w generalizing s with
  | nil =>
    obtain rfl : s = s' := Option.some.inj h
    cases within k s <;> rfl
  | cons c w ih =>
    obtain ⟨t, ht, h⟩ := Option.bind_eq_some_iff.mp h
    rw [← ih h, ← step_within hk ht]
    cases within k s <;> rfl

/-- A text that writes a value hands it to the innermost container, and what ends it is read after that. -/
theorem run_nested {w rest : List Char} {v : Json} {g : List Frame} {d : Char} (hk : Takes k) (hw : parse? w = some v)
    (hg : deliver v k = some ⟨g, .after⟩) (hd : EndsValue d) :
    run ⟨k, .value⟩ (w ++ d :: rest) = run ⟨g, .after⟩ (d :: rest) := by
  obtain ⟨s, hs, hf⟩ := Option.bind_eq_some_iff.mp hw
  have hrun : run ⟨k, .value⟩ w = within k s := run_within hk hs
  rw [run_append, hrun]
  obtain ⟨fs, focus⟩ := s
  cases focus with
  | done u =>
    cases hf
    rw [show within k ⟨fs, .done v⟩ = some ⟨g, .after⟩ from hg]
    rfl
  | number n =>
    cases fs with
    | cons => cases hf
    | nil =>
      obtain ⟨hc, rfl⟩ : n.complete = true ∧ Json.number n.numeral = v := by simpa [finish] using hf
      show (step ⟨k, .number n⟩ d).bind _ = _
      dsimp only [step]
      simp only [hd.extend, hc, if_true, hg]
      rfl
  | _ => cases hf

/-- At the front of an array a value is read like anywhere else. -/
theorem run_front {w rest : List Char} {v : Json} (hw : parse? w = some v) :
    run ⟨k, .item⟩ (w ++ rest) = run ⟨k, .value⟩ (w ++ rest) := by
  unfold parse? at hw
  induction w with
  | nil => cases hw
  | cons c w ih =>
    dsimp only [List.cons_append, run, step] at hw ⊢
    by_cases hc : isSpace c = true
    · simp only [hc, if_true, Option.bind_some] at hw ⊢
      exact ih hw
    · simp only [hc, if_false, Bool.false_eq_true] at hw ⊢
      have hne : c ≠ ']' := by rintro rfl; cases hw
      split
      · exact absurd rfl hne
      · rfl

/-! ## Blanks -/

theorem run_blank {ws : List Char} (h : Blank ws) (hs : ∀ c, isSpace c = true → s.step c = some s) :
    s.run ws = some s := by
  induction ws with
  | nil => rfl
  | cons c ws ih =>
    rw [run, hs c (h c List.mem_cons_self)]
    exact ih fun d hd => h d (List.mem_cons_of_mem c hd)

theorem step_value_of_space (hc : isSpace c = true) : step ⟨k, .value⟩ c = some ⟨k, .value⟩ := if_pos hc

theorem step_item_of_space (hc : isSpace c = true) : step ⟨k, .item⟩ c = some ⟨k, .item⟩ := if_pos hc

theorem step_name_of_space {first : Bool} (hc : isSpace c = true) :
    step ⟨k, .name first⟩ c = some ⟨k, .name first⟩ := if_pos hc

theorem step_colon_of_space (hc : isSpace c = true) : step ⟨k, .colon⟩ c = some ⟨k, .colon⟩ := if_pos hc

theorem step_after_of_space (hc : isSpace c = true) : step ⟨k, .after⟩ c = some ⟨k, .after⟩ := afterValue_of_space hc

/-- A blank after a value that has been read changes nothing about it. -/
theorem finish_step_of_space {v : Json} (h : s.finish = some v) (hc : isSpace c = true) :
    (s.step c).bind finish = some v := by
  obtain ⟨fs, focus⟩ := s
  cases focus with
  | done u => rw [show step ⟨fs, .done u⟩ c = some ⟨fs, .done u⟩ from afterValue_of_space hc]; exact h
  | number n =>
    cases fs with
    | cons => cases h
    | nil =>
      obtain ⟨hn, rfl⟩ : n.complete = true ∧ Json.number n.numeral = v := by simpa [finish] using h
      dsimp only [step]
      simp only [extend_of_space hc, hn, if_true, deliver, Option.bind_some, afterValue_of_space hc]
      rfl
  | _ => cases h

theorem finish_run_blank {v : Json} {ws : List Char} (h : s.finish = some v) (hb : Blank ws) :
    (s.run ws).bind finish = some v := by
  induction ws generalizing s with
  | nil => exact h
  | cons c ws ih =>
    obtain ⟨t, ht, hf⟩ := Option.bind_eq_some_iff.mp (finish_step_of_space h (hb c List.mem_cons_self))
    rw [run, ht]
    exact ih hf fun d hd => hb d (List.mem_cons_of_mem c hd)

end State

/-- Blanks around a text mean nothing. -/
theorem parse?_padded {front back w : List Char} {v : Json} (hw : parse? w = some v) (hf : Blank front)
    (hb : Blank back) : parse? (front ++ w ++ back) = some v := by
  obtain ⟨s, hs, hv⟩ := Option.bind_eq_some_iff.mp hw
  have hfront : State.run {} front = some {} := State.run_blank hf fun c hc => State.step_value_of_space hc
  unfold parse?
  rw [State.run_append, State.run_append, hfront, Option.bind_some, hs]
  exact State.finish_run_blank hv hb

/-! ## Strings -/

theorem hexDigit?_hexChar : ∀ d < 16, TextScan.hexDigit? (hexChar d) = some d := by decide

/-- A character is written by a short escape, by its number, or as it is. -/
theorem escapeChar_cases (c : Char) :
    (∃ d, escapeChar c = ['\\', d] ∧ TextScan.shortEscape? d = some c ∧ d ≠ 'u') ∨
    (escapeChar c = ['\\', 'u', '0', '0', hexChar (c.toNat / 16), hexChar (c.toNat % 16)] ∧ c.toNat < 0x20) ∨
    (escapeChar c = [c] ∧ c ≠ '"' ∧ c ≠ '\\' ∧ ¬c.toNat < 0x20) := by
  unfold escapeChar
  iterate 7
    split
    · next h => exact .inl ⟨_, rfl, by rw [beq_iff_eq.mp h]; rfl, by decide⟩
  split
  · next h => exact .inr (.inl ⟨rfl, h⟩)
  · next hq hb _ _ _ _ _ hc => exact .inr (.inr ⟨rfl, by simpa using hq, by simpa using hb, hc⟩)

/-- A string that goes on. -/
theorem State.run_more {k : List Frame} {isName : Bool} {t u : TextScan} {c : Char} {rest : List Char}
    (h : t.extend c = some (.more u)) : run ⟨k, .text isName t⟩ (c :: rest) = run ⟨k, .text isName u⟩ rest := by
  have hstep : step ⟨k, .text isName t⟩ c = some ⟨k, .text isName u⟩ := by
    unfold step
    dsimp only
    rw [h]
  rw [run, hstep]
  rfl

/-- What is written for a character is read as that character. -/
theorem State.run_escapeChar {k : List Frame} {isName : Bool} {cs rest : List Char} (c : Char) :
    run ⟨k, .text isName { chars := cs }⟩ (escapeChar c ++ rest) =
      run ⟨k, .text isName { chars := c :: cs }⟩ rest := by
  rcases escapeChar_cases c with ⟨d, he, hd, hu⟩ | ⟨he, hc⟩ | ⟨he, hq, hb, hc⟩
  · have hlast : TextScan.extend { chars := cs, escape := .begun } d = some (.more { chars := c :: cs }) := by
      simp [TextScan.extend, TextScan.push, hd, hu]
    rw [he]
    exact (run_more rfl).trans (run_more hlast)
  · have hhigh : TextScan.extend { chars := cs, escape := .hex 2 0 } (hexChar (c.toNat / 16)) =
        some (.more { chars := cs, escape := .hex 1 (c.toNat / 16) }) := by
      simp [TextScan.extend, hexDigit?_hexChar (c.toNat / 16) (by omega)]
    have hunit : c.toNat / 16 * 16 + c.toNat % 16 = c.toNat := by omega
    have hpush : ∀ t : TextScan, t.pushUnit c.toNat = t.push c := by
      intro t
      rw [TextScan.pushUnit, if_neg (by omega), if_neg (by omega), Char.ofNat_toNat]
    have hlow : TextScan.extend { chars := cs, escape := .hex 1 (c.toNat / 16) } (hexChar (c.toNat % 16)) =
        some (.more { chars := c :: cs }) := by
      simp [TextScan.extend, hexDigit?_hexChar (c.toNat % 16) (by omega), hunit, hpush, TextScan.push]
    rw [he]
    calc run ⟨k, .text isName { chars := cs }⟩ _
      _ = run ⟨k, .text isName { chars := cs, escape := .begun }⟩ _ := run_more rfl
      _ = run ⟨k, .text isName { chars := cs, escape := .hex 4 0 }⟩ _ := run_more rfl
      _ = run ⟨k, .text isName { chars := cs, escape := .hex 3 0 }⟩ _ := run_more rfl
      _ = run ⟨k, .text isName { chars := cs, escape := .hex 2 0 }⟩ _ := run_more rfl
      _ = run ⟨k, .text isName { chars := cs, escape := .hex 1 (c.toNat / 16) }⟩ _ := run_more hhigh
      _ = run ⟨k, .text isName { chars := c :: cs }⟩ rest := run_more hlow
  · have hlast : TextScan.extend { chars := cs } c = some (.more { chars := c :: cs }) := by
      simp [TextScan.extend, TextScan.push, hq, hb, hc]
    rw [he]
    exact run_more hlast

/-- The text of a string literal behind its first quote, read up to the last one. -/
theorem State.run_escaped {k : List Frame} {isName : Bool} {cs ds rest : List Char} :
    run ⟨k, .text isName { chars := ds }⟩ (cs.flatMap escapeChar ++ rest) =
      run ⟨k, .text isName { chars := cs.reverse ++ ds }⟩ rest := by
  induction cs generalizing ds with
  | nil => rfl
  | cons c cs ih =>
    rw [List.flatMap_cons, List.append_assoc, run_escapeChar, ih, List.reverse_cons, List.append_assoc]
    rfl

/-- The scan of a string at the closing quote of what is written for it. -/
theorem State.run_quote (k : List Frame) (isName : Bool) (s : Option String) (rest : List Char) :
    ∃ t : TextScan, t.value = s ∧ t.escape = .none ∧
      run ⟨k, .text isName {}⟩ ((quote s).tail ++ rest) = run ⟨k, .text isName t⟩ ('"' :: rest) := by
  cases s with
  | some s =>
    refine ⟨{ chars := s.toList.reverse }, ?_, rfl, ?_⟩
    · simp [TextScan.value]
    · rw [quote, List.tail_cons, List.append_assoc, run_escaped, List.append_nil]
      rfl
  | none =>
    refine ⟨{ high := some 0xD800 }, rfl, rfl, ?_⟩
    rfl

theorem extend_quote {t : TextScan} (he : t.escape = .none) : t.extend '"' = some (.closed t.value) := by
  unfold TextScan.extend
  rw [he]
  rfl

/-- A string literal is read as the string that it names. -/
theorem parse?_quote (s : Option String) : parse? (quote s) = some (.string s) := by
  obtain ⟨t, rfl, he, ht⟩ := State.run_quote [] false s []
  have hq : quote t.value = '"' :: (quote t.value).tail := by cases t.value <;> rfl
  have hrun : State.run {} (quote t.value) = State.run ⟨[], .text false {}⟩ ((quote t.value).tail ++ []) := by
    rw [List.append_nil, hq]
    rfl
  rw [parse?, hrun, ht]
  simp [State.run, State.step, extend_quote he, State.deliver, State.finish]

/-! ## Arrays and objects -/

/-- Texts behind a first one, each after a comma, and an ending. -/
def listed (ending : List Char) : List (List Char) → List Char
  | [] => ending
  | t :: ts => ',' :: (t ++ listed ending ts)

/-- Texts between an opening character and an ending, with commas between them. -/
def enclosed (opening : Char) (ending : List Char) : List (List Char) → List Char
  | [] => opening :: ending
  | t :: ts => opening :: (t ++ listed ending ts)

/-- Behind each text of a list there is something that ends a value. -/
theorem exists_listed {ws : List Char} {close : Char} (hb : Blank ws) (hc : EndsValue close) (ts : List (List Char)) :
    ∃ d r, listed (ws ++ [close]) ts = d :: r ∧ EndsValue d := by
  cases ts with
  | nil =>
    cases ws with
    | nil => exact ⟨_, _, rfl, hc⟩
    | cons c ws => exact ⟨_, _, rfl, .blank (hb c List.mem_cons_self)⟩
  | cons t ts => exact ⟨_, _, rfl, .comma⟩

/-- The text of a field: its name with blanks around it, a colon, and a text of its value. -/
inductive WritesField : List Char → Option String × Json → Prop
  | intro {front back w : List Char} {name : Option String} {v : Json} (hf : Blank front) (hb : Blank back)
      (hw : parse? w = some v) : WritesField (front ++ quote name ++ back ++ ':' :: w) (name, v)

namespace State

variable {ws rest : List Char} {k : List Frame}

/-- Reading an item up to what ends it. -/
theorem run_item {t : List Char} {v : Json} {items : List Json} {d : Char} (ht : parse? t = some v) (hd : EndsValue d) :
    run ⟨.array items :: k, .value⟩ (t ++ d :: rest) = run ⟨.array (v :: items) :: k, .after⟩ (d :: rest) :=
  run_nested (takes_array items k) ht rfl hd

/-- Reading a field up to what ends it. -/
theorem run_field {t : List Char} {f : Option String × Json} {fields : List (Option String × Json)} {first : Bool}
    {d : Char} (ht : WritesField t f) (hd : EndsValue d) :
    run ⟨.object fields :: k, .name first⟩ (t ++ d :: rest) =
      run ⟨.object (f :: fields) :: k, .after⟩ (d :: rest) := by
  obtain @⟨front, back, w, name, v, hf, hb, hw⟩ := ht
  obtain ⟨t, rfl, he, ht⟩ := run_quote (.object fields :: k) true name (back ++ ':' :: (w ++ d :: rest))
  have hq : quote t.value = '"' :: (quote t.value).tail := by cases t.value <;> rfl
  have hname : run ⟨.object fields :: k, .name first⟩ (quote t.value ++ (back ++ ':' :: (w ++ d :: rest))) =
      run ⟨.member fields t.value :: k, .colon⟩ (back ++ ':' :: (w ++ d :: rest)) := by
    rw [hq]
    show run ⟨.object fields :: k, .text true {}⟩ ((quote t.value).tail ++ (back ++ ':' :: (w ++ d :: rest))) = _
    rw [ht]
    simp [run, step, extend_quote he]
  have hcolon : run ⟨.member fields t.value :: k, .colon⟩ (back ++ ':' :: (w ++ d :: rest)) =
      run ⟨.member fields t.value :: k, .value⟩ (w ++ d :: rest) := by
    rw [run_append, run_blank hb fun c hc => step_colon_of_space hc]
    rfl
  simp only [List.append_assoc, List.cons_append]
  rw [run_append, run_blank hf fun c hc => step_name_of_space hc, Option.bind_some, hname, hcolon]
  exact run_nested (takes_member fields t.value k) hw rfl hd

/-- Reading on from an item to the end of its array. -/
theorem run_listed_items {ts : List (List Char)} {vs : List Json}
    (hw : List.Forall₂ (fun t v => parse? t = some v) ts vs) (hb : Blank ws) (items : List Json) :
    run ⟨.array items :: k, .after⟩ (listed (ws ++ [']']) ts) = deliver (.array (items.reverse ++ vs)) k := by
  induction hw generalizing items with
  | nil =>
    rw [listed, run_append, run_blank hb fun c hc => step_after_of_space hc, List.append_nil]
    show (deliver _ k).bind _ = _
    cases deliver (.array items.reverse) k <;> rfl
  | @cons t v ts vs ht _ ih =>
    obtain ⟨d, r, hr, hd⟩ := exists_listed hb .bracket ts
    show run ⟨.array items :: k, .value⟩ (t ++ listed (ws ++ [']']) ts) = _
    rw [hr, run_item ht hd, ← hr, ih, List.reverse_cons, List.append_assoc]
    rfl

/-- Reading on from a field to the end of its object. -/
theorem run_listed_fields {ts : List (List Char)} {fs : List (Option String × Json)}
    (hw : List.Forall₂ WritesField ts fs) (hb : Blank ws) (fields : List (Option String × Json)) :
    run ⟨.object fields :: k, .after⟩ (listed (ws ++ ['\x7d']) ts) = deliver (.object (fields.reverse ++ fs)) k := by
  induction hw generalizing fields with
  | nil =>
    rw [listed, run_append, run_blank hb fun c hc => step_after_of_space hc, List.append_nil]
    show (deliver _ k).bind _ = _
    cases deliver (.object fields.reverse) k <;> rfl
  | @cons t f ts fs ht _ ih =>
    obtain ⟨d, r, hr, hd⟩ := exists_listed hb .brace ts
    show run ⟨.object fields :: k, .name false⟩ (t ++ listed (ws ++ ['\x7d']) ts) = _
    rw [hr, run_field ht hd, ← hr, ih, List.reverse_cons, List.append_assoc]
    rfl

end State

/-- The text of an array, whatever the texts of its items are. -/
theorem parse?_enclosed_array {ws : List Char} {ts : List (List Char)} {vs : List Json} (hb : Blank ws)
    (hw : List.Forall₂ (fun t v => parse? t = some v) ts vs) :
    parse? (enclosed '[' (ws ++ [']']) ts) = some (.array vs) := by
  cases hw with
  | nil =>
    show (State.run ⟨[.array []], .item⟩ (ws ++ [']'])).bind State.finish = _
    rw [State.run_append, State.run_blank hb fun c hc => State.step_item_of_space hc]
    rfl
  | @cons t v ts vs ht hts =>
    obtain ⟨d, r, hr, hd⟩ := exists_listed hb .bracket ts
    show (State.run ⟨[.array []], .item⟩ (t ++ listed (ws ++ [']']) ts)).bind State.finish = _
    rw [State.run_front ht, hr, State.run_item ht hd, ← hr, State.run_listed_items hts hb]
    rfl

/-- The text of an object, whatever the texts of its fields are. -/
theorem parse?_enclosed_object {ws : List Char} {ts : List (List Char)} {fs : List (Option String × Json)}
    (hb : Blank ws) (hw : List.Forall₂ WritesField ts fs) :
    parse? (enclosed '\x7b' (ws ++ ['\x7d']) ts) = some (.object fs) := by
  cases hw with
  | nil =>
    show (State.run ⟨[.object []], .name true⟩ (ws ++ ['\x7d'])).bind State.finish = _
    rw [State.run_append, State.run_blank hb fun c hc => State.step_name_of_space hc]
    rfl
  | @cons t f ts fs ht hts =>
    obtain ⟨d, r, hr, hd⟩ := exists_listed hb .brace ts
    show (State.run ⟨[.object []], .name true⟩ (t ++ listed (ws ++ ['\x7d']) ts)).bind State.finish = _
    rw [hr, State.run_field ht hd, ← hr, State.run_listed_fields hts hb]
    rfl

end EncoderFleet.Json
