import EncoderFleet.Proofs.Json.Nesting

/-!
# Reading what was written

A value whose numbers are whole (`Integral`) is read back from its text as it was, in either layout:
`parse?_compact` and `parse?_pretty`. Both follow from what is read of texts inside texts: in both layouts the text of
a container is an enclosed list of the texts of its members, with blanks around them in one of the two
(`compact_array`, `pretty_array` and their likes).
-/

namespace EncoderFleet.Json

/-- All numbers in the value are whole: they have no fraction and no exponent. -/
inductive Integral : Json → Prop
  | null : Integral .null
  | bool (b : Bool) : Integral (.bool b)
  | number (negative : Bool) (n : Nat) : Integral (.number ⟨negative, n, []⟩)
  | string (s : Option String) : Integral (.string s)
  | array {items : List Json} (h : ∀ v ∈ items, Integral v) : Integral (.array items)
  | object {fields : List (Option String × Json)} (h : ∀ f ∈ fields, Integral f.2) : Integral (.object fields)

attribute [simp] Integral.bool

@[simp] theorem integral_text (s : String) : Integral (.text s) := .string _

@[simp] theorem integral_nat (n : Nat) : Integral (.nat n) := .number false n

@[simp] theorem integral_option {α : Type} {f : α → Json} (h : ∀ a, Integral (f a)) (o : Option α) : Integral (.option f o) := by
  cases o with
  | none => exact .null
  | some a => exact h a

theorem integral_record {fields : List (String × Json)} (h : ∀ f ∈ fields, Integral f.2) :
    Integral (.record fields) := by
  refine .object fun f hf => ?_
  obtain ⟨g, hg, rfl⟩ := List.mem_map.mp hf
  exact h g hg

/-! ## Numbers -/

namespace State

variable {k : List Frame}

/-- Where a whole number stands once it has been read. -/
def wholeScan (negative : Bool) (n : Nat) : NumberScan :=
  { part := if n = 0 then .zero else .whole, negative := negative, whole := n }

/-- A digit behind the first one of a number. -/
theorem extend_digitChar {negative : Bool} {m d : Nat} (hm : 0 < m) (hd : d < 10) :
    (wholeScan negative m).extend d.digitChar = some (wholeScan negative (m * 10 + d)) := by
  have hdigit : NumberScan.digit d.digitChar = d := Nat.toNat_digitChar_sub_48_of_lt_ten hd
  have hm' : ¬m = 0 := by omega
  have hn : ¬m * 10 + d = 0 := by omega
  simp only [wholeScan, hm', hn, if_false, NumberScan.extend, Nat.isDigit_digitChar, hd, hdigit, decide_true, if_true]

/-- The first digit of a number. -/
theorem extend_first {negative : Bool} {d : Nat} (hd : d < 10) :
    NumberScan.extend { part := .sign, negative := negative } d.digitChar = some (wholeScan negative d) := by
  have hdigit : NumberScan.digit d.digitChar = d := Nat.toNat_digitChar_sub_48_of_lt_ten hd
  by_cases h0 : d = 0
  · simp [h0, NumberScan.extend, wholeScan]
  · simp [NumberScan.extend, Nat.isDigit_digitChar, hd, hdigit, h0, wholeScan]

/-- The digits of a number, read from behind its sign. -/
theorem run_digits (negative : Bool) (n : Nat) (rest : List Char) :
    run ⟨k, .number { part := .sign, negative := negative }⟩ (Nat.toDigits 10 n ++ rest) =
      run ⟨k, .number (wholeScan negative n)⟩ rest := by
  induction n using Nat.strongRecOn generalizing rest with
  | _ n ih =>
    by_cases hn : n < 10
    · rw [Nat.toDigits_of_lt_base hn]
      show (step ⟨k, .number _⟩ n.digitChar).bind _ = _
      simp only [step, extend_first hn]
      rfl
    · have hdiv : 0 < n / 10 := by omega
      have hsum : n / 10 * 10 + n % 10 = n := by omega
      rw [Nat.toDigits_of_base_le (by omega) (by omega), List.append_assoc, ih _ (by omega)]
      show (step ⟨k, .number _⟩ (n % 10).digitChar).bind _ = _
      simp only [step, extend_digitChar hdiv (Nat.mod_lt n (by omega)), hsum]
      rfl

/-- A number without a sign begins with its first digit. -/
theorem step_value_of_digit {c : Char} (hc : c.isDigit = true) :
    step ⟨k, .value⟩ c = step ⟨k, .number { part := .sign }⟩ c := by
  have hs : isSpace c = false := by
    refine Bool.eq_false_iff.mpr fun h => ?_
    rcases isSpace_iff.mp h with rfl | rfl | rfl | rfl <;> cases hc
  have hz : NumberScan.complete { part := .sign } = false := rfl
  simp only [step, hs, hz, Bool.false_eq_true, if_false]
  unfold beginValue
  split
  case h_8 => cases NumberScan.extend { part := .sign } c <;> rfl
  all_goals cases hc

end State

theorem parse?_number (negative : Bool) (n : Nat) :
    parse? (Numeral.chars ⟨negative, n, []⟩) = some (.number ⟨negative, n, []⟩) := by
  have hfinish : State.finish ⟨[], .number (State.wholeScan negative n)⟩ = some (.number ⟨negative, n, []⟩) := by
    by_cases h0 : n = 0 <;>
      simp [State.finish, State.wholeScan, NumberScan.complete, NumberScan.numeral, h0]
  have hrun : State.run {} (Numeral.chars ⟨negative, n, []⟩) = some ⟨[], .number (State.wholeScan negative n)⟩ := by
    have hdigits := State.run_digits (k := []) negative n []
    cases negative with
    | true => exact hdigits
    | false =>
      refine Eq.trans ?_ hdigits
      show State.run {} (Nat.toDigits 10 n ++ []) = _
      have hd : ∀ c ∈ Nat.toDigits 10 n, c.isDigit = true :=
        fun c => Nat.isDigit_of_mem_toDigits (by omega) (by omega)
      cases hds : Nat.toDigits 10 n with
      | nil => exact absurd hds Nat.toDigits_ne_nil
      | cons d ds =>
        have hstep := State.step_value_of_digit (k := []) (hd d (hds ▸ List.mem_cons_self))
        exact congrArg (fun o => o.bind fun s => State.run s (ds ++ [])) hstep
  rw [parse?, hrun]
  exact hfinish

/-! ## The two layouts -/

/-- The text of a field in the compact layout. -/
def compactField (f : Option String × Json) : List Char := quote f.1 ++ ':' :: compact f.2

/-- The text of a field in the layout with one member a line, in an object at `depth`. -/
def prettyField (depth : Nat) (f : Option String × Json) : List Char :=
  newline (depth + 1) ++ (quote f.1 ++ ':' :: ' ' :: pretty (depth + 1) f.2)

theorem compactItems_eq (vs : List Json) : compactItems vs = listed [']'] (vs.map compact) := by
  induction vs with
  | nil => rfl
  | cons v vs ih => rw [compactItems, ih]; rfl

theorem compactFields_eq (fs : List (Option String × Json)) :
    compactFields fs = listed ['\x7d'] (fs.map compactField) := by
  induction fs with
  | nil => rfl
  | cons f fs ih => rw [compactFields, ih]; simp [listed, compactField]

theorem compact_array (vs : List Json) : compact (.array vs) = enclosed '[' [']'] (vs.map compact) := by
  cases vs with
  | nil => rfl
  | cons v vs => rw [compact, compactItems_eq]; rfl

theorem compact_object (fs : List (Option String × Json)) :
    compact (.object fs) = enclosed '\x7b' ['\x7d'] (fs.map compactField) := by
  cases fs with
  | nil => rfl
  | cons f fs => rw [compact, compactFields_eq]; simp [enclosed, compactField]

theorem prettyItems_eq (depth : Nat) (vs : List Json) :
    prettyItems depth vs =
      listed (newline depth ++ [']']) (vs.map fun v => newline (depth + 1) ++ pretty (depth + 1) v) := by
  induction vs with
  | nil => rfl
  | cons v vs ih => rw [prettyItems, ih]; simp [listed]

theorem prettyFields_eq (depth : Nat) (fs : List (Option String × Json)) :
    prettyFields depth fs = listed (newline depth ++ ['\x7d']) (fs.map (prettyField depth)) := by
  induction fs with
  | nil => rfl
  | cons f fs ih => rw [prettyFields, ih]; simp [listed, prettyField]

theorem pretty_array (depth : Nat) (v : Json) (vs : List Json) :
    pretty depth (.array (v :: vs)) = enclosed '[' (newline depth ++ [']'])
      ((v :: vs).map fun v => newline (depth + 1) ++ pretty (depth + 1) v) := by
  rw [pretty, prettyItems_eq]; simp [enclosed]

theorem pretty_object (depth : Nat) (f : Option String × Json) (fs : List (Option String × Json)) :
    pretty depth (.object (f :: fs)) =
      enclosed '\x7b' (newline depth ++ ['\x7d']) ((f :: fs).map (prettyField depth)) := by
  rw [pretty, prettyFields_eq]; simp [enclosed, prettyField]

theorem blank_nil : Blank [] := nofun

theorem blank_newline (depth : Nat) : Blank (newline depth) := by
  intro c hc
  rcases List.mem_cons.mp hc with rfl | hc
  · rfl
  · rw [List.eq_of_mem_replicate hc]; rfl

/-! ## Reading back -/

/-- The compact text of a value is read as the value. -/
theorem parse?_compact {v : Json} (h : Integral v) : parse? v.compact = some v := by
  induction h with
  | null => rfl
  | bool b => cases b <;> rfl
  | number negative n => exact parse?_number negative n
  | string s => exact parse?_quote s
  | @array items _ ih =>
    rw [compact_array]
    show parse? (enclosed '[' ([] ++ [']']) _) = _
    refine parse?_enclosed_array blank_nil ?_
    exact List.forall₂_map_left_iff.mpr (List.forall₂_same.mpr ih)
  | @object fields _ ih =>
    rw [compact_object]
    show parse? (enclosed '\x7b' ([] ++ ['\x7d']) _) = _
    refine parse?_enclosed_object blank_nil ?_
    refine List.forall₂_map_left_iff.mpr (List.forall₂_same.mpr fun f hf => ?_)
    have hw : WritesField ([] ++ quote f.1 ++ [] ++ ':' :: compact f.2) f := .intro blank_nil blank_nil (ih f hf)
    rwa [List.nil_append, List.append_nil] at hw

/-- The text of a value with one member a line is read as the value. -/
theorem parse?_pretty {v : Json} (h : Integral v) (depth : Nat) : parse? (v.pretty depth) = some v := by
  induction h generalizing depth with
  | null => rfl
  | bool b => cases b <;> rfl
  | number negative n => exact parse?_number negative n
  | string s => exact parse?_quote s
  | @array items _ ih =>
    cases items with
    | nil => rfl
    | cons v vs =>
      rw [pretty_array]
      refine parse?_enclosed_array (blank_newline depth) ?_
      refine List.forall₂_map_left_iff.mpr (List.forall₂_same.mpr fun v hv => ?_)
      have hp := parse?_padded (ih v hv (depth + 1)) (blank_newline (depth + 1)) blank_nil
      rwa [List.append_nil] at hp
  | @object fields _ ih =>
    cases fields with
    | nil => rfl
    | cons f fs =>
      rw [pretty_object]
      refine parse?_enclosed_object (blank_newline depth) ?_
      refine List.forall₂_map_left_iff.mpr (List.forall₂_same.mpr fun f hf => ?_)
      have hblank : Blank [' '] := fun c hc => by rw [List.mem_singleton.mp hc]; rfl
      have hp := parse?_padded (ih f hf (depth + 1)) hblank blank_nil
      have hw : WritesField (newline (depth + 1) ++ quote f.1 ++ [] ++ ':' :: ([' '] ++ pretty (depth + 1) f.2 ++ [])) f :=
        .intro (blank_newline (depth + 1)) blank_nil hp
      simpa [prettyField] using hw

end EncoderFleet.Json
