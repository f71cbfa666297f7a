import EncoderFleet.Json.Record
import EncoderFleet.Proofs.Json.RoundTrip
import Mathlib.Data.List.Nodup

/-!
# Object forms of a record

A record need not be given as it is written: `Rearranges` says which fields make an object form of it. They may stand in
any order, those that have their default may be missing, and fields of other names may stand among them. Whatever the
form, `slots` finds in it what the record holds, or nothing where a default is missing (`slots_of_rearranges`), and that
is enough to read each field (`Gives.required`, `Gives.withDefault`, `Gives.nullable`).

A text `WritesObject` when it writes an object with given fields, whatever blanks and whatever texts of the values it
has (`parse?_of_writesObject`). `Survives` and `SurvivesRearranging` are the two laws of a way of writing values and
reading them back.
-/

namespace EncoderFleet.Json

variable {α : Type}

/-! ## Fields in any order -/

/-- The fields make an object form of a record: they are those of the record and others of names that it does not have,
in any order, and of the record only fields that have their default are missing. -/
def Rearranges (defaults record fields : List (String × Json)) : Prop :=
  ∃ kept others, fields.Perm (kept ++ others) ∧ kept.Sublist record ∧ (∀ f ∈ record, f ∉ kept → f ∈ defaults) ∧
    ∀ f ∈ others, f.1 ∉ record.map Prod.fst

/-- A record is an object form of itself. -/
theorem Rearranges.refl (defaults record : List (String × Json)) : Rearranges defaults record record :=
  ⟨record, [], by simp, .refl record, fun _ h hn => absurd h hn, nofun⟩

/-- A slot gives a field of a record, or nothing in place of a default. -/
def Gives (defaults : List (String × Json)) (f : String × Json) (slot : Option Json) : Prop :=
  slot = some f.2 ∨ f ∈ defaults ∧ slot = none

/-- Names and values as an object has them. -/
def named (fields : List (String × Json)) : List (Option String × Json) := fields.map fun f => (some f.1, f.2)

theorem valuesOf_append (name : String) (fs gs : List (Option String × Json)) :
    valuesOf name (fs ++ gs) = valuesOf name fs ++ valuesOf name gs := by
  simp [valuesOf]

theorem valuesOf_of_not_mem {name : String} {fields : List (String × Json)} (h : name ∉ fields.map Prod.fst) :
    valuesOf name (named fields) = [] := by
  rw [valuesOf, List.filter_eq_nil_iff.mpr]
  · rfl
  · intro f hf
    obtain ⟨g, hg, rfl⟩ := List.mem_map.mp hf
    have hne : g.1 ≠ name := fun he => h (List.mem_map.mpr ⟨g, hg, he⟩)
    simpa using hne

theorem valuesOf_of_mem {name : String} {v : Json} {fields : List (String × Json)}
    (hn : (fields.map Prod.fst).Nodup) (h : (name, v) ∈ fields) : valuesOf name (named fields) = [v] := by
  obtain ⟨front, back, rfl⟩ := List.append_of_mem h
  have hn : (front.map Prod.fst ++ name :: back.map Prod.fst).Nodup := by simpa using hn
  have hnot : name ∉ front.map Prod.fst ++ back.map Prod.fst := (List.nodup_middle.mp hn).notMem
  obtain ⟨hf, hb⟩ := not_or.mp (mt List.mem_append.mpr hnot)
  have hself : valuesOf name [(some name, v)] = [v] := by simp [valuesOf]
  rw [named, List.map_append, List.map_cons, valuesOf_append, ← List.singleton_append, valuesOf_append, hself]
  rw [← named, ← named, valuesOf_of_not_mem hf, valuesOf_of_not_mem hb]
  rfl

/-- A name that is given at most once is found wherever its field stands. -/
theorem slotOf_of_perm {name : String} {fs gs : List (Option String × Json)} (h : fs.Perm gs) {o : Option Json}
    (hg : valuesOf name gs = o.toList) : slotOf fs name = some o := by
  have hp : (valuesOf name fs).Perm o.toList := hg ▸ ((h.filter _).map _)
  unfold slotOf
  cases o with
  | none => rw [List.perm_nil.mp hp]
  | some v => rw [List.perm_singleton.mp hp]

/-- Each field of the record is found in an object form of it, unless it is a default that is missing. -/
theorem slotOf_of_rearranges {defaults record fields : List (String × Json)} (hn : (record.map Prod.fst).Nodup)
    (h : Rearranges defaults record fields) {f : String × Json} (hf : f ∈ record) :
    ∃ slot, slotOf (named fields) f.1 = some slot ∧ Gives defaults f slot := by
  obtain ⟨kept, others, hperm, hkept, hmissing, hothers⟩ := h
  have hperm : (named fields).Perm (named kept ++ named others) := by
    rw [named, named, named, ← List.map_append]
    exact hperm.map _
  have hunknown : valuesOf f.1 (named others) = [] := by
    refine valuesOf_of_not_mem fun hm => ?_
    obtain ⟨g, hg, he⟩ := List.mem_map.mp hm
    exact hothers g hg (he ▸ List.mem_map_of_mem hf)
  by_cases hk : f ∈ kept
  · refine ⟨some f.2, slotOf_of_perm hperm ?_, .inl rfl⟩
    rw [valuesOf_append, hunknown, valuesOf_of_mem (hn.sublist (hkept.map _)) hk]
    rfl
  · refine ⟨none, slotOf_of_perm hperm ?_, .inr ⟨hmissing f hf hk, rfl⟩⟩
    rw [valuesOf_append, hunknown, valuesOf_of_not_mem]
    · rfl
    · intro hm
      obtain ⟨g, hg, he⟩ := List.mem_map.mp hm
      -- Two fields of one name are one field.
      have hfg : g = f := List.inj_on_of_nodup_map hn (hkept.subset hg) hf he
      exact hk (hfg ▸ hg)

theorem exists_mapM {β γ : Type} {read : β → Option γ} {ok : β → γ → Prop} {bs : List β}
    (h : ∀ b ∈ bs, ∃ c, read b = some c ∧ ok b c) : ∃ cs, bs.mapM read = some cs ∧ List.Forall₂ ok bs cs := by
  induction bs with
  | nil => exact ⟨[], rfl, .nil⟩
  | cons b bs ih =>
    obtain ⟨c, hc, hok⟩ := h b List.mem_cons_self
    obtain ⟨cs, hcs, hall⟩ := ih fun b hb => h b (List.mem_cons_of_mem _ hb)
    exact ⟨c :: cs, by simp [List.mapM_cons, hc, hcs], .cons hok hall⟩

/-- What is found in an object form of a record. -/
theorem slots_of_rearranges {defaults record fields : List (String × Json)} {names : List String} (least : Nat)
    (hn : names.Nodup) (hr : record.map Prod.fst = names) (h : Rearranges defaults record fields) :
    ∃ given, slots names least (.record fields) = some given ∧ List.Forall₂ (Gives defaults) record given := by
  subst hr
  have hall : (named fields).all (fun f => f.1.isSome) = true := by
    rw [List.all_eq_true]
    intro f hf
    obtain ⟨g, -, rfl⟩ := List.mem_map.mp hf
    rfl
  obtain ⟨given, hg, hok⟩ := exists_mapM fun f hf => slotOf_of_rearranges hn h (f := f) hf
  refine ⟨given, ?_, hok⟩
  show (if (named fields).all fun f => f.1.isSome then _ else none) = _
  rw [if_pos hall, List.mapM_map]
  exact hg

/-! ## Reading the fields -/

section gives

variable {defaults : List (String × Json)} {f : String × Json} {slot : Option Json} {read : Json → Option α} {a d : α}

theorem Gives.required (h : Gives defaults f slot) (hd : f ∉ defaults) (hr : read f.2 = some a) :
    Json.required read slot = some a := by
  rcases h with rfl | ⟨hm, -⟩
  · exact hr
  · exact absurd hm hd

theorem Gives.withDefault (h : Gives defaults f slot) (hd : ∀ v, (f.1, v) ∈ defaults → read v = some d)
    (hr : read f.2 = some a) : Json.withDefault d read slot = some a := by
  rcases h with rfl | ⟨hm, rfl⟩
  · exact hr
  · exact (hd f.2 hm).symm.trans hr

theorem Gives.nullable {o : Option α} (h : Gives defaults f slot) (hd : ∀ v, (f.1, v) ∈ defaults → v = .null)
    (hr : Json.nullable read (some f.2) = some o) : Json.nullable read slot = some o := by
  rcases h with rfl | ⟨hm, rfl⟩
  · exact hr
  · rw [hd f.2 hm] at hr
    exact hr

theorem nullable_text (o : Option String) : Json.nullable text? (some (.option text o)) = some o := by
  cases o <;> rfl

end gives

theorem listOf_array {read : Json → Option α} {js : List Json} {as : List α}
    (h : List.Forall₂ (fun a j => read j = some a) as js) : Json.listOf read (.array js) = some as := by
  show js.mapM read = some as
  induction h with
  | nil => rfl
  | cons h _ ih => simp [List.mapM_cons, h, ih]

/-! ## Texts -/

/-- The value that a text writes, read as something. -/
def decode? (read : Json → Option α) (text : String) : Option α := (parse? text.toList).bind read

/-- Values are read back from what is written for them, in either layout. -/
def Survives (write : α → Json) (read : Json → Option α) : Prop :=
  ∀ a, decode? read (write a).render = some a ∧ decode? read (write a).renderPretty = some a

theorem survives {write : α → Json} {read : Json → Option α} (hi : ∀ a, Integral (write a))
    (hr : ∀ a, read (write a) = some a) : Survives write read := by
  intro a
  constructor
  · rw [decode?, render, String.toList_ofList, parse?_compact (hi a)]
    exact hr a
  · rw [decode?, renderPretty, String.toList_ofList, parse?_pretty (hi a)]
    exact hr a

/-- The texts of an object with these fields: each value may have any text of its own, and blanks may stand wherever
they may stand in an object. -/
inductive WritesObject : List Char → List (String × Json) → Prop
  | intro {front inner back : List Char} {ts : List (List Char)} {fields : List (String × Json)} (hf : Blank front)
      (hi : Blank inner) (hb : Blank back) (hw : List.Forall₂ WritesField ts (named fields)) :
      WritesObject (front ++ enclosed '\x7b' (inner ++ ['\x7d']) ts ++ back) fields

theorem parse?_of_writesObject {text : List Char} {fields : List (String × Json)} (h : WritesObject text fields) :
    parse? text = some (.record fields) := by
  obtain ⟨hf, hi, hb, hw⟩ := h
  exact parse?_padded (parse?_enclosed_object hi hw) hf hb

/-- Every text of an object form of a value is read as that value. -/
def SurvivesRearranging (isForm : α → List (String × Json) → Prop) (read : Json → Option α) : Prop :=
  ∀ a fields (text : String), isForm a fields → WritesObject text.toList fields → decode? read text = some a

theorem survivesRearranging {isForm : α → List (String × Json) → Prop} {read : Json → Option α}
    (h : ∀ a fields, isForm a fields → read (.record fields) = some a) : SurvivesRearranging isForm read := by
  intro a fields text hform htext
  rw [decode?, parse?_of_writesObject htext]
  exact h a fields hform

end EncoderFleet.Json
