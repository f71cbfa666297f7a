import EncoderFleet.Setup.Profile
import EncoderFleet.Setup.Source

/-!
# What is kept of sources and profiles

What is kept of the configured sources is their list, and what is kept of the catalog is its selection. Both say enough.
Of two sources with one id the list has only the first, and every change keeps it so (`distinct_ofList`,
`distinct_upsert`); such a list is taken up as it is (`ofList_of_distinct`). A selection is `auto` or the name of the
profile that a name was found to mean, and is found to mean the same again (`new_selection`).
-/

namespace EncoderFleet

namespace Text

theorem same_trans {a b c : String} (hab : same a b = true) (hbc : same b c = true) : same a c = true :=
  same_iff.mpr ((same_iff.mp hab).trans (same_iff.mp hbc))

theorem same_congr {a b : String} (h : same a b = true) (c : String) : same c a = same c b := by
  simp only [same, same_iff.mp h]

end Text

/-! ## Sources -/

namespace Sources

/-- No two sources of the list have one id. -/
def Distinct (ss : List Source) : Prop := ss.Pairwise fun s t => s.hasId t.id = false

theorem distinct_append_singleton {ss : List Source} {s : Source} :
    Distinct (ss ++ [s]) ↔ Distinct ss ∧ (ss.any fun t => t.hasId s.id) = false := by
  simp [Distinct, List.pairwise_append]

theorem distinct_addNew {ss : Sources} (h : Distinct ss.toList) (s : Source) : Distinct (ss.addNew s).toList := by
  unfold addNew
  split
  · exact h
  · exact distinct_append_singleton.mpr ⟨h, Bool.eq_false_iff.mpr ‹_›⟩

theorem distinct_foldl {acc : Sources} (h : Distinct acc.toList) (ss : List Source) :
    Distinct (ss.foldl addNew acc).toList := by
  induction ss generalizing acc with
  | nil => exact h
  | cons s ss ih => exact ih (distinct_addNew h s)

theorem distinct_ofList (ss : List Source) : Distinct (ofList ss).toList := distinct_foldl .nil ss

theorem foldl_addNew_of_distinct (acc : Sources) {ss : List Source} (h : Distinct (acc.toList ++ ss)) :
    ss.foldl addNew acc = ⟨acc.toList ++ ss⟩ := by
  induction ss generalizing acc with
  | nil => rw [List.append_nil, List.foldl_nil]
  | cons s ss ih =>
    rw [← List.singleton_append, ← List.append_assoc] at h
    have hs : (acc.toList.any fun t => t.hasId s.id) = false :=
      (distinct_append_singleton.mp (List.pairwise_append.mp h).1).2
    have hadd : acc.addNew s = ⟨acc.toList ++ [s]⟩ := by
      rw [addNew, hs]
      rfl
    rw [List.foldl_cons, hadd, ih _ h, List.append_assoc, List.singleton_append]

/-- A list without two sources of one id is taken up as it is. -/
theorem ofList_of_distinct {ss : Sources} (h : Distinct ss.toList) : ofList ss.toList = ss := by
  exact foldl_addNew_of_distinct {} h

theorem mem_replaceFirst {p : Source → Bool} {s u : Source} {ss : List Source} (h : u ∈ replaceFirst p s ss) :
    u = s ∨ u ∈ ss := by
  induction ss with
  | nil => cases h
  | cons t ts ih =>
    rw [replaceFirst] at h
    split at h
    · rcases List.mem_cons.mp h with rfl | h
      · exact .inl rfl
      · exact .inr (List.mem_cons_of_mem t h)
    · rcases List.mem_cons.mp h with rfl | h
      · exact .inr List.mem_cons_self
      · exact (ih h).imp_right (List.mem_cons_of_mem t)

/-- The source that is replaced had the id, so nothing else has it. -/
theorem distinct_replaceFirst {s : Source} {ss : List Source} (h : Distinct ss) :
    Distinct (replaceFirst (fun t => t.hasId s.id) s ss) := by
  induction ss with
  | nil => exact h
  | cons t ts ih =>
    obtain ⟨ht, hts⟩ := List.pairwise_cons.mp h
    rw [replaceFirst]
    split
    · next hid =>
      -- The ids may differ in case, so what had another id than the old source has to be told from the new one.
      refine List.pairwise_cons.mpr ⟨fun u hu => ?_, hts⟩
      have hsame : Text.same s.id t.id = true := by
        rw [Text.same_comm]
        exact hid
      rw [Source.hasId, Text.same_comm, Text.same_congr hsame, Text.same_comm]
      exact ht u hu
    · next hid =>
      refine List.pairwise_cons.mpr ⟨fun u hu => ?_, ih hts⟩
      rcases mem_replaceFirst hu with rfl | hu
      · exact Bool.eq_false_iff.mpr hid
      · exact ht u hu

theorem distinct_upsert {ss : Sources} (h : Distinct ss.toList) (s : Source) : Distinct (ss.upsert s).1.toList := by
  unfold upsert
  split
  · exact distinct_replaceFirst h
  · exact distinct_append_singleton.mpr ⟨h, Bool.eq_false_iff.mpr ‹_›⟩

end Sources

/-! ## The catalog -/

namespace Catalog

variable {c c' : Catalog} {name active : String}

theorem chosen?_of_ne_nil (h : c.profiles ≠ []) (name : String) :
    c.chosen? name = (Profile.find? c.profiles name).map Profile.name := by
  rw [chosen?, List.isEmpty_eq_false_iff.mpr h]
  rfl

/-- The name that is chosen is the one that was asked for but for case, and chooses the same again. -/
theorem chosen?_again {chosen : String} (h : c.chosen? name = some chosen) :
    Text.same chosen name = true ∧ c.chosen? chosen = some chosen := by
  rcases Decidable.em (c.profiles = []) with hnil | hne
  · have hany : ∀ n, c.chosen? n = some n := fun n => by
      rw [chosen?, hnil]
      rfl
    rw [hany] at h
    cases h
    exact ⟨Text.same_refl name, hany name⟩
  · rw [chosen?_of_ne_nil hne] at h ⊢
    obtain ⟨p, hp, rfl⟩ := Option.map_eq_some_iff.mp h
    have hnamed := List.find?_some (show c.profiles.find? (fun q => q.isNamed name) = some p from hp)
    have hsame : Text.same p.name name = true := hnamed
    have hfind : Profile.find? c.profiles p.name = some p := by
      simp only [Profile.find?, Profile.isNamed, Text.same_congr hsame]
      exact hp
    exact ⟨hsame, by rw [hfind]; rfl⟩

/-- Of the catalog only the platform and the profiles matter to what a name makes active. -/
theorem activate_congr (hplatform : c.platform = c'.platform) (hprofiles : c.profiles = c'.profiles) (name : String) :
    c.activate name = c'.activate name := by
  unfold activate chosen?
  rw [hplatform, hprofiles]

/-- What an activation leaves as it is, and that the selection that it makes means the same again. -/
theorem activate_cases (h : c.activate name = .ok (c', active)) :
    c'.platform = c.platform ∧ c'.profiles = c.profiles ∧ c'.activate c'.selection = .ok (c', active) := by
  unfold activate at h
  split at h
  · cases h
    refine ⟨rfl, rfl, ?_⟩
    exact if_pos (Text.same_refl Profile.auto)
  · next hname =>
    split at h
    · next hchosen =>
      cases h
      refine ⟨rfl, rfl, ?_⟩
      obtain ⟨hsame, hagain⟩ := chosen?_again hchosen
      -- The name that is chosen is the one that was asked for but for case, so it is not taken for `auto` either.
      have hauto : Text.same active Profile.auto ≠ true := fun ha =>
        hname (Text.same_trans (by rw [Text.same_comm]; exact hsame) ha)
      have hstill : chosen? { c with selection := active, active := some active } active = some active := hagain
      unfold activate
      rw [if_neg hauto, hstill]
    · cases h

/-- A new catalog is one with the selection left to the platform, and what the name made of it. -/
theorem new_cases (platform : Platform) (profiles : List Profile) (name : String) :
    (∃ active, (automatic platform (Profile.seed profiles)).activate name = .ok (new platform profiles name, active)) ∨
      new platform profiles name = automatic platform (Profile.seed profiles) := by
  cases h : (automatic platform (Profile.seed profiles)).activate name with
  | ok r =>
    refine .inl ⟨r.2, ?_⟩
    simp only [new, h]
  | error f =>
    refine .inr ?_
    simp only [new, h]

theorem platform_new (platform : Platform) (profiles : List Profile) (name : String) :
    (new platform profiles name).platform = platform ∧
      (new platform profiles name).profiles = Profile.seed profiles := by
  rcases new_cases platform profiles name with ⟨active, h⟩ | h
  · obtain ⟨hplatform, hprofiles, -⟩ := activate_cases h
    exact ⟨hplatform, hprofiles⟩
  · rw [h]
    exact ⟨rfl, rfl⟩

/-- What becomes active in a new catalog is what would be active in one made of the selection. -/
theorem new_selection {platform : Platform} {profiles : List Profile} {old : String}
    (h : (new platform profiles old).activate name = .ok (c', active)) : new platform profiles c'.selection = c' := by
  obtain ⟨hplatform, hprofiles⟩ := platform_new platform profiles old
  obtain ⟨hplatform', hprofiles', hagain⟩ := activate_cases h
  have hsame : (automatic platform (Profile.seed profiles)).activate c'.selection = .ok (c', active) := by
    rw [← hagain]
    exact activate_congr (hplatform'.trans hplatform).symm (hprofiles'.trans hprofiles).symm _
  simp only [new, hsame]

end Catalog

end EncoderFleet
