import EncoderFleet.Proofs.Setup.ActiveProfile

/-!
# What seeding makes of a list of profiles

A profile is planted in the place of the first one with its name, or else behind the list (`plant_of_place`,
`plant_of_no_place`), and where the first profile of another name stands does not change by that
(`place?_plant_of_other`). So the built-in profiles can be planted one after the other without one being in the way of
the next, and `Planted` describes the outcome by the given list alone: position by position what is replaced, what is
kept, and what comes behind it (`planted_foldl`). No other list fits the description (`Planted.unique`). In seeded
profiles each built-in one is found, so to seed them again changes nothing (`seed_seed`).
-/

namespace EncoderFleet

namespace Profile

variable {ps given stored bs : List Profile} {b : Profile} {name : String} {i : Nat}

/-! ## Places -/

/-- The place of the first profile with a name. -/
def place? (ps : List Profile) (name : String) : Option Nat := ps.findIdx? fun p => p.isNamed name

theorem place?_cons_of_named {p : Profile} (h : p.isNamed name = true) : place? (p :: ps) name = some 0 := by
  rw [place?, List.findIdx?_cons, if_pos h]

theorem place?_cons_of_other {p : Profile} (h : ¬ p.isNamed name = true) :
    place? (p :: ps) name = (place? ps name).map (· + 1) := by
  rw [place?, List.findIdx?_cons, if_neg h, place?]

/-- At the place of a name stands the profile that is found by it. -/
theorem getElem?_place (h : place? ps name = some i) : ∃ p, ps[i]? = some p ∧ find? ps name = some p := by
  induction ps generalizing i with
  | nil => cases h
  | cons p ps ih =>
    by_cases hp : p.isNamed name = true
    · obtain rfl : 0 = i := Option.some.inj ((place?_cons_of_named hp).symm.trans h)
      exact ⟨p, rfl, find?_cons_of_named hp⟩
    · rw [place?_cons_of_other hp] at h
      obtain ⟨j, hj, rfl⟩ := Option.map_eq_some_iff.mp h
      obtain ⟨q, hq, hfind⟩ := ih hj
      exact ⟨q, hq, (find?_cons_of_other hp).trans hfind⟩

theorem place_lt (h : place? ps name = some i) : i < ps.length := by
  obtain ⟨p, hp, -⟩ := getElem?_place h
  exact (List.getElem?_eq_some_iff.mp hp).1

/-- A profile that stands at the place of a name has the name. -/
theorem isNamed_of_place {p : Profile} (h : place? ps name = some i) (hp : ps[i]? = some p) :
    p.isNamed name = true := by
  obtain ⟨q, hq, hfind⟩ := getElem?_place h
  obtain rfl : q = p := Option.some.inj (hq.symm.trans hp)
  exact isNamed_of_find? hfind

/-! ## Planting one profile -/

theorem plant_of_place (h : place? ps b.name = some i) : plant ps b = ps.set i b := by
  induction ps generalizing i with
  | nil => cases h
  | cons p ps ih =>
    rw [plant]
    split
    · next hp =>
      obtain rfl : 0 = i := Option.some.inj ((place?_cons_of_named hp).symm.trans h)
      rfl
    · next hp =>
      rw [place?_cons_of_other hp] at h
      obtain ⟨j, hj, rfl⟩ := Option.map_eq_some_iff.mp h
      rw [ih hj, List.set_cons_succ]

theorem plant_of_no_place (h : place? ps b.name = none) : plant ps b = ps ++ [b] := by
  induction ps with
  | nil => rfl
  | cons p ps ih =>
    by_cases hp : p.isNamed b.name = true
    · cases (place?_cons_of_named hp).symm.trans h
    · rw [place?_cons_of_other hp, Option.map_eq_none_iff] at h
      rw [plant, if_neg hp, ih h, List.cons_append]

theorem place?_plant_of_other (h : ¬ b.isNamed name = true) (ps : List Profile) :
    place? (plant ps b) name = place? ps name := by
  induction ps with
  | nil => exact (place?_cons_of_other h).trans rfl
  | cons p ps ih =>
    rw [plant]
    split
    · next hp =>
      -- What is replaced had the name of the new profile, so neither of the two has the other name.
      have hp' : ¬ p.isNamed name = true := by
        rwa [isNamed, Text.same_comm, Text.same_congr hp, Text.same_comm]
      rw [place?_cons_of_other h, place?_cons_of_other hp']
    · by_cases hp : p.isNamed name = true
      · rw [place?_cons_of_named hp, place?_cons_of_named hp]
      · rw [place?_cons_of_other hp, place?_cons_of_other hp, ih]

/-- A profile that is found by its name is planted already. -/
theorem plant_of_found (h : find? ps b.name = some b) : plant ps b = ps := by
  induction ps with
  | nil => cases h
  | cons p ps ih =>
    by_cases hp : p.isNamed b.name = true
    · obtain rfl : p = b := Option.some.inj ((find?_cons_of_named hp).symm.trans h)
      rw [plant, if_pos hp]
    · rw [find?_cons_of_other hp] at h
      rw [plant, if_neg hp, ih h]

/-! ## Planting several -/

/-- What a list becomes when profiles are planted in it. Each stands in the place of the first profile with its name;
all else is as it was, where it was; behind it stand those whose names were missing, in their order. -/
structure Planted (bs given stored : List Profile) : Prop where
  replaced : ∀ b ∈ bs, ∀ i, place? given b.name = some i → stored[i]? = some b
  kept : ∀ i < given.length, (∀ b ∈ bs, place? given b.name ≠ some i) → stored[i]? = given[i]?
  appended : stored.drop given.length = bs.filter fun b => (place? given b.name).isNone

/-- The description leaves no choice. -/
theorem Planted.unique {stored' : List Profile} (h : Planted bs given stored) (h' : Planted bs given stored') :
    stored = stored' := by
  refine List.ext_getElem? fun i => ?_
  rcases Nat.lt_or_ge i given.length with hi | hi
  · by_cases hb : ∃ b ∈ bs, place? given b.name = some i
    · obtain ⟨b, hb, hplace⟩ := hb
      rw [h.replaced b hb i hplace, h'.replaced b hb i hplace]
    · have hkept : ∀ b ∈ bs, place? given b.name ≠ some i := fun b hmem hplace => hb ⟨b, hmem, hplace⟩
      rw [h.kept i hi hkept, h'.kept i hi hkept]
  · have hdrop : stored.drop given.length = stored'.drop given.length := h.appended.trans h'.appended.symm
    have hindex := congrArg (fun l : List Profile => l[i - given.length]?) hdrop
    simpa only [List.getElem?_drop, Nat.add_sub_of_le hi] using hindex

section Cons

variable (hb : ∀ a ∈ bs, ¬ b.isNamed a.name = true) (h : Planted bs (plant given b) stored)
include hb

theorem filter_missing_plant :
    (bs.filter fun a => (place? (plant given b) a.name).isNone) = bs.filter fun a => (place? given a.name).isNone :=
  List.filter_congr fun a ha => by rw [place?_plant_of_other (hb a ha)]

/-- No profile of another name is put where this one stands. -/
theorem place?_ne_of_getElem? (hi : ps[i]? = some b) : ∀ a ∈ bs, place? ps a.name ≠ some i :=
  fun a ha hat => hb a ha (isNamed_of_place hat hi)

include h

/-- One profile is planted in the place of another before profiles of other names are planted. -/
theorem Planted.cons_of_place (hat : place? given b.name = some i) : Planted (b :: bs) given stored := by
  have hset := plant_of_place hat
  have hlength : (plant given b).length = given.length := by rw [hset, List.length_set]
  have hi : (plant given b)[i]? = some b := by rw [hset, List.getElem?_set_self (place_lt hat)]
  refine ⟨fun a ha j hj => ?_, fun j hj hkept => ?_, ?_⟩
  · rcases List.mem_cons.mp ha with rfl | ha
    · obtain rfl : i = j := Option.some.inj (hat.symm.trans hj)
      rw [h.kept i (hlength ▸ place_lt hat) (place?_ne_of_getElem? hb hi), hi]
    · exact h.replaced a ha j ((place?_plant_of_other (hb a ha) given).trans hj)
  · obtain ⟨hne, hothers⟩ := List.forall_mem_cons.mp hkept
    have hij : i ≠ j := fun hij => hne (hat.trans (congrArg some hij))
    have hspared : ∀ a ∈ bs, place? (plant given b) a.name ≠ some j := fun a ha => by
      rw [place?_plant_of_other (hb a ha)]
      exact hothers a ha
    rw [h.kept j (hlength ▸ hj) hspared, hset, List.getElem?_set_ne hij]
  · rw [← hlength, h.appended, filter_missing_plant hb, List.filter_cons_of_neg (by simp [hat])]

/-- One profile is planted behind the list before profiles of other names are planted. -/
theorem Planted.cons_of_no_place (hat : place? given b.name = none) : Planted (b :: bs) given stored := by
  have happend := plant_of_no_place hat
  have hlength : (plant given b).length = given.length + 1 := by
    rw [happend, List.length_append, List.length_singleton]
  have hlast : (plant given b)[given.length]? = some b := by rw [happend, List.getElem?_concat_length]
  refine ⟨fun a ha j hj => ?_, fun j hj hkept => ?_, ?_⟩
  · rcases List.mem_cons.mp ha with rfl | ha
    · cases hat.symm.trans hj
    · exact h.replaced a ha j ((place?_plant_of_other (hb a ha) given).trans hj)
  · have hspared : ∀ a ∈ bs, place? (plant given b) a.name ≠ some j := fun a ha => by
      rw [place?_plant_of_other (hb a ha)]
      exact (List.forall_mem_cons.mp hkept).2 a ha
    rw [h.kept j (by omega) hspared, happend, List.getElem?_append_left hj]
  · have hstored : stored[given.length]? = some b := by
      rw [h.kept _ (by omega) (place?_ne_of_getElem? hb hlast), hlast]
    have hdrop : stored.drop (given.length + 1) = bs.filter fun a => (place? given a.name).isNone := by
      rw [← hlength, h.appended, filter_missing_plant hb]
    obtain ⟨hlt, hget⟩ := List.getElem?_eq_some_iff.mp hstored
    rw [List.drop_eq_getElem_cons hlt, hget, hdrop, List.filter_cons_of_pos (by simp [hat])]

end Cons

theorem planted_foldl (h : bs.Pairwise fun a b => ¬ b.isNamed a.name = true) (given : List Profile) :
    Planted bs given (bs.foldl plant given) := by
  induction h generalizing given with
  | nil => exact ⟨nofun, fun _ _ _ => rfl, by rw [List.foldl_nil, List.drop_length, List.filter_nil]⟩
  | @cons b bs hb _ ih =>
    have hb' : ∀ a ∈ bs, ¬ b.isNamed a.name = true := fun a ha => by
      rw [isNamed, Text.same_comm]
      exact hb a ha
    cases hat : place? given b.name with
    | some i => exact .cons_of_place hb' (ih _) hat
    | none => exact .cons_of_no_place hb' (ih _) hat

theorem foldl_plant_of_found (h : ∀ b ∈ bs, find? ps b.name = some b) : bs.foldl plant ps = ps := by
  induction bs with
  | nil => rfl
  | cons b bs ih =>
    obtain ⟨hb, hbs⟩ := List.forall_mem_cons.mp h
    rw [List.foldl_cons, plant_of_found hb, ih hbs]

theorem planted_seed (given : List Profile) : Planted builtins given (seed given) :=
  planted_foldl builtins_distinct given

/-- Profiles that were seeded are seeded already. -/
theorem seed_seed (given : List Profile) : seed (seed given) = seed given :=
  foldl_plant_of_found fun _ hb => find?_seed hb given

end Profile

/-! ## Catalogs -/

namespace Catalog

open Profile

variable {c : Catalog} {given : List Profile}

theorem profiles_replaceAll (c : Catalog) (given : List Profile) : (c.replaceAll given).profiles = seed given := by
  unfold replaceAll
  dsimp only
  split <;> rfl

/-- The active profile of a catalog is one of its profiles. -/
def IsUsable (c : Catalog) : Prop := (c.active.bind c.get?).isSome = true

theorem Settled.isUsable (h : c.Settled) : c.IsUsable := by
  obtain ⟨name, p, hactive, hp, -⟩ := h.active
  rw [IsUsable, hactive, Option.bind_some, hp, Option.isSome_some]

theorem isUsable_replaceAll (c : Catalog) (given : List Profile) : (c.replaceAll given).IsUsable := by
  unfold replaceAll
  dsimp only
  split
  · next h => exact h
  · exact (settled_automatic c.platform given).isUsable

/-- A catalog that is given its own profiles stays as it is. -/
theorem replaceAll_profiles (hc : c.profiles = seed given) (h : c.IsUsable) : c.replaceAll c.profiles = c := by
  have hseed : seed c.profiles = c.profiles := by rw [hc, seed_seed]
  unfold replaceAll
  dsimp only
  rw [hseed]
  exact if_pos h

/-- Whatever list a catalog is made of or its profiles are replaced by, afterwards every built-in profile is found as it
is; the stored list is the given one with the built-in profiles planted in it, and no other; and to replace the profiles
by those that are stored changes nothing. -/
theorem builtins_seeded (platform : Platform) (given : List Profile) (active : String) (c : Catalog) :
    ∀ c' ∈ [new platform given active, c.replaceAll given],
      (∀ b ∈ builtins, c'.get? b.name = some b) ∧
      (∀ stored, Planted builtins given stored ↔ stored = c'.profiles) ∧
      c'.replaceAll c'.profiles = c' := by
  intro c' hc'
  obtain ⟨hprofiles, husable⟩ : c'.profiles = seed given ∧ c'.IsUsable := by
    rcases List.mem_cons.mp hc' with rfl | hc'
    · exact ⟨(platform_new platform given active).2, (settled_new platform given active).isUsable⟩
    · obtain rfl := List.mem_singleton.mp hc'
      exact ⟨profiles_replaceAll c given, isUsable_replaceAll c given⟩
  refine ⟨fun b hb => ?_, fun stored => ⟨fun h => ?_, ?_⟩, replaceAll_profiles hprofiles husable⟩
  · rw [get?, hprofiles]
    exact find?_seed hb given
  · rw [hprofiles]
    exact h.unique (planted_seed given)
  · rintro rfl
    rw [hprofiles]
    exact planted_seed given

/-- Profiles among which the low-latency one stands twice, in other letters and with other arguments. -/
def stale : List Profile :=
  [⟨"mine", "-c:v copy", ""⟩, ⟨"Low-Latency", "-c:v mpeg4", ""⟩, ⟨"LOW-LATENCY", "-an", ""⟩]

/-- The first of the two copies becomes the built-in profile where it stands, the second is kept as it is, and the other
built-in profiles come behind. -/
theorem first_copy_replaced :
    let c := (ofBuiltins .linux).replaceAll stale
    c ∈ [new .linux stale "mine", c] ∧
      ∃ b ∈ builtins, b.name = lowLatency ∧ c.get? lowLatency = some b ∧ c.profiles[1]? = some b ∧
        c.profiles[2]? = some ⟨"LOW-LATENCY", "-an", ""⟩ ∧ c.profiles.drop 3 = builtins.tail ∧
        c.replaceAll c.profiles = c := by
  intro c
  have hc : c ∈ [new .linux stale "mine", c] := List.mem_cons_of_mem _ List.mem_cons_self
  obtain ⟨hfound, hlist, hagain⟩ := builtins_seeded .linux stale "mine" (ofBuiltins .linux) c hc
  have hplanted : Planted builtins stale c.profiles := (hlist _).mpr rfl
  have hpreferred : lowLatency ∈ preferred .linux ++ [lowLatency] := List.mem_concat_self
  obtain ⟨b, hb, hname⟩ := mem_builtins_of_preferred hpreferred
  refine ⟨hc, b, hb, hname, hname ▸ hfound b hb, hplanted.replaced b hb 1 (hname ▸ by decide), ?_, ?_, hagain⟩
  · exact hplanted.kept 2 (by decide) (by decide)
  · exact hplanted.appended.trans (by decide)

end Catalog

end EncoderFleet
