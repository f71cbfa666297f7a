import EncoderFleet.Proofs.Setup.Seeding

/-!
# Names of stored profiles

A profile that is planted in a list has the name of what it replaces, or a name that was missing. So the names in seeded
profiles are those of the given list, place by place, and behind them other ones, each once (`Planted.name_cases`):
seeding makes no two profiles of one name (`same_of_same_seed`). A catalog has the profiles that it was given last,
seeded (`Loaded.profiles_eq`), and a profile whose name no other one has is made active by that name, unless the name is
the one that leaves the choice to the platform (`Loaded.shared_names_are_given`).
-/

namespace EncoderFleet

namespace Profile

variable {ps given stored bs : List Profile} {b p q : Profile} {name : String} {i j : Nat}

/-- No profile of the list has a name that has no place in it. -/
theorem not_named_of_no_place (h : place? ps name = none) (hp : ps[i]? = some p) : ¬ p.isNamed name = true := by
  rw [place?, List.findIdx?_eq_none_iff] at h
  exact Bool.eq_false_iff.mp (h p (List.mem_of_getElem? hp))

/-- What is stored where a profile was given has the name of that profile; what is stored behind has a name that was
missing. -/
theorem Planted.name_cases (h : Planted bs given stored) (hp : stored[i]? = some p) :
    (∃ p', given[i]? = some p' ∧ Text.same p.name p'.name = true) ∨
      given.length ≤ i ∧ place? given p.name = none ∧
        (bs.filter fun b => (place? given b.name).isNone)[i - given.length]? = some p := by
  rcases Nat.lt_or_ge i given.length with hi | hi
  · left
    by_cases hb : ∃ b ∈ bs, place? given b.name = some i
    · obtain ⟨b, hb, hplace⟩ := hb
      obtain rfl : b = p := Option.some.inj ((h.replaced b hb i hplace).symm.trans hp)
      obtain ⟨p', hp', -⟩ := getElem?_place hplace
      exact ⟨p', hp', by rw [Text.same_comm]; exact isNamed_of_place hplace hp'⟩
    · exact ⟨p, (h.kept i hi fun b hmem hplace => hb ⟨b, hmem, hplace⟩).symm.trans hp, Text.same_refl p.name⟩
  · right
    have hp' : (bs.filter fun b => (place? given b.name).isNone)[i - given.length]? = some p := by
      rw [← h.appended, List.getElem?_drop, Nat.add_sub_of_le hi, hp]
    have hmissing := (List.mem_filter.mp (List.mem_of_getElem? hp')).2
    exact ⟨hi, Option.isNone_iff_eq_none.mp hmissing, hp'⟩

/-- Two profiles of one name are stored only where two of one name were given. -/
theorem Planted.same_of_same (hbs : bs.Pairwise fun a b => ¬ b.isNamed a.name = true) (h : Planted bs given stored)
    (hij : i < j) (hp : stored[i]? = some p) (hq : stored[j]? = some q) (hpq : Text.same p.name q.name = true) :
    ∃ p' q', given[i]? = some p' ∧ given[j]? = some q' ∧ Text.same p'.name q'.name = true := by
  rcases h.name_cases hq with ⟨q', hq', hqq'⟩ | ⟨hj, hmissing, hqj⟩
  · -- Where the later one was given, the earlier one was too.
    have hj := (List.getElem?_eq_some_iff.mp hq').1
    rcases h.name_cases hp with ⟨p', hp', hpp'⟩ | ⟨hi, -⟩
    · rw [Text.same_comm] at hpp'
      exact ⟨p', q', hp', hq', Text.same_trans hpp' (Text.same_trans hpq hqq')⟩
    · omega
  · exfalso
    rcases h.name_cases hp with ⟨p', hp', hpp'⟩ | ⟨hi, -, hpi⟩
    · rw [Text.same_comm] at hpp'
      exact not_named_of_no_place hmissing hp' (Text.same_trans hpp' hpq)
    · -- Both stand behind the given list, and there no name stands twice.
      obtain ⟨hlti, hgeti⟩ := List.getElem?_eq_some_iff.mp hpi
      obtain ⟨hltj, hgetj⟩ := List.getElem?_eq_some_iff.mp hqj
      have hdistinct := List.pairwise_iff_getElem.mp (hbs.filter _) _ _ hlti hltj (by omega)
      rw [hgeti, hgetj, isNamed, Text.same_comm] at hdistinct
      exact hdistinct hpq

theorem same_of_same_seed (hij : i < j) (hp : (seed given)[i]? = some p) (hq : (seed given)[j]? = some q)
    (hpq : Text.same p.name q.name = true) :
    ∃ p' q', given[i]? = some p' ∧ given[j]? = some q' ∧ Text.same p'.name q'.name = true :=
  (planted_seed given).same_of_same builtins_distinct hij hp hq hpq

/-- A profile whose name no other one has is found by it. -/
theorem find?_of_only (hp : ps[i]? = some p)
    (honly : ∀ j q, ps[j]? = some q → Text.same q.name p.name = true → j = i) : find? ps p.name = some p := by
  cases hat : place? ps p.name with
  | none => exact absurd (isNamed_self p) (not_named_of_no_place hat hp)
  | some k =>
    obtain ⟨q, hq, hfind⟩ := getElem?_place hat
    obtain rfl := honly k q hq (isNamed_of_find? hfind)
    obtain rfl : q = p := Option.some.inj (hq.symm.trans hp)
    exact hfind

end Profile

namespace Catalog

open Profile

variable {c : Catalog} {given : List Profile}

/-- The catalogs that activations and replacements lead to, with the profiles that were given last. -/
inductive Loaded : List Profile → Catalog → Prop
  | new (platform : Platform) (given : List Profile) (active : String) : Loaded given (.new platform given active)
  | activate {given : List Profile} {c c' : Catalog} {name active : String} (h : Loaded given c)
      (hc : c.activate name = .ok (c', active)) : Loaded given c'
  | replaceAll {old : List Profile} {c : Catalog} (h : Loaded old c) (given : List Profile) :
      Loaded given (c.replaceAll given)

/-- These are all the catalogs that are ever reached. -/
theorem reached_iff_loaded : c.Reached ↔ ∃ given, Loaded given c := by
  constructor
  · intro h
    induction h with
    | new platform given active => exact ⟨given, .new platform given active⟩
    | activate _ hc ih => exact ih.imp fun _ h => h.activate hc
    | replaceAll _ given ih => exact ⟨given, ih.choose_spec.replaceAll given⟩
  · rintro ⟨given, h⟩
    induction h with
    | new platform given active => exact .new platform given active
    | activate _ hc ih => exact ih.activate hc
    | replaceAll _ given ih => exact ih.replaceAll given

theorem Loaded.profiles_eq (h : Loaded given c) : c.profiles = seed given := by
  induction h with
  | new platform given active => exact (platform_new platform given active).2
  | activate _ hc ih => exact (activate_cases hc).2.1.trans ih
  | replaceAll _ given _ => exact profiles_replaceAll _ given

/-- Activating the name of a profile makes that one active, unless the name is `auto` or finds another profile. -/
theorem activate_of_found {p : Profile} (hfind : find? c.profiles p.name = some p)
    (hauto : Text.same p.name auto = false) :
    c.activate p.name = .ok ({ c with selection := p.name, active := some p.name }, p.name) := by
  have hne : c.profiles ≠ [] := fun hnil => by
    rw [hnil] at hfind
    cases hfind
  unfold activate
  rw [if_neg (Bool.eq_false_iff.mp hauto), chosen?_of_ne_nil hne, hfind]
  rfl

/-- Two profiles that are stored have one name only if the profiles that were given last at their two places had; and a
profile whose name no other one has is made active by its name, with its arguments, unless the name is the one that
leaves the choice to the platform. -/
theorem Loaded.shared_names_are_given (h : c.Loaded given) :
    (∀ (i j : Nat) (p q : Profile), i < j → c.profiles[i]? = some p → c.profiles[j]? = some q →
      Text.same p.name q.name = true →
        ∃ p' q' : Profile, given[i]? = some p' ∧ given[j]? = some q' ∧ Text.same p'.name q'.name = true) ∧
    ∀ (i : Nat) (p : Profile), c.profiles[i]? = some p →
      (∀ (j : Nat) (q : Profile), c.profiles[j]? = some q → Text.same q.name p.name = true → j = i) →
      Text.same p.name auto = false →
        ∃ c', c.activate p.name = .ok (c', p.name) ∧ c'.active = some p.name ∧ c'.selection = p.name ∧
          c'.activeArgs = p.args := by
  refine ⟨fun i j p q hij hp hq hpq => ?_, fun i p hp honly hauto => ?_⟩
  · rw [h.profiles_eq] at hp hq
    exact same_of_same_seed hij hp hq hpq
  · have hfind : find? c.profiles p.name = some p := find?_of_only hp honly
    refine ⟨_, activate_of_found hfind hauto, rfl, rfl, ?_⟩
    rw [activeArgs, Option.bind_some, get?, hfind, Option.map_some, Option.getD_some]

/-- Two profiles of different names, one of them that of a built-in profile. -/
def pair : List Profile := [⟨"Mine", "-c:v copy", ""⟩, ⟨"QUALITY", "-an", ""⟩]

/-- In place of others, two profiles of different names leave a catalog without shared names, and the first of them is
made active by its name. -/
theorem names_of_pair :
    let c := (new .linux stale "mine").replaceAll pair
    c.Loaded pair ∧
      (∀ (i j : Nat) (p q : Profile), i < j → c.profiles[i]? = some p → c.profiles[j]? = some q →
        Text.same p.name q.name = false) ∧
      ∃ c', c.activate "Mine" = .ok (c', "Mine") ∧ c'.activeArgs = "-c:v copy" := by
  intro c
  have hl : c.Loaded pair := .replaceAll (.new ..) pair
  obtain ⟨hshared, hselect⟩ := hl.shared_names_are_given
  have hpair : pair.Pairwise fun p q => Text.same p.name q.name = false := by decide
  have hdistinct : ∀ (i j : Nat) (p q : Profile), i < j → c.profiles[i]? = some p → c.profiles[j]? = some q →
      Text.same p.name q.name = false := by
    refine fun i j p q hij hp hq => Bool.eq_false_iff.mpr fun hpq => ?_
    obtain ⟨p', q', hp', hq', hsame⟩ := hshared i j p q hij hp hq hpq
    obtain ⟨hi, rfl⟩ := List.getElem?_eq_some_iff.mp hp'
    obtain ⟨hj, rfl⟩ := List.getElem?_eq_some_iff.mp hq'
    rw [List.pairwise_iff_getElem.mp hpair i j hi hj hij] at hsame
    cases hsame
  have hmine : c.profiles[0]? = some ⟨"Mine", "-c:v copy", ""⟩ := by decide
  have honly : ∀ (j : Nat) (q : Profile), c.profiles[j]? = some q → Text.same q.name "Mine" = true → j = 0 := by
    intro j q hq hsame
    rcases Nat.eq_zero_or_pos j with hj | hj
    · exact hj
    · have hother := hdistinct 0 j _ q hj hmine hq
      rw [Text.same_comm, hsame] at hother
      cases hother
  obtain ⟨c', hc', -, -, hargs⟩ := hselect 0 _ hmine honly (by decide)
  exact ⟨hl, hdistinct, c', hc', hargs⟩

/-- Two profiles of one name and one with the name `auto`. -/
def clashing : List Profile := [⟨"mine", "-c:v copy", ""⟩, ⟨"mine", "-an", ""⟩, ⟨"auto", "-sn", ""⟩]

/-- Both profiles of one name are stored; and the name `auto`, which only one profile has, makes another one active. -/
theorem clashing_names_stored :
    let c := new .linux clashing "auto"
    c.Reached ∧
      (∃ p q : Profile, c.profiles[0]? = some p ∧ c.profiles[1]? = some q ∧ Text.same p.name q.name = true) ∧
      ∃ p : Profile, c.profiles[2]? = some p ∧ (c.profiles.countP fun q => Text.same q.name p.name) = 1 ∧
        ∃ c' name, c.activate p.name = .ok (c', name) ∧ c'.active ≠ some p.name ∧ c'.activeArgs ≠ p.args := by
  intro c
  have hchosen : c.activate auto = .ok (automatic c.platform c.profiles, _) := if_pos (Text.same_refl auto)
  refine ⟨.new .linux clashing "auto", ⟨⟨"mine", "-c:v copy", ""⟩, ⟨"mine", "-an", ""⟩, ?_⟩,
    ⟨"auto", "-sn", ""⟩, ?_, ?_, _, _, hchosen, ?_, ?_⟩ <;> decide

end Catalog

end EncoderFleet
