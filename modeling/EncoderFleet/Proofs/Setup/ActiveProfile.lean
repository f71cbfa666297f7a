import EncoderFleet.Fleet.Step
import EncoderFleet.Proofs.Setup.Reloading

/-!
# The active profile

Planting a profile makes it the one that is found by its name, and hides no profile of another name
(`find?_plant`, `find?_plant_of_other`). No two built-in profiles have one name, so in seeded profiles each of them is
found (`find?_seed`), and the choice for a platform is the same whatever else is configured (`resolveAuto_seed`).

That carries a catalog through its life. It is *settled* when its profiles are seeded, its active profile is among them,
and its selection says how that one was chosen. New catalogs are settled, and activating a profile and replacing the
profiles keep them so (`settled_new`, `Settled.activate`, `Settled.replaceAll`). A replacement does not choose again while
the active name is found; the selection `auto` stays true because it would choose the same.
-/

namespace EncoderFleet

namespace Profile

variable {ps : List Profile} {b : Profile} {name : String}

/-! ## Seeded profiles -/

theorem isNamed_self (p : Profile) : p.isNamed p.name = true := Text.same_refl p.name

theorem find?_cons_of_named {p : Profile} (h : p.isNamed name = true) : find? (p :: ps) name = some p :=
  List.find?_cons_of_pos (p := fun q : Profile => q.isNamed name) h

theorem find?_cons_of_other {p : Profile} (h : ¬ p.isNamed name = true) : find? (p :: ps) name = find? ps name :=
  List.find?_cons_of_neg (p := fun q : Profile => q.isNamed name) h

theorem isNamed_of_find? {p : Profile} (h : find? ps name = some p) : p.isNamed name = true :=
  List.find?_some (p := fun q : Profile => q.isNamed name) h

theorem find?_plant (ps : List Profile) (b : Profile) : find? (plant ps b) b.name = some b := by
  induction ps with
  | nil => exact find?_cons_of_named (isNamed_self b)
  | cons p ps ih =>
    rw [plant]
    split
    · exact find?_cons_of_named (isNamed_self b)
    · next hp => exact (find?_cons_of_other hp).trans ih

theorem find?_plant_of_other (h : ¬ b.isNamed name = true) (ps : List Profile) :
    find? (plant ps b) name = find? ps name := by
  induction ps with
  | nil => exact find?_cons_of_other h
  | cons p ps ih =>
    rw [plant]
    split
    · next hp =>
      -- The profile that is replaced had the name of the other, so it is not what was found.
      have hp' : ¬ p.isNamed name = true := by
        rwa [isNamed, Text.same_comm, Text.same_congr hp, Text.same_comm]
      exact (find?_cons_of_other h).trans (find?_cons_of_other hp').symm
    · by_cases hp : p.isNamed name = true
      · exact (find?_cons_of_named hp).trans (find?_cons_of_named hp).symm
      · exact (find?_cons_of_other hp).trans (ih.trans (find?_cons_of_other hp).symm)

theorem find?_plants_of_other {bs : List Profile} (h : ∀ b ∈ bs, ¬ b.isNamed name = true) (ps : List Profile) :
    find? (bs.foldl plant ps) name = find? ps name := by
  induction bs generalizing ps with
  | nil => rfl
  | cons b bs ih =>
    obtain ⟨hb, hbs⟩ := List.forall_mem_cons.mp h
    rw [List.foldl_cons, ih hbs, find?_plant_of_other hb]

theorem find?_plants {bs : List Profile} (h : bs.Pairwise fun a b => ¬ b.isNamed a.name = true) (hb : b ∈ bs)
    (ps : List Profile) : find? (bs.foldl plant ps) b.name = some b := by
  induction h generalizing ps with
  | nil => cases hb
  | @cons a bs ha _ ih =>
    rcases List.mem_cons.mp hb with rfl | hb
    · exact (find?_plants_of_other ha _).trans (find?_plant ps b)
    · exact ih hb _

theorem builtins_distinct : builtins.Pairwise fun a b => ¬ b.isNamed a.name = true := by decide

/-- Every built-in profile is found by its name, whatever profiles are configured. -/
theorem find?_seed (hb : b ∈ builtins) (ps : List Profile) : find? (seed ps) b.name = some b :=
  find?_plants builtins_distinct hb ps

/-- What a platform prefers is built in, and so is what suits every platform. -/
theorem mem_builtins_of_preferred {platform : Platform} (h : name ∈ preferred platform ++ [lowLatency]) :
    ∃ b ∈ builtins, b.name = name := by
  revert name
  cases platform <;> decide

/-- The profile for a platform is the best of those made for it, whatever profiles are configured. -/
theorem resolveAuto_seed (ps : List Profile) (platform : Platform) :
    ∃ b ∈ builtins, (preferred platform ++ [lowLatency]).head? = some b.name ∧
      resolveAuto (seed ps) platform = some b.name := by
  obtain ⟨best, others, hnames⟩ : ∃ best others, preferred platform ++ [lowLatency] = best :: others := by
    cases platform <;> exact ⟨_, _, rfl⟩
  obtain ⟨b, hb, rfl⟩ := mem_builtins_of_preferred (hnames ▸ List.mem_cons_self : best ∈ _)
  refine ⟨b, hb, by rw [hnames, List.head?_cons], ?_⟩
  rw [resolveAuto, hnames, List.findSome?_cons, find?_seed hb ps, Option.some_or, Option.map_some]

theorem resolveAuto_seed_congr (ps qs : List Profile) (platform : Platform) :
    resolveAuto (seed ps) platform = resolveAuto (seed qs) platform := by
  obtain ⟨b, -, hb, hps⟩ := resolveAuto_seed ps platform
  obtain ⟨b', -, hb', hqs⟩ := resolveAuto_seed qs platform
  rw [hps, hqs, ← hb, ← hb']

/-- Seeded profiles are never none at all. -/
theorem seed_ne_nil (ps : List Profile) : seed ps ≠ [] := fun hnil => by
  obtain ⟨b, hb, -⟩ := resolveAuto_seed ps .other
  have hfound := find?_seed hb ps
  rw [hnil] at hfound
  cases hfound

end Profile

/-! ## The life of a catalog -/

namespace Catalog

open Profile

variable {c c' : Catalog} {name active : String}

/-- The catalogs that activations and replacements lead to. An activation that is refused makes no catalog. -/
inductive Reached : Catalog → Prop
  | new (platform : Platform) (profiles : List Profile) (active : String) : Reached (.new platform profiles active)
  | activate {c c' : Catalog} {name active : String} (h : Reached c) (hc : c.activate name = .ok (c', active)) :
      Reached c'
  | replaceAll {c : Catalog} (h : Reached c) (profiles : List Profile) : Reached (c.replaceAll profiles)

/-- The selection of a catalog says how the profile with this name was chosen. -/
def Accounts (c : Catalog) (name : String) : Prop :=
  c.selection = auto ∧ resolveAuto c.profiles c.platform = some name ∨ c.selection = name

/-- The active profile of a catalog is one of its profiles, and the selection says how it was chosen. -/
structure Settled (c : Catalog) : Prop where
  seeded : ∃ given, c.profiles = seed given
  active : ∃ name p, c.active = some name ∧ c.get? name = some p ∧ c.Accounts name

theorem Settled.profiles_ne_nil (h : c.Settled) : c.profiles ≠ [] := by
  obtain ⟨given, hgiven⟩ := h.seeded
  rw [hgiven]
  exact seed_ne_nil given

theorem settled_automatic (platform : Platform) (given : List Profile) :
    (automatic platform (seed given)).Settled := by
  obtain ⟨b, hb, -, hname⟩ := resolveAuto_seed given platform
  exact ⟨⟨given, rfl⟩, b.name, b, hname, find?_seed hb given, .inl ⟨rfl, hname⟩⟩

theorem Settled.activate (h : c.Settled) (hc : c.activate name = .ok (c', active)) : c'.Settled := by
  obtain ⟨given, hgiven⟩ := h.seeded
  unfold Catalog.activate at hc
  split at hc
  · cases hc
    rw [hgiven]
    exact settled_automatic c.platform given
  · split at hc
    · next hchosen =>
      cases hc
      -- The profile is found again by its own name, which is the one that was asked for but for case.
      have hagain := (chosen?_again hchosen).2
      rw [chosen?_of_ne_nil h.profiles_ne_nil] at hagain
      obtain ⟨p, hp, -⟩ := Option.map_eq_some_iff.mp hagain
      exact ⟨⟨given, hgiven⟩, active, p, rfl, hp, .inr rfl⟩
    · cases hc

theorem Settled.replaceAll (h : c.Settled) (profiles : List Profile) : (c.replaceAll profiles).Settled := by
  obtain ⟨given, hgiven⟩ := h.seeded
  obtain ⟨name, p, hactive, -, hchosen⟩ := h.active
  unfold Catalog.replaceAll
  dsimp only
  split
  · next hstill =>
    rw [hactive, Option.bind_some] at hstill
    obtain ⟨q, hq⟩ := Option.isSome_iff_exists.mp hstill
    refine ⟨⟨profiles, rfl⟩, name, q, hactive, hq, ?_⟩
    refine hchosen.imp_left fun ⟨hselection, hname⟩ => ⟨hselection, ?_⟩
    rw [hgiven] at hname
    exact (resolveAuto_seed_congr profiles given c.platform).trans hname
  · exact settled_automatic c.platform profiles

theorem settled_new (platform : Platform) (profiles : List Profile) (name : String) :
    (new platform profiles name).Settled := by
  rcases new_cases platform profiles name with ⟨active, h⟩ | h
  · exact (settled_automatic platform profiles).activate h
  · rw [h]
    exact settled_automatic platform profiles

theorem Reached.settled (h : c.Reached) : c.Settled := by
  induction h with
  | new platform profiles active => exact settled_new platform profiles active
  | activate _ hc ih => exact ih.activate hc
  | replaceAll _ profiles ih => exact ih.replaceAll profiles

/-- Where there are profiles, an activation is refused if the name is not `auto` and no profile has it. -/
theorem activate_eq_error_iff (h : c.profiles ≠ []) :
    c.activate name = .error (.notFound .profiles name) ↔
      Text.same name auto = false ∧ ∀ p ∈ c.profiles, Text.same p.name name = false := by
  have hnone : find? c.profiles name = none ↔ ∀ p ∈ c.profiles, Text.same p.name name = false := by
    simp only [find?, List.find?_eq_none, isNamed, Bool.not_eq_true]
  rw [← hnone]
  unfold Catalog.activate
  rw [chosen?_of_ne_nil h]
  split
  · simp [*]
  · cases find? c.profiles name <;> simp [*]

theorem activate_error {e : Failure} (h : c.activate name = .error e) : e = .notFound .profiles name := by
  unfold Catalog.activate at h
  split at h
  · cases h
  · split at h
    · cases h
    · exact (Except.error.inj h).symm

/-- Some stored profile is always the active one, its arguments are those that encoders get, and the selection says how
it was chosen. A profile is refused only for its name, and the fleet stays as it was then. -/
theorem Reached.active_is_stored (h : c.Reached) :
    (∃ name p, c.active = some name ∧ c.profiles.find? (fun q => Text.same q.name name) = some p ∧
      c.activeArgs = p.args ∧
      (c.selection = auto ∧ resolveAuto c.profiles c.platform = some name ∨ c.selection = name)) ∧
    ∀ name, ((∃ e, c.activate name = .error e) ↔
        Text.same name auto = false ∧ ∀ p ∈ c.profiles, Text.same p.name name = false) ∧
      ∀ (f : Fleet) (e : Failure), f.catalog = c → c.activate name = .error e →
        f.stepChange (.change (.activate name)) .proceed = some (f, .done (.failed e)) := by
  have hne := h.settled.profiles_ne_nil
  refine ⟨?_, fun name => ⟨⟨?_, fun hname => ⟨_, (activate_eq_error_iff hne).mpr hname⟩⟩, ?_⟩⟩
  · obtain ⟨name, p, hactive, hp, hchosen⟩ := h.settled.active
    refine ⟨name, p, hactive, hp, ?_, hchosen⟩
    rw [activeArgs, hactive, Option.bind_some, hp, Option.map_some, Option.getD_some]
  · rintro ⟨e, he⟩
    rw [activate_error he] at he
    exact (activate_eq_error_iff hne).mp he
  · rintro f e rfl he
    simp only [Fleet.stepChange, Fleet.change, he, Except.map]

/-- A catalog in which the active profile was replaced by two, whose names have other letters. -/
def doubled : Catalog :=
  (Catalog.new .linux [⟨"Mine", "-c:v copy", ""⟩, ⟨"auto", "-an", ""⟩] "MINE").replaceAll
    [⟨"MINE", "-c:v libx265", ""⟩, ⟨"mine", "-c:v libvpx", ""⟩]

/-- The active name is still found, and the arguments are those of the first profile that has it. -/
theorem active_is_stored_doubled :
    doubled.Reached ∧ doubled.active = some "Mine" ∧
      ∃ p, doubled.profiles.find? (fun q => Text.same q.name "Mine") = some p ∧ p.args = "-c:v libx265" := by
  have hr : doubled.Reached := .replaceAll (.new ..) _
  obtain ⟨⟨name, p, hname, hp, hargs, -⟩, -⟩ := hr.active_is_stored
  have hactive : doubled.active = some "Mine" := by decide +kernel
  obtain rfl : name = "Mine" := Option.some.inj (hname.symm.trans hactive)
  exact ⟨hr, hactive, p, hp, hargs.symm.trans (by decide +kernel)⟩

end Catalog

end EncoderFleet
