import EncoderFleet.Proofs.Fleet.Custody

/-!
# The stories of encoders

A *log* is a list of happenings. The story of an encoder is the part of the log that concerns it, and custody is
*accounted* for when the keeper of each encoder and those who have it are what its story tells
(`Custody.Accounted`). `Custody.Agrees` adds what the log says about generations: each is departed from once at most,
and only when its encoder is gone; the id of a source is returned once at most for each of them. Each step keeps the
agreement (`Agrees.step`).
-/

namespace EncoderFleet

namespace Happening

/-- Whether it concerns an encoder. -/
def concerns (n : Nat) : Happening → Bool
  | launched m _ | committed m _ _ _ | abandoned m _ | taken m _ _ _ | crashed m _ _ => m == n
  | returned _ _ _ => false

/-- Whether a source loses the encoder of a generation in it. -/
def departs (key : String) (generation : Nat) : Happening → Bool
  | taken _ k g _ | crashed _ k g => k == key && g == generation
  | _ => false

/-- Whether a stop request returns the id of a source for the encoder of a generation. -/
def returns (key : String) (generation : Nat) : Happening → Bool
  | returned k g _ => k == key && g == generation
  | _ => false

end Happening

/-- What happened to an encoder. -/
def story (log : List Happening) (n : Nat) : List Happening := log.filter (Happening.concerns n)

/-- How often a source has lost the encoder of a generation. -/
def departures (log : List Happening) (key : String) (generation : Nat) : Nat :=
  log.countP (Happening.departs key generation)

/-- How often a stop request has returned the id of a source for the encoder of a generation. -/
def returnings (log : List Happening) (key : String) (generation : Nat) : Nat :=
  log.countP (Happening.returns key generation)

section Logs

theorem countP_append_toList {α : Type} (l : List α) (a : Option α) (p : α → Bool) :
    (l ++ a.toList).countP p = l.countP p + if a.any p = true then 1 else 0 := by
  cases a <;> simp [List.countP_cons]

variable (log : List Happening) (key : String) (generation : Nat)

theorem departures_append (a : Option Happening) :
    departures (log ++ a.toList) key generation =
      departures log key generation + if a.any (Happening.departs key generation) = true then 1 else 0 :=
  countP_append_toList ..

theorem returnings_append (a : Option Happening) :
    returnings (log ++ a.toList) key generation =
      returnings log key generation + if a.any (Happening.returns key generation) = true then 1 else 0 :=
  countP_append_toList ..

end Logs

namespace Custody

/-- Who answers for an encoder and who has it, as its story tells. -/
inductive Accounted (c : Custody) (n : Nat) : Option Keeper → List Happening → Prop
  | unknown (h : ∀ x, c.has x ≠ some n) : Accounted c n none []
  | owned {id : Nat} (h : ∀ x, c.has x = some n ↔ x = .start id) :
      Accounted c n (some .launch) [.launched n id]
  | tracked {id : Nat} {key : String} (h : ∀ x, c.has x = some n ↔ x = .source key) :
      Accounted c n (some (.watcher key (c.generation key) false false))
        [.launched n id, .committed n key (c.generation key) id]
  | taken {id stop generation : Nat} {key : String} {struck : Bool} (h : ∀ x, c.has x ≠ some n) :
      Accounted c n (some (.watcher key generation true struck))
        [.launched n id, .committed n key generation id, .taken n key generation stop]
  | reaped {id stop generation : Nat} {key : String} {code : ExitCode} (h : ∀ x, c.has x ≠ some n) :
      Accounted c n (some (.gone code))
        [.launched n id, .committed n key generation id, .taken n key generation stop]
  | crashed {id generation : Nat} {key : String} {code : ExitCode} (h : ∀ x, c.has x ≠ some n) :
      Accounted c n (some (.gone code)) [.launched n id, .committed n key generation id, .crashed n key generation]
  | abandoned {id : Nat} (h : ∀ x, c.has x ≠ some n) :
      Accounted c n (some .nobody) [.launched n id, .abandoned n id]

/-- The custody of encoders agrees with what has happened. -/
structure Agrees (c : Custody) (log : List Happening) : Prop where
  accounted (n : Nat) : c.Accounted n (c.keeper n) (story log n)
  /-- A source has lost its latest encoder, if that of the latest generation, and else those of earlier generations. -/
  departed {key : String} {generation : Nat} (h : departures log key generation ≠ 0) :
    generation < c.generation key ∨ generation = c.generation key ∧ c.has (.source key) = none
  once (key : String) (generation : Nat) : departures log key generation ≤ 1
  /-- What a stop has taken away has departed, and is yet to be returned. -/
  pending {id : Nat} {key : String} {t : Tracked} (h : c.taken id = some (key, t)) :
    departures log key t.generation ≠ 0 ∧ returnings log key t.generation = 0
  alone {i j : Nat} {key : String} {s t : Tracked} (hi : c.taken i = some (key, s)) (hj : c.taken j = some (key, t))
    (h : s.generation = t.generation) : i = j
  returned {key : String} {generation : Nat} (h : returnings log key generation ≠ 0) :
    departures log key generation ≠ 0
  returnedOnce (key : String) (generation : Nat) : returnings log key generation ≤ 1

variable {c c' : Custody} {n : Nat} {k : Option Keeper} {l : List Happening}

/-! ## What a story tells -/

/-- Who has an encoder, and the generations of sources that have it, are all that an account depends on. -/
theorem Accounted.congr (h : c.Accounted n k l) (hx : ∀ x, c'.has x = some n ↔ c.has x = some n)
    (hg : ∀ key, c.has (.source key) = some n → c'.generation key = c.generation key) : c'.Accounted n k l := by
  have hno : (∀ x, c.has x ≠ some n) → ∀ x, c'.has x ≠ some n := fun h x hc => h x ((hx x).mp hc)
  cases h with
  | unknown h => exact .unknown (hno h)
  | owned h => exact .owned fun x => (hx x).trans (h x)
  | @tracked id key h =>
    rw [← hg key ((h _).mpr rfl)]
    exact .tracked fun x => (hx x).trans (h x)
  | taken h => exact .taken (hno h)
  | reaped h => exact .reaped (hno h)
  | crashed h => exact .crashed (hno h)
  | abandoned h => exact .abandoned (hno h)

/-- An encoder that nobody has comes to be had, or is no longer had: of all others, the account stays. -/
theorem has_update {d : Owner → Option Nat} {x : Owner} {v : Option Nat} (hv : v ≠ some n) (hx : d x ≠ some n)
    (y : Owner) : Function.update d x v y = some n ↔ d y = some n := by
  rw [Function.update_apply]
  split
  · next h => rw [h]; exact iff_of_false hv hx
  · rfl

/-- An encoder that nobody has passes to an owner. -/
theorem has_gained {d : Owner → Option Nat} {x : Owner} (h : ∀ y, d y ≠ some n) (y : Owner) :
    Function.update d x (some n) y = some n ↔ y = x := by
  by_cases hy : y = x
  · simp [hy]
  · simp [hy, h y]

/-- The one who has an encoder loses it. -/
theorem has_lost {d : Owner → Option Nat} {x : Owner} (h : ∀ y, d y = some n ↔ y = x) (y : Owner) :
    Function.update d x none y ≠ some n := by
  by_cases hy : y = x
  · simp [hy]
  · simp [hy, h y]

theorem keeper_update {keeper : Keeper} (change : Keeper → Keeper) (h : c.keeper n = some keeper) :
    Function.update c.keeper n ((c.keeper n).map change) n = some (change keeper) := by
  rw [Function.update_self, h]
  rfl

theorem Accounted.of_start {id : Nat} (h : c.Accounted n k l) (hi : c.has (.start id) = some n) :
    k = some .launch ∧ l = [.launched n id] ∧ ∀ x, c.has x = some n ↔ x = .start id := by
  cases h with
  | owned h =>
    cases (h _).mp hi
    exact ⟨rfl, rfl, h⟩
  | tracked h => cases (h _).mp hi
  | unknown h => exact absurd hi (h _)
  | taken h => exact absurd hi (h _)
  | reaped h => exact absurd hi (h _)
  | crashed h => exact absurd hi (h _)
  | abandoned h => exact absurd hi (h _)

theorem Accounted.of_source {key : String} (h : c.Accounted n k l) (hk : c.has (.source key) = some n) :
    k = some (.watcher key (c.generation key) false false) ∧
      (∃ id, l = [.launched n id, .committed n key (c.generation key) id]) ∧
      ∀ x, c.has x = some n ↔ x = .source key := by
  cases h with
  | tracked h =>
    cases (h _).mp hk
    exact ⟨rfl, ⟨_, rfl⟩, h⟩
  | owned h => cases (h _).mp hk
  | unknown h => exact absurd hk (h _)
  | taken h => exact absurd hk (h _)
  | reaped h => exact absurd hk (h _)
  | crashed h => exact absurd hk (h _)
  | abandoned h => exact absurd hk (h _)

/-- A watcher that nobody has asked for a kill watches the encoder that its source has. -/
theorem Accounted.of_watcher {key : String} {generation : Nat} {asked struck : Bool}
    (h : c.Accounted n (some (.watcher key generation asked struck)) l) :
    (asked = false ∧ struck = false ∧ generation = c.generation key ∧ c.has (.source key) = some n) ∨
      asked = true ∧ (∀ x, c.has x ≠ some n) ∧
        ∃ id stop, l = [.launched n id, .committed n key generation id, .taken n key generation stop] := by
  cases h with
  | tracked h => exact .inl ⟨rfl, rfl, rfl, (h _).mpr rfl⟩
  | taken h => exact .inr ⟨rfl, h, _, _, rfl⟩

theorem Accounted.of_generation {id generation : Nat} {key : String} (hg : c.generation key = generation)
    (h : ∀ x, c.has x = some n ↔ x = .source key) :
    c.Accounted n (some (.watcher key generation false false)) [.launched n id, .committed n key generation id] := by
  subst hg
  exact .tracked h

theorem Accounted.of_none (h : c.Accounted n none l) : l = [] ∧ ∀ x, c.has x ≠ some n := by
  cases h with
  | unknown h => exact ⟨rfl, h⟩

/-- What has happened to an encoder and departs from a generation counts for it. -/
theorem departures_of_story {log : List Happening} {a : Happening} {key : String} {generation : Nat}
    (h : a ∈ story log n) (ha : a.departs key generation = true) : departures log key generation ≠ 0 := by
  have hm : a ∈ log := List.mem_of_mem_filter h
  have hpos : 0 < departures log key generation := List.countP_pos_iff.mpr ⟨a, hm, ha⟩
  omega

/-- As long as a source has an encoder, nothing has departed from its latest generation. -/
theorem Agrees.latest {log : List Happening} {key : String} (h : c.Agrees log) (hk : c.has (.source key) ≠ none) :
    departures log key (c.generation key) = 0 := by
  by_contra hd
  rcases h.departed hd with hlt | ⟨-, hno⟩
  · omega
  · exact hk hno

/-! ## The accounts of encoders -/

theorem story_append (log : List Happening) (a : Option Happening) (m : Nat) :
    story (log ++ a.toList) m = story log m ++ a.toList.filter (Happening.concerns m) := List.filter_append ..

/-- The story of an encoder goes on with what concerns it. -/
theorem Accounted.told {log : List Happening} {a : Happening} (h : c'.Accounted n k (l ++ [a]))
    (hk : c'.keeper n = k) (hl : story log n = l) (ha : a.concerns n = true) :
    c'.Accounted n (c'.keeper n) (story (log ++ (some a).toList) n) := by
  have hs : story (log ++ (some a).toList) n = l ++ [a] := by
    rw [story_append, hl]
    simp [ha]
  rw [hk, hs]
  exact h

/-- A step that is of no consequence for an encoder leaves its account alone. -/
theorem Agrees.accounted_other {log : List Happening} {a : Option Happening} (h : c.Agrees log)
    (ha : a.any (Happening.concerns n) = false) (hk : c'.keeper n = c.keeper n)
    (hx : ∀ x, c'.has x = some n ↔ c.has x = some n)
    (hg : ∀ key, c.has (.source key) = some n → c'.generation key = c.generation key) :
    c'.Accounted n (c'.keeper n) (story (log ++ a.toList) n) := by
  have hs : story (log ++ a.toList) n = story log n := by
    rw [story_append]
    cases a with
    | none => simp
    | some a => rw [Option.any_some] at ha; simp [ha]
  rw [hk, hs]
  exact (h.accounted n).congr hx hg

/-- The encoder that a watcher answers for in the latest generation of a source is the one that the source has, if any.
Had it been taken away, then that generation would be over. -/
theorem Agrees.watched {log : List Happening} {m : Nat} {key : String} {asked struck : Bool} (h : c.Agrees log)
    (hk : c.keeper n = some (.watcher key (c.generation key) asked struck)) (hm : c.has (.source key) = some m) :
    m = n := by
  have hn := h.accounted n
  rw [hk] at hn
  rcases hn.of_watcher with ⟨-, -, -, hkey⟩ | ⟨-, -, id, stop, hl⟩
  · rw [hm] at hkey
    exact Option.some.inj hkey
  · have hdep : departures log key (c.generation key) ≠ 0 :=
      departures_of_story (n := n) (a := .taken n key (c.generation key) stop) (by simp [hl])
        (by simp [Happening.departs])
    exact absurd (h.latest (by simp [hm])) hdep

/-- The keeper of the encoder that a step concerns, and those who have it, are what its story tells after the step. -/
theorem Agrees.accounted_step {log : List Happening} {a : Option Happening} (h : c.Agrees log)
    (step : Step c a c') (m : Nat) : c'.Accounted m (c'.keeper m) (story (log ++ a.toList) m) := by
  have hm := h.accounted m
  cases step with
  | still => exact h.accounted_other rfl rfl (fun _ => .rfl) fun _ _ => rfl
  | @launched id n hi hn =>
    by_cases hmn : m = n
    · subst hmn
      rw [hn] at hm
      obtain ⟨hl, hno⟩ := hm.of_none
      exact .told (l := []) (.owned (has_gained hno)) (Function.update_self ..) hl (by simp [Happening.concerns])
    · exact h.accounted_other (by simp [Happening.concerns, Ne.symm hmn]) (Function.update_of_ne hmn ..)
        (has_update (by simp [Ne.symm hmn]) (by simp [hi])) fun _ _ => rfl
  | @committed id n key hi hk =>
    by_cases hmn : m = n
    · subst hmn
      obtain ⟨hkeep, hl, hx⟩ := hm.of_start hi
      exact (Accounted.of_generation (Function.update_self ..) (has_gained (has_lost hx))).told
        (keeper_update _ hkeep) hl (by simp [Happening.concerns])
    · have hleft : ∀ x, Function.update c.has (.start id) none x = some m ↔ c.has x = some m :=
        has_update nofun (by simp [hi, Ne.symm hmn])
      have hfree : Function.update c.has (.start id) none (.source key) ≠ some m := by simp [hk]
      refine h.accounted_other (by simp [Happening.concerns, Ne.symm hmn]) (Function.update_of_ne hmn ..) (fun x => ?_)
        fun k hkm => Function.update_of_ne (fun hkk => ?_) ..
      · exact (has_update (by simp [Ne.symm hmn]) hfree x).trans (hleft x)
      · rw [hkk, hk] at hkm
        cases hkm
  | @abandoned id n hi =>
    by_cases hmn : m = n
    · subst hmn
      obtain ⟨hkeep, hl, hx⟩ := hm.of_start hi
      exact (Accounted.abandoned (has_lost hx)).told (keeper_update _ hkeep) hl (by simp [Happening.concerns])
    · exact h.accounted_other (by simp [Happening.concerns, Ne.symm hmn]) (Function.update_of_ne hmn ..)
        (has_update nofun (by simp [hi, Ne.symm hmn])) fun _ _ => rfl
  | @taken id n key t hk hn hg =>
    by_cases hmn : m = n
    · subst hmn
      obtain ⟨hkeep, ⟨id', hl⟩, hx⟩ := hm.of_source hk
      exact (Accounted.taken (has_lost hx)).told (keeper_update _ hkeep) hl (by simp [Happening.concerns])
    · exact h.accounted_other (by simp [Happening.concerns, Ne.symm hmn]) (Function.update_of_ne hmn ..)
        (has_update nofun (by simp [hk, Ne.symm hmn])) fun _ _ => rfl
  | @finished id key t a ht ha =>
    refine h.accounted_other ?_ rfl (fun _ => .rfl) fun _ _ => rfl
    cases a with
    | none => rfl
    | some b => rw [ha b rfl]; rfl
  | @struck n generation key hk =>
    by_cases hmn : m = n
    · subst hmn
      rw [hk] at hm
      rcases hm.of_watcher with ⟨hf, -⟩ | ⟨-, hno, id, stop, hl⟩
      · cases hf
      · dsimp only
        rw [Function.update_self, story_append, hl]
        exact .taken hno
    · exact h.accounted_other rfl (Function.update_of_ne hmn ..) (fun _ => .rfl) fun _ _ => rfl
  | @reaped n generation key asked struck code hk hs =>
    by_cases hmn : m = n
    · subst hmn
      rw [hk] at hm
      rcases hm.of_watcher with ⟨-, hf, hg, hkey⟩ | ⟨-, hno, id, stop, hl⟩
      · rcases hs hf with hnone | hne
        · rw [hnone] at hkey
          cases hkey
        · exact absurd hg hne
      · dsimp only
        rw [Function.update_self, story_append, hl]
        exact .reaped hno
    · exact h.accounted_other rfl (Function.update_of_ne hmn ..) (fun _ => .rfl) fun _ _ => rfl
  | @crashed n k key asked code hk hkey =>
    obtain rfl : k = n := h.watched hk hkey
    by_cases hmn : m = k
    · subst hmn
      obtain ⟨-, ⟨id, hl⟩, hx⟩ := hm.of_source hkey
      exact (Accounted.crashed (has_lost hx)).told (Function.update_self ..) hl (by simp [Happening.concerns])
    · exact h.accounted_other (by simp [Happening.concerns, Ne.symm hmn]) (Function.update_of_ne hmn ..)
        (has_update nofun (by simp [hkey, Ne.symm hmn])) fun _ _ => rfl

/-! ## Generations -/

/-- A step departs from at most one generation: the latest of a source that has its encoder, and has it no longer. -/
theorem Step.departs_cases {a : Option Happening} (step : Step c a c') :
    ((∀ key generation, a.any (Happening.departs key generation) = false) ∧
      ∀ key, c'.generation key = c.generation key ∧ c'.has (.source key) = c.has (.source key) ∨
        c.has (.source key) = none ∧ c.generation key < c'.generation key) ∨
    ∃ key, c.has (.source key) ≠ none ∧ c'.has (.source key) = none ∧ c'.generation = c.generation ∧
      (∀ k, k ≠ key → c'.has (.source k) = c.has (.source k)) ∧
      ∀ k generation, a.any (Happening.departs k generation) = true ↔ key = k ∧ c.generation key = generation := by
  cases step with
  | @taken id n key t hk hn hg =>
    refine .inr ⟨key, by simp [hk], Function.update_self .., rfl, fun k hkk => ?_, fun k generation => ?_⟩
    · exact Function.update_of_ne (by simp [hkk]) ..
    · simp [Happening.departs]
  | @crashed n m key asked code hk hm =>
    refine .inr ⟨key, by simp [hm], Function.update_self .., rfl, fun k hkk => ?_, fun k generation => ?_⟩
    · exact Function.update_of_ne (by simp [hkk]) ..
    · simp [Happening.departs]
  | @committed id n key hi hk =>
    refine .inl ⟨fun _ _ => rfl, fun k => ?_⟩
    by_cases hkk : k = key
    · subst hkk
      exact .inr ⟨hk, by simp⟩
    · refine .inl ⟨Function.update_of_ne hkk .., ?_⟩
      simp [hkk]
  | @finished id key t a ht ha =>
    refine .inl ⟨fun k generation => ?_, fun _ => .inl ⟨rfl, rfl⟩⟩
    cases a with
    | none => rfl
    | some b => rw [ha b rfl]; rfl
  | launched => exact .inl ⟨fun _ _ => rfl, fun _ => .inl ⟨rfl, by simp⟩⟩
  | abandoned => exact .inl ⟨fun _ _ => rfl, fun _ => .inl ⟨rfl, by simp⟩⟩
  | still => exact .inl ⟨fun _ _ => rfl, fun _ => .inl ⟨rfl, rfl⟩⟩
  | struck => exact .inl ⟨fun _ _ => rfl, fun _ => .inl ⟨rfl, rfl⟩⟩
  | reaped => exact .inl ⟨fun _ _ => rfl, fun _ => .inl ⟨rfl, rfl⟩⟩

/-- A generation that is departed from a second time would have been over, and one that is over stays so. -/
theorem Agrees.departed_step {log : List Happening} {a : Option Happening} (h : c.Agrees log)
    (step : Step c a c') (key : String) (generation : Nat) :
    departures (log ++ a.toList) key generation ≤ 1 ∧
      (departures (log ++ a.toList) key generation ≠ 0 →
        generation < c'.generation key ∨ generation = c'.generation key ∧ c'.has (.source key) = none) := by
  have honce := h.once key generation
  rw [departures_append]
  rcases step.departs_cases with ⟨ha, hc⟩ | ⟨k, hhas, hnone, hgen, hother, ha⟩
  · rw [ha, if_neg nofun, Nat.add_zero]
    refine ⟨honce, fun hd => ?_⟩
    have hdep := h.departed hd
    rcases hc key with ⟨hg, hs⟩ | ⟨-, hlt⟩
    · rwa [hg, hs]
    · refine .inl ?_
      omega
  · by_cases hk : k = key ∧ c.generation k = generation
    · obtain ⟨rfl, rfl⟩ := hk
      rw [h.latest hhas, if_pos ((ha _ _).mpr ⟨rfl, rfl⟩)]
      exact ⟨Nat.le_refl _, fun _ => .inr ⟨by rw [hgen], hnone⟩⟩
    · rw [if_neg (mt (ha _ _).mp hk), Nat.add_zero, hgen]
      refine ⟨honce, fun hd => ?_⟩
      rcases h.departed hd with hlt | ⟨hg, hno⟩
      · exact .inl hlt
      · refine .inr ⟨hg, ?_⟩
        by_cases hkk : key = k
        · rw [hkk]; exact hnone
        · rw [hother key hkk]; exact hno

/-! ## Stops that are through -/

/-- Apart from a stop that takes an encoder away, and one that is through, no step returns an id or changes what stops
have taken away. -/
theorem Step.taken_cases {a : Option Happening} (step : Step c a c') :
    (c'.taken = c.taken ∧ ∀ key generation, a.any (Happening.returns key generation) = false) ∨
    (∃ id key t, c.has (.source key) ≠ none ∧ t.generation = c.generation key ∧
      c'.taken = Function.update c.taken id (some (key, t)) ∧
      a.any (Happening.departs key t.generation) = true ∧
      ∀ key generation, a.any (Happening.returns key generation) = false) ∨
    ∃ id key t, c.taken id = some (key, t) ∧ c'.taken = Function.update c.taken id none ∧
      ∀ k generation, a.any (Happening.returns k generation) = true → key = k ∧ t.generation = generation := by
  cases step with
  | @taken id n key t hk hn hg =>
    exact .inr (.inl ⟨id, key, t, by simp [hk], hg, rfl, by simp [Happening.departs, hg], fun _ _ => rfl⟩)
  | @finished id key t a ht ha =>
    refine .inr (.inr ⟨id, key, t, ht, rfl, fun k generation hr => ?_⟩)
    cases a with
    | none => cases hr
    | some b =>
      rw [ha b rfl] at hr
      simpa [Happening.returns] using hr
  | _ => exact .inl ⟨rfl, fun _ _ => rfl⟩

/-- An encoder that was launched goes on to be one. -/
theorem Step.keeper_isSome {a : Option Happening} (step : Step c a c') (h : (c.keeper n).isSome = true) :
    (c'.keeper n).isSome = true := by
  have update : ∀ {m : Nat} {v : Option Keeper}, ((c.keeper m).isSome = true → v.isSome = true) →
      (Function.update c.keeper m v n).isSome = true := by
    intro m v hv
    rw [Function.update_apply]
    split
    · next hm => exact hv (hm ▸ h)
    · exact h
  cases step with
  | still => exact h
  | finished => exact h
  | launched => exact update fun _ => rfl
  | committed => exact update fun hm => by rwa [Option.isSome_map]
  | abandoned => exact update fun hm => by rwa [Option.isSome_map]
  | taken => exact update fun hm => by rwa [Option.isSome_map]
  | struck => exact update fun _ => rfl
  | reaped => exact update fun _ => rfl
  | crashed => exact update fun _ => rfl

/-- What is returned has departed, and is returned once: by the stop that has taken it away. -/
theorem Agrees.returned_step {log : List Happening} {a : Option Happening} (h : c.Agrees log) (step : Step c a c')
    (key : String) (generation : Nat) :
    returnings (log ++ a.toList) key generation ≤ 1 ∧
      (returnings (log ++ a.toList) key generation ≠ 0 → departures log key generation ≠ 0) := by
  have hold : returnings log key generation ≤ 1 ∧
      (returnings log key generation ≠ 0 → departures log key generation ≠ 0) :=
    ⟨h.returnedOnce key generation, h.returned⟩
  rw [returnings_append]
  rcases step.taken_cases with ⟨-, hr⟩ | ⟨_, _, _, -, -, -, -, hr⟩ | ⟨id, k, t, ht, -, hr⟩
  · rwa [hr, if_neg nofun, Nat.add_zero]
  · rwa [hr, if_neg nofun, Nat.add_zero]
  · by_cases ha : a.any (Happening.returns key generation) = true
    · obtain ⟨rfl, rfl⟩ := hr _ _ ha
      obtain ⟨hd, hz⟩ := h.pending ht
      rw [hz, if_pos ha]
      exact ⟨Nat.le_refl _, fun _ => hd⟩
    · rwa [if_neg ha, Nat.add_zero]

theorem departures_mono {log : List Happening} {key : String} {generation : Nat} (a : Option Happening)
    (h : departures log key generation ≠ 0) : departures (log ++ a.toList) key generation ≠ 0 := by
  rw [departures_append]
  omega

/-- What stops have taken away and not yet returned has departed, and no two stops have taken the same. -/
theorem Agrees.pending_step {log : List Happening} {a : Option Happening} (h : c.Agrees log) (step : Step c a c') :
    (∀ id key t, c'.taken id = some (key, t) →
      departures (log ++ a.toList) key t.generation ≠ 0 ∧ returnings (log ++ a.toList) key t.generation = 0) ∧
    ∀ i j key s t, c'.taken i = some (key, s) → c'.taken j = some (key, t) → s.generation = t.generation → i = j := by
  rcases step.taken_cases with ⟨htk, hr⟩ | ⟨id, key, t, hhas, hg, htk, hd, hr⟩ | ⟨id, key, t, ht, htk, hr⟩
  · rw [htk]
    refine ⟨fun i k s hi => ?_, fun i j k s t hi hj => h.alone hi hj⟩
    obtain ⟨hd, hz⟩ := h.pending hi
    rw [returnings_append, hr, hz]
    exact ⟨departures_mono a hd, rfl⟩
  · -- What has just been taken away had not departed before, so no other stop has taken it.
    have hlatest : departures log key t.generation = 0 := by
      rw [hg]
      exact h.latest hhas
    have hother : ∀ {i s}, c.taken i = some (key, s) → s.generation ≠ t.generation := by
      intro i s hi hst
      have hdep := (h.pending hi).1
      rw [hst] at hdep
      exact hdep hlatest
    rw [htk]
    constructor
    · intro i k s hi
      rw [returnings_append, hr, if_neg nofun, Nat.add_zero]
      by_cases hid : i = id
      · subst hid
        rw [Function.update_self] at hi
        cases hi
        refine ⟨?_, ?_⟩
        · rw [departures_append, if_pos hd]
          omega
        · by_contra hz
          exact h.returned hz hlatest
      · rw [Function.update_of_ne hid] at hi
        obtain ⟨hd, hz⟩ := h.pending hi
        exact ⟨departures_mono a hd, hz⟩
    · intro i j k s s' hi hj hss
      by_cases hi' : i = id <;> by_cases hj' : j = id
      · rw [hi', hj']
      · rw [hi', Function.update_self] at hi
        rw [Function.update_of_ne hj'] at hj
        cases hi
        exact absurd hss.symm (hother hj)
      · rw [Function.update_of_ne hi'] at hi
        rw [hj', Function.update_self] at hj
        cases hj
        exact absurd hss (hother hi)
      · rw [Function.update_of_ne hi'] at hi
        rw [Function.update_of_ne hj'] at hj
        exact h.alone hi hj hss
  · have hold : ∀ {i k s}, c'.taken i = some (k, s) → i ≠ id ∧ c.taken i = some (k, s) := by
      intro i k s hi
      rw [htk] at hi
      by_cases hid : i = id
      · rw [hid, Function.update_self] at hi
        cases hi
      · rw [Function.update_of_ne hid] at hi
        exact ⟨hid, hi⟩
    refine ⟨fun i k s hi => ?_, fun i j k s s' hi hj => h.alone (hold hi).2 (hold hj).2⟩
    obtain ⟨hid, hi⟩ := hold hi
    obtain ⟨hd, hz⟩ := h.pending hi
    refine ⟨departures_mono a hd, ?_⟩
    rw [returnings_append, hz, Nat.zero_add]
    refine if_neg fun ha => hid ?_
    obtain ⟨rfl, hgen⟩ := hr _ _ ha
    exact h.alone hi ht hgen.symm

/-- A step keeps custody and log in agreement. -/
theorem Agrees.step {log : List Happening} {a : Option Happening} (h : c.Agrees log) (step : Step c a c') :
    c'.Agrees (log ++ a.toList) where
  accounted := h.accounted_step step
  departed := (h.departed_step step _ _).2
  once key generation := (h.departed_step step key generation).1
  pending := (h.pending_step step).1 _ _ _
  alone := (h.pending_step step).2 _ _ _ _ _
  returned hr := departures_mono a ((h.returned_step step _ _).2 hr)
  returnedOnce key generation := (h.returned_step step key generation).1

end Custody

end EncoderFleet
