import EncoderFleet.Proofs.Fleet.Standings
import Mathlib.Logic.Function.Basic

/-!
# Who answers for encoders

Of a fleet, its `Custody` is what tells who answers for each encoder: which starts and sources have one, the keepers of
all encoders, the latest generations, and what stops under way have taken away. `Custody.Step` lists all that can happen
to it. A `Happening` is a step that is of consequence for an encoder, and `Fleet.happening?` reads it off a deed and the
fleet before it.

Each deed is a step of this kind, and has the happening that belongs to the step (`Worked.custodyStep`).
-/

namespace EncoderFleet

/-- Something that is of consequence for an encoder. -/
inductive Happening
  /-- The start of a job launches an encoder. -/
  | launched (encoder job : Nat)
  /-- The start of a job commits its encoder: a source tracks it from now on, in this generation. -/
  | committed (encoder : Nat) (key : String) (generation job : Nat)
  /-- The start of a job gives its encoder up. -/
  | abandoned (encoder job : Nat)
  /-- A job takes away the encoder that a source tracks. -/
  | taken (encoder : Nat) (key : String) (generation job : Nat)
  /-- A source loses its encoder to a crash. -/
  | crashed (encoder : Nat) (key : String) (generation : Nat)
  /-- A stop request is through with the encoder of this generation, and returns the id of the source. -/
  | returned (key : String) (generation job : Nat)
deriving DecidableEq

/-- The keeper after it was asked for a kill. -/
def Keeper.asked : Keeper → Keeper
  | .watcher key generation _ struck => .watcher key generation true struck
  | k => k

theorem Encoder.keeper_askKill (e : Encoder) : e.askKill.keeper = e.keeper.asked := by
  unfold Encoder.askKill Keeper.asked
  cases h : e.keeper <;> simp [h]

/-- Who can have an encoder. -/
inductive Owner
  /-- The start under way in a job. -/
  | start (job : Nat)
  /-- A source, which tracks it. -/
  | source (key : String)
deriving DecidableEq

/-- Who answers for each encoder. -/
structure Custody where
  /-- The encoder that a start or a source has. -/
  has : Owner → Option Nat
  keeper : Nat → Option Keeper
  /-- The latest generation of a source. -/
  generation : String → Nat
  /-- What the stop of a job has taken away, and from which source. -/
  taken : Nat → Option (String × Tracked)

open Function (update) in
/-- What can happen to encoders, with what is of consequence in it. -/
inductive Custody.Step (c : Custody) : Option Happening → Custody → Prop
  | still : Custody.Step c none c
  | launched {id n : Nat} (hi : c.has (.start id) = none) (hn : c.keeper n = none) :
      Custody.Step c (some (.launched n id))
        { c with has := update c.has (.start id) (some n), keeper := update c.keeper n (some .launch) }
  | committed {id n : Nat} {key : String} (hi : c.has (.start id) = some n) (hk : c.has (.source key) = none) :
      Custody.Step c (some (.committed n key (c.generation key + 1) id))
        { c with
          has := update (update c.has (.start id) none) (.source key) (some n)
          keeper := update c.keeper n ((c.keeper n).map fun _ => .watcher key (c.generation key + 1) false false)
          generation := update c.generation key (c.generation key + 1) }
  | abandoned {id n : Nat} (hi : c.has (.start id) = some n) :
      Custody.Step c (some (.abandoned n id))
        { c with has := update c.has (.start id) none, keeper := update c.keeper n ((c.keeper n).map fun _ => .nobody) }
  | taken {id n : Nat} {key : String} {t : Tracked} (hk : c.has (.source key) = some n) (hn : t.encoder = n)
      (hg : t.generation = c.generation key) :
      Custody.Step c (some (.taken n key (c.generation key) id))
        { c with
          has := update c.has (.source key) none
          keeper := update c.keeper n ((c.keeper n).map Keeper.asked)
          taken := update c.taken id (some (key, t)) }
  /-- A stop is through: one that was requested returns the id of its source, one that is a part of a start does not. -/
  | finished {id : Nat} {key : String} {t : Tracked} {a : Option Happening} (ht : c.taken id = some (key, t))
      (ha : ∀ h, a = some h → h = .returned key t.generation id) :
      Custody.Step c a { c with taken := update c.taken id none }
  | struck {n generation : Nat} {key : String} (hk : c.keeper n = some (.watcher key generation true false)) :
      Custody.Step c none { c with keeper := update c.keeper n (some (.watcher key generation true true)) }
  /-- An end is noticed that was asked for, or that is that of an encoder which its source does not track. -/
  | reaped {n generation : Nat} {key : String} {asked struck : Bool} {code : ExitCode}
      (hk : c.keeper n = some (.watcher key generation asked struck))
      (h : struck = false → c.has (.source key) = none ∨ generation ≠ c.generation key) :
      Custody.Step c none { c with keeper := update c.keeper n (some (.gone code)) }
  | crashed {n m : Nat} {key : String} {asked : Bool} {code : ExitCode}
      (hk : c.keeper n = some (.watcher key (c.generation key) asked false)) (hm : c.has (.source key) = some m) :
      Custody.Step c (some (.crashed n key (c.generation key)))
        { c with has := update c.has (.source key) none, keeper := update c.keeper n (some (.gone code)) }

namespace Fleet

/-- The encoder that the start under way in a job answers for. -/
def owned? (f : Fleet) (id : Nat) : Option Nat := (f.start? id).bind fun s => s.2.encoder?

/-- What the stop under way in a job has taken away, and from which source. -/
def takes? (f : Fleet) (id : Nat) : Option (String × Tracked) :=
  (f.stop? id).bind fun s => s.2.taken?.map fun t => (s.1.key, t.tracked)

/-- Who answers for an encoder. -/
def keeper? (f : Fleet) (n : Nat) : Option Keeper := (f.encoder? n).map Encoder.keeper

/-- Who answers for each encoder of a fleet. -/
def custody (f : Fleet) : Custody where
  has
    | .start id => f.owned? id
    | .source key => (f.life key).tracked.map Tracked.encoder
  keeper := f.keeper?
  generation key := (f.life key).generation
  taken := f.takes?

/-- What is of consequence in the next step of a stop. -/
def happeningOfStop (f : Fleet) (id : Nat) (o : StopOrder) : StopPlace → Option Happening
  | .take => (f.tracked? o.key).map fun t => .taken t.encoder o.key t.generation id
  | .record t _ => if o.overtakes then some (.returned o.key t.tracked.generation id) else none
  | _ => none

/-- What is of consequence in the next step of a start. -/
def happeningOfStart (f : Fleet) (id : Nat) (o : StartOrder) : StartPlace → Option Happening
  | .retire _ p => f.happeningOfStop id ⟨o.key, false, false⟩ p
  | .launch c =>
    match f.launcher.plan f.files c.command with
    | .runs _ => some (.launched f.encoders.length id)
    | .fails _ => none
  | .commit c n =>
    some (if f.overtaken o c.epoch then .abandoned n id
      else .committed n o.key ((f.stateOrNew o.source.id).generation + 1) id)
  | _ => none

/-- What is of consequence in the end of an encoder: nobody has killed it, and its source tracks an encoder of its
generation. -/
def happeningOfEnd (f : Fleet) (n : Nat) : Option Happening :=
  match f.keeper? n with
  | some (.watcher key generation _ false) =>
    if (f.tracked? key).any fun t => t.generation == generation then some (.crashed n key generation) else none
  | _ => none

/-- What is of consequence in a deed. -/
def happening? (f : Fleet) : Deed → Option Happening
  | .event (.job id _) =>
    match f.start? id with
    | some (o, p) => f.happeningOfStart id o p
    | none => (f.stop? id).bind fun s => f.happeningOfStop id s.1 s.2
  | .event (.notice n) => f.happeningOfEnd n
  | _ => none

variable {f g h : Fleet}

/-! ## Custody after an operation -/

/-- What of the life of a source tells which encoder it has. -/
def bond (f : Fleet) (key : String) : Option Tracked × Nat := ((f.life key).tracked, (f.life key).generation)

theorem bond_of_life {key : String} (h : g.life key = f.life key) : g.bond key = f.bond key := by rw [bond, h]; rfl

theorem bond_of_states (h : g.states = f.states) (k : String) : g.bond k = f.bond k := bond_of_life (life_of_states h k)

/-- Keeping something about a source that does not concern its encoder changes no bond. -/
theorem bond_putState {key : String} {s : SourceState} (h : (s.tracked, s.generation) = f.bond key) (k : String) :
    (f.putState key s).bond k = f.bond k := by
  rw [bond, life_putState]
  split
  · next hk => rw [hk]; exact h
  · rfl

theorem bond_of_state? {key : String} {s : SourceState} (h : f.state? key = some s) :
    f.bond key = (s.tracked, s.generation) := by rw [bond, life_of_state? h]; rfl

theorem bond_restoreLife (f : Fleet) (o : StartOrder) (prior : Lifecycle) (k : String) :
    (f.restoreLife o prior).bond k = f.bond k := by
  rw [bond, life_restoreLife]
  split
  · next h => rw [h.1]; rfl
  · rfl

theorem bond_recordStop (f : Fleet) (key : String) (t : Taken) (code : ExitCode) (k : String) :
    (f.recordStop key t code).bond k = f.bond k := by
  unfold recordStop
  cases hs : f.state? key with
  | none => rfl
  | some s =>
    refine bond_putState ?_ k
    rw [bond_of_state? hs]
    split <;> rfl

theorem keeper?_eq (f : Fleet) (n : Nat) : f.keeper? n = f.standings[n]?.map Standing.keeper := by
  rw [standings_getElem?, Option.map_map]
  rfl

theorem keeper?_of_standings (h : g.standings = f.standings) : g.keeper? = f.keeper? := by
  funext n
  rw [keeper?_eq, keeper?_eq, h]

theorem keeper?_modifyEncoder (f : Fleet) (n : Nat) {change : Encoder → Encoder} {c : Keeper → Keeper}
    (hc : ∀ e, (change e).keeper = c e.keeper) :
    (f.modifyEncoder n change).keeper? = Function.update f.keeper? n ((f.keeper? n).map c) := by
  funext k
  rw [keeper?, encoder?_modifyEncoder, Function.update_apply]
  split
  · rw [Option.map_map, keeper?, Option.map_map]
    congr 1
    funext e
    exact hc e
  · rfl

theorem Passed.owned? {id : Nat} {s : Option (StartOrder × StartPlace)} {t : Option (StopOrder × StopPlace)}
    (hp : f.Passed g id s t) : g.owned? = Function.update f.owned? id (s.bind fun s => s.2.encoder?) := by
  funext i
  rw [Fleet.owned?, hp.start?, Function.update_apply]
  split <;> rfl

theorem Passed.owned?_same {id : Nat} {s : Option (StartOrder × StartPlace)} {t : Option (StopOrder × StopPlace)}
    (hp : f.Passed g id s t) (hs : f.start? id = none) (h : (s.bind fun s => s.2.encoder?) = none) :
    g.owned? = f.owned? := by
  rw [hp.owned?, h]
  exact Function.update_eq_self_iff.mpr (by rw [Fleet.owned?, hs]; rfl)

theorem Passed.takes? {id : Nat} {s : Option (StartOrder × StartPlace)} {t : Option (StopOrder × StopPlace)}
    (hp : f.Passed g id s t) :
    g.takes? = Function.update f.takes? id (t.bind fun t => t.2.taken?.map fun x => (t.1.key, x.tracked)) := by
  funext i
  rw [Fleet.takes?, hp.stop?, Function.update_apply]
  split <;> rfl

theorem Passed.takes?_same {id : Nat} {s : Option (StartOrder × StartPlace)} {t : Option (StopOrder × StopPlace)}
    (hp : f.Passed g id s t) (ht : f.stop? id = none)
    (h : (t.bind fun t => t.2.taken?.map fun x => (t.1.key, x.tracked)) = none) : g.takes? = f.takes? := by
  rw [hp.takes?, h]
  exact Function.update_eq_self_iff.mpr (by rw [Fleet.takes?, ht]; rfl)

theorem owned?_of_start? {id : Nat} {o : StartOrder} {p : StartPlace} (h : f.start? id = some (o, p)) :
    f.owned? id = p.encoder? := by
  rw [Fleet.owned?, h]
  rfl

/-- Custody, put together. -/
theorem custody_eq {c : Custody} (ho : ∀ i, g.owned? i = c.has (.start i))
    (hs : ∀ k, (g.bond k).1.map Tracked.encoder = c.has (.source k)) (hk : g.keeper? = c.keeper)
    (hg : ∀ k, (g.bond k).2 = c.generation k) (ht : g.takes? = c.taken) : g.custody = c := by
  have hhas : g.custody.has = c.has := by
    funext x
    cases x with
    | start i => exact ho i
    | source k => exact hs k
  have hgen : g.custody.generation = c.generation := funext hg
  calc g.custody = ⟨g.custody.has, g.keeper?, g.custody.generation, g.takes?⟩ := rfl
    _ = c := by rw [hhas, hgen, hk, ht]

theorem custody_same (ho : g.owned? = f.owned?) (hb : ∀ k, g.bond k = f.bond k) (hk : g.keeper? = f.keeper?)
    (ht : g.takes? = f.takes?) : g.custody = f.custody :=
  custody_eq (fun i => congrFun ho i) (fun k => by rw [hb]; rfl) hk (fun k => by rw [hb]; rfl) ht

/-- A step leads to a fleet if that is what can be seen of the fleet. -/
theorem leads {c c' : Custody} {a : Option Happening} (step : Custody.Step c a c')
    (ho : ∀ i, g.owned? i = c'.has (.start i)) (hs : ∀ k, (g.bond k).1.map Tracked.encoder = c'.has (.source k))
    (hk : g.keeper? = c'.keeper) (hg : ∀ k, (g.bond k).2 = c'.generation k) (ht : g.takes? = c'.taken) :
    Custody.Step c a g.custody := by
  rw [custody_eq ho hs hk hg ht]
  exact step

/-- A step of a start that concerns the start and the keepers leads to a fleet that agrees with it on these, and
otherwise with the fleet before. -/
theorem leads_start {id : Nat} {v : Option Nat} {keeper : Nat → Option Keeper} {a : Option Happening}
    (step : Custody.Step f.custody a
      { f.custody with has := Function.update f.custody.has (.start id) v, keeper := keeper })
    (ho : g.owned? = Function.update f.owned? id v) (hb : ∀ k, g.bond k = f.bond k) (hk : g.keeper? = keeper)
    (ht : g.takes? = f.takes?) : Custody.Step f.custody a g.custody := by
  refine leads step (fun i => ?_) (fun k => ?_) hk (fun k => ?_) ht
  · rw [ho]
    simp [Function.update_apply, custody]
  · rw [hb]
    simp [custody, bond]
  · rw [hb]
    rfl

/-- A new encoder is that of the start that has launched it. -/
theorem keeper?_append {e : Encoder} (he : g.encoders = f.encoders ++ [e]) :
    g.keeper? = Function.update f.keeper? f.encoders.length (some e.keeper) := by
  funext n
  rw [keeper?, encoder?, he, Function.update_apply]
  rcases Nat.lt_trichotomy n f.encoders.length with hn | hn | hn
  · rw [List.getElem?_append_left hn, if_neg (by omega)]
    rfl
  · simp [hn]
  · rw [if_neg (by omega), List.getElem?_eq_none (by simp; omega), keeper?, encoder?, List.getElem?_eq_none (by omega)]

theorem generation_stateOrNew (f : Fleet) (o : StartOrder) :
    (f.stateOrNew o.source.id).generation = (f.life o.key).generation :=
  congrArg Life.generation (life_stateOrNew f o.source.id)

theorem bond_track (f : Fleet) (o : StartOrder) (c : Command) (n : Nat) (k : String) :
    (f.track o c n).1.bond k = if k = o.key then
      (some ⟨n, f.pid? n, (f.life o.key).generation + 1, c⟩, (f.life o.key).generation + 1) else f.bond k := by
  rw [bond, life_track]
  split <;> rfl

theorem keeper?_track (f : Fleet) (o : StartOrder) (c : Command) (n : Nat) :
    (f.track o c n).1.keeper? = Function.update f.keeper? n
      ((f.keeper? n).map fun _ => .watcher o.key ((f.life o.key).generation + 1) false false) := by
  rw [← generation_stateOrNew]
  exact keeper?_modifyEncoder _ n fun _ => rfl

theorem keeper?_abandon (f : Fleet) (n : Nat) :
    (f.abandon n).keeper? = Function.update f.keeper? n ((f.keeper? n).map fun _ => .nobody) := by
  rw [← keeper?_of_standings (kept_stopPump f n).standings]
  exact keeper?_modifyEncoder (f.stopPump n) n fun _ => rfl

/-! ## Steps -/

theorem StopStep.custodyStep {id : Nat} {o : StopOrder} {p : StopPlace} {m : Move} {r : After StopPlace (Option String)}
    (hl : (f.life o.key).Sound) (step : StopStep f o p m g r) (hf : g.Framed h) (ho : h.owned? = f.owned?)
    (ht : f.takes? id = p.taken?.map fun t => (o.key, t.tracked))
    (hp : h.takes? = Function.update f.takes? id ((r.place?.bind StopPlace.taken?).map fun t => (o.key, t.tracked))) :
    Custody.Step f.custody (f.happeningOfStop id o p) h.custody := by
  have hb : ∀ k, h.bond k = g.bond k := bond_of_states hf.states
  have hk : h.keeper? = g.keeper? := keeper?_of_standings hf.standings
  have still : r.place?.bind StopPlace.taken? = p.taken? → (∀ k, g.bond k = f.bond k) → g.standings = f.standings →
      Custody.Step f.custody none h.custody := by
    intro h₁ h₂ h₃
    have hsame : h.takes? = f.takes? := by
      rw [hp, h₁]
      exact Function.update_eq_self_iff.mpr ht.symm
    rw [custody_same ho (fun k => (hb k).trans (h₂ k)) (hk.trans (keeper?_of_standings h₃)) hsame]
    exact .still
  cases step with
  | unknown hs =>
    have hn : f.happeningOfStop id o .take = none := by simp [happeningOfStop, tracked?, hs]
    rw [hn]
    exact still rfl (fun _ => rfl) rfl
  | @nothing s hs hn =>
    have hn : f.happeningOfStop id o .take = none := by simp [happeningOfStop, tracked?, hs, hn]
    rw [hn]
    exact still rfl (bond_putState (s := o.note s) (bond_of_state? hs).symm) rfl
  | @taken s t hs htr =>
    have hbond := bond_of_state? hs
    have hgen : t.generation = (f.life o.key).generation := hl.generation (by rw [life_of_state? hs]; exact htr)
    have hn : f.happeningOfStop id o .take = some (.taken t.encoder o.key (f.life o.key).generation id) := by
      simp [happeningOfStop, tracked?, hs, htr, hgen]
    have hhas : f.custody.has (.source o.key) = some t.encoder := by
      show (f.bond o.key).1.map Tracked.encoder = _
      rw [hbond, htr]
      rfl
    rw [hn]
    refine leads (.taken hhas rfl hgen) ?_ ?_ ?_ ?_ hp
    · intro i
      dsimp only
      rw [ho, Function.update_of_ne (by simp)]
      rfl
    · intro k
      rw [hb]
      show ((f.putState o.key (o.note s).emptied).bond k).1.map _ = _
      rw [bond, life_putState]
      by_cases hk : k = o.key
      · simp [hk, SourceState.emptied, SourceState.life]
      · simp [hk, custody]
    · rw [hk]
      exact keeper?_modifyEncoder _ _ Encoder.keeper_askKill
    · intro k
      rw [hb]
      show ((f.putState o.key (o.note s).emptied).bond k).2 = (f.bond k).2
      rw [bond, life_putState]
      split
      · next hk => rw [hk, hbond]; rfl
      · rfl
  | seen => exact still rfl (fun _ => rfl) rfl
  | late => exact still rfl (fun _ => rfl) rfl
  | @released t => exact still rfl (bond_of_states (states_letGo f t)) (standings_letGo f t)
  | @dropped t => exact still rfl (bond_of_states (by split <;> rfl)) (by split <;> rfl)
  | @recorded t code =>
    refine leads (.finished ht fun a ha => ?_) ?_ ?_ ?_ ?_ hp
    · simp only [happeningOfStop] at ha
      split at ha
      · exact (Option.some.inj ha).symm
      · cases ha
    · intro i
      rw [ho]
      rfl
    · intro k
      rw [hb, bond_recordStop]
      rfl
    · exact hk.trans (keeper?_of_standings (standings_recordStop f o.key t code))
    · intro k
      rw [hb, bond_recordStop]
      rfl

theorem takes_stop? (o : StartOrder) (p : StartPlace) :
    ((o.stop? p).bind fun t => t.2.taken?.map fun x => (t.1.key, x.tracked)) =
      (p.stop?.bind StopPlace.taken?).map fun x => (o.key, x.tracked) := by
  unfold StartOrder.stop?
  cases p.stop? <;> rfl

theorem StartStep.custodyStep {id : Nat} {o : StartOrder} {p : StartPlace} {m : Move} {r : After StartPlace StartResult}
    (hr : f.Records) (hs : f.start? id = some (o, p)) (ht : f.stop? id = o.stop? p) (step : StartStep f id o p m g r)
    (hf : g.Framed h) (hp : f.Passed h id (r.place?.map fun p => (o, p)) (r.place?.bind o.stop?)) :
    Custody.Step f.custody (f.happeningOfStart id o p) h.custody := by
  have hb : ∀ k, h.bond k = g.bond k := bond_of_states hf.states
  have hk : h.keeper? = g.keeper? := keeper?_of_standings hf.standings
  have hcl := hr.untracked hs
  have hid := owned?_of_start? hs
  have htk : f.takes? id = (p.stop?.bind StopPlace.taken?).map fun x => (o.key, x.tracked) := by
    rw [takes?, ht]
    exact takes_stop? o p
  have hid' : h.owned? = Function.update f.owned? id (r.place?.bind StartPlace.encoder?) := by
    rw [hp.owned?]
    cases r.place? <;> rfl
  have htk' : h.takes? = Function.update f.takes? id
      (((r.place?.bind StartPlace.stop?).bind StopPlace.taken?).map fun x => (o.key, x.tracked)) := by
    rw [hp.takes?]
    cases r.place? with
    | none => rfl
    | some p => exact congrArg (Function.update f.takes? id) (takes_stop? o p)
  -- Most steps have no part in what the start and its stop answer for.
  have same : r.place?.bind StartPlace.encoder? = p.encoder? → h.owned? = f.owned? := fun he => by
    rw [hid', he]
    exact Function.update_eq_self_iff.mpr hid.symm
  have sameTaken : (r.place?.bind StartPlace.stop?).bind StopPlace.taken? = p.stop?.bind StopPlace.taken? →
      h.takes? = f.takes? := fun he => by
    rw [htk', he]
    exact Function.update_eq_self_iff.mpr htk.symm
  have still : r.place?.bind StartPlace.encoder? = p.encoder? →
      (r.place?.bind StartPlace.stop?).bind StopPlace.taken? = p.stop?.bind StopPlace.taken? →
      (∀ k, g.bond k = f.bond k) → g.standings = f.standings → Custody.Step f.custody none h.custody := by
    intro h₁ h₂ h₃ h₄
    rw [custody_same (same h₁) (fun k => (hb k).trans (h₃ k)) (hk.trans (keeper?_of_standings h₄)) (sameTaken h₂)]
    exact .still
  have kept : r.place?.bind StartPlace.encoder? = p.encoder? →
      (r.place?.bind StartPlace.stop?).bind StopPlace.taken? = p.stop?.bind StopPlace.taken? → f.Kept g →
      Custody.Step f.custody none h.custody :=
    fun h₁ h₂ hkept => still h₁ h₂ (bond_of_states hkept.states) hkept.standings
  cases step with
  | retiring step => exact step.custodyStep (hr o.key).sound hf (same rfl) htk htk'
  | retired step => exact step.custodyStep (hr o.key).sound hf (same rfl) htk htk'
  | entered => exact still rfl rfl (fun k => bond_of_life (life_ensure f _ k)) rfl
  | @found e s t hs' =>
    exact still rfl rfl (bond_putState (s := { s with manualStop := false }) (bond_of_state? hs').symm) rfl
  | declared =>
    refine still rfl rfl (bond_putState ?_) rfl
    rw [bond, show f.life o.key = _ from (life_stateOrNew f o.source.id).symm]
    rfl
  | @cleared c => exact kept rfl rfl (kept_clearOrphans f c.command)
  | @madeWay c => exact kept rfl rfl (kept_makeWay f c.command)
  | @noWay c =>
    have hkept := kept_makeWay f c.command
    exact still rfl rfl (bond_of_states hkept.states) hkept.standings
  | @opened c n => exact kept rfl rfl (kept_openHub f o c.command n)
  | @launched c b hplan =>
    have he := encoders_interrupt (hcl rfl) b
    have hn : f.happeningOfStart id o (.launch c) = some (.launched f.encoders.length id) := by
      simp [happeningOfStart, hplan]
    have hsame : ∀ k, h.bond k = f.bond k := fun k => (hb k).trans (bond_of_life (life_interrupt (hcl rfl) b k))
    have hnew : f.keeper? f.encoders.length = none := by simp [keeper?, encoder?]
    rw [hn]
    refine leads_start (.launched hid hnew) ?_ hsame ?_ (sameTaken rfl)
    · rw [hid', he]
      rfl
    · exact hk.trans (keeper?_append (e := .launched o.source.id c.command b) (by rw [← he]))
  | @failed c _ hplan =>
    have hn : f.happeningOfStart id o (.launch c) = none := by simp [happeningOfStart, hplan]
    rw [hn]
    exact still rfl rfl (fun _ => rfl) rfl
  | @abandoned c n ho =>
    have hkept := kept_stopPump f n
    have hn : f.happeningOfStart id o (.commit c n) = some (.abandoned n id) := by simp [happeningOfStart, ho]
    rw [hn]
    exact leads_start (.abandoned hid) hid' (fun k => (hb k).trans (bond_of_states hkept.states k))
      (hk.trans (keeper?_abandon f n)) (sameTaken rfl)
  | @committed c n ho =>
    have hn : f.happeningOfStart id o (.commit c n) = some (.committed n o.key ((f.life o.key).generation + 1) id) := by
      simp [happeningOfStart, ho, generation_stateOrNew]
    have hhas : f.custody.has (.source o.key) = none := by
      show (f.life o.key).tracked.map _ = none
      rw [hcl rfl]
      rfl
    have hbond := fun k => (hb k).trans (bond_track f o c.command n k)
    rw [hn]
    refine leads (.committed hid hhas) ?_ ?_ ?_ ?_ (sameTaken rfl)
    · intro i
      rw [hid']
      by_cases hi : i = id
      · subst hi
        simp [After.place?, StartPlace.encoder?]
      · simp [hi, custody]
    · intro k
      rw [hbond]
      by_cases hk : k = o.key
      · simp [hk]
      · simp [hk, custody, bond]
    · exact hk.trans (keeper?_track f o c.command n)
    · intro k
      rw [hbond]
      by_cases hk : k = o.key
      · simp [hk, custody]
      · simp [hk, custody, bond]
  | @restored c => exact still rfl rfl (bond_restoreLife f o c.prior) (standings_restoreLife f o c.prior)
  | refused => exact still rfl rfl (fun _ => rfl) rfl
  | queued => exact still rfl rfl (fun _ => rfl) rfl
  | admitted => exact still rfl rfl (fun _ => rfl) rfl
  | leftLine => exact still rfl rfl (fun _ => rfl) rfl
  | replacing => exact still rfl rfl (fun _ => rfl) rfl
  | missing => exact still rfl rfl (fun _ => rfl) rfl
  | left => exact still rfl rfl (fun _ => rfl) rfl
  | acquired => exact still rfl rfl (fun _ => rfl) rfl
  | waiting => exact still rfl rfl (fun _ => rfl) rfl
  | gaveUp => exact still rfl rfl (fun _ => rfl) rfl
  | granted => exact still rfl rfl (fun _ => rfl) rfl
  | withdrew => exact still rfl rfl (fun _ => rfl) rfl
  | late => exact still rfl rfl (fun _ => rfl) rfl

/-! ## Deeds -/

theorem Unmoved.owned? (h : f.Unmoved g) : g.owned? = f.owned? := by
  funext i
  rw [Fleet.owned?, h.start?]
  rfl

theorem Unmoved.takes? (h : f.Unmoved g) : g.takes? = f.takes? := by
  funext i
  rw [Fleet.takes?, h.stop?]
  rfl

theorem bond_prepare (f : Fleet) (r : Request) (k : String) : (f.prepare r).bond k = f.bond k :=
  bond_of_life (life_prepare f r k)

theorem keeper?_of_encoder? {n : Nat} {e : Encoder} (h : f.encoder? n = some e) : f.keeper? n = some e.keeper := by
  rw [keeper?, h]
  rfl

/-- What recording a crash does to the encoder that a source has. -/
theorem bond_recordCrash (f : Fleet) (key : String) (generation : Nat) (code : ExitCode) (k : String) :
    (f.recordCrash key generation code).bond k =
      if k = key ∧ (f.tracked? key).any (fun t => t.generation == generation) = true then (none, (f.bond key).2)
      else f.bond k := by
  cases ht : (f.tracked? key).any (fun t => t.generation == generation) with
  | false => rw [recordCrash_eq_self ht, if_neg fun h => Bool.false_ne_true h.2]
  | true =>
    rw [bond, (life_recordCrash_of_tracked ht code).1]
    by_cases hk : k = key
    · rw [if_pos hk, if_pos ⟨hk, rfl⟩]
      rfl
    · rw [if_neg hk, if_neg fun h => hk h.1]
      rfl

theorem keeper?_recordCrash (f : Fleet) (key : String) (generation : Nat) (code : ExitCode) :
    (f.recordCrash key generation code).keeper? = f.keeper? := by
  funext n
  rw [keeper?, encoder?, encoders_recordCrash]
  rfl

/-- The end of an encoder that nobody has killed is recorded as a crash if the source tracks it, or else is not. -/
theorem custodyStep_noticed {n generation : Nat} {key : String} {asked : Bool} (code : ExitCode) (hr : f.Records)
    (hk : f.keeper? n = some (.watcher key generation asked false)) (hu : f.Unmoved g)
    (hb : ∀ k, g.bond k =
      if k = key ∧ (f.tracked? key).any (fun t => t.generation == generation) = true then (none, (f.bond key).2)
      else f.bond k)
    (hg : g.keeper? = Function.update f.keeper? n (some (.gone code))) :
    Custody.Step f.custody (f.happeningOfEnd n) g.custody := by
  have hs := (hr key).sound
  cases ht : (f.tracked? key).any (fun t => t.generation == generation) with
  | true =>
    have hn : f.happeningOfEnd n = some (.crashed n key generation) := by simp [happeningOfEnd, hk, ht]
    simp only [ht, and_true] at hb
    obtain ⟨t, htr, hgt⟩ := (Option.any_eq_true _ _).mp ht
    rw [tracked?_eq] at htr
    have hgen : generation = (f.life key).generation := (beq_iff_eq.mp hgt).symm.trans (hs.generation htr)
    subst hgen
    have hhas : f.custody.has (.source key) = some t.encoder := by
      show (f.life key).tracked.map Tracked.encoder = _
      rw [htr]
      rfl
    rw [hn]
    refine leads (.crashed hk hhas) ?_ ?_ hg ?_ hu.takes?
    · intro i
      rw [hu.owned?]
      simp [custody]
    · intro k
      rw [hb]
      by_cases hkk : k = key
      · simp [hkk]
      · simp [hkk, custody, bond]
    · intro k
      rw [hb]
      by_cases hkk : k = key
      · simp [hkk, custody, bond]
      · simp [hkk, custody, bond]
  | false =>
    have hn : f.happeningOfEnd n = none := by simp [happeningOfEnd, hk, ht]
    simp only [ht, Bool.false_eq_true, and_false, if_false] at hb
    rw [hn]
    refine leads (.reaped hk fun _ => ?_) ?_ ?_ hg ?_ hu.takes?
    · show (f.life key).tracked.map Tracked.encoder = none ∨ _
      rw [tracked?_eq] at ht
      cases htr : (f.life key).tracked with
      | none => exact .inl rfl
      | some t =>
        refine .inr fun hgen => ?_
        rw [htr, hgen] at ht
        simp [hs.generation htr, custody] at ht
    · intro i
      rw [hu.owned?]
      rfl
    · intro k
      rw [hb]
      rfl
    · intro k
      rw [hb]
      rfl

theorem Worked.custodyStep {d : Deed} (hr : f.Records) (h : Worked f d g) :
    Custody.Step f.custody (f.happening? d) g.custody := by
  have still : (∀ k, g.bond k = f.bond k) → g.keeper? = f.keeper? → g.owned? = f.owned? → g.takes? = f.takes? →
      Custody.Step f.custody none g.custody := by
    intro h₁ h₂ h₃ h₄
    rw [custody_same h₃ h₁ h₂ h₄]
    exact .still
  have keeps : ∀ {n : Nat} {v : Keeper} {change : Encoder → Encoder}, (∀ e, (change e).keeper = v) →
      (f.keeper? n).isSome = true → (f.modifyEncoder n change).keeper? = Function.update f.keeper? n (some v) := by
    intro n v change hv hsome
    rw [keeper?_modifyEncoder (c := fun _ => v) f n hv]
    obtain ⟨k, hk⟩ := Option.isSome_iff_exists.mp hsome
    rw [hk]
    rfl
  cases h with
  | @start id o p m _ _ _ hs ht step hf hp =>
    have hn : f.happening? (.event (.job id m)) = f.happeningOfStart id o p := by simp [happening?, hs]
    rw [hn]
    exact step.custodyStep hr hs ht hf hp
  | @stop id o p m _ _ r hs ht _ step hf hp =>
    have hn : f.happening? (.event (.job id m)) = f.happeningOfStop id o p := by simp [happening?, hs, ht]
    rw [hn]
    have ho : g.owned? = f.owned? := by
      rw [hp.owned?]
      exact Function.update_eq_self_iff.mpr (by rw [Fleet.owned?, hs])
    have htk : f.takes? id = p.taken?.map fun t => (o.key, t.tracked) := by
      rw [Fleet.takes?, ht]
      rfl
    refine step.custodyStep (hr o.key).sound hf ho htk ?_
    rw [hp.takes?]
    cases r.place? <;> rfl
  | @begun id o m _ hs ht hf hp =>
    have hn : f.happening? (.event (.job id m)) = none := by simp [happening?, hs, ht]
    rw [hn]
    exact still (bond_of_states hf.states) (keeper?_of_standings hf.standings) (hp.owned?_same hs rfl)
      (hp.takes?_same ht rfl)
  | @unmarked id o m _ b hs ht _ _ _ _ hf hp =>
    have hn : f.happening? (.event (.job id m)) = none := by simp [happening?, hs, ht]
    rw [hn]
    refine still (fun k => ?_) (keeper?_of_standings hf.standings) (hp.owned?_same hs rfl) (hp.takes?_same ht rfl)
    exact (bond_of_states hf.states k).trans (bond_of_life (life_setManualStop f _ _ k))
  | @turned id o m _ hs ht _ hf hp =>
    have hn : f.happening? (.event (.job id m)) = none := by simp [happening?, hs, ht]
    rw [hn]
    exact still (bond_of_states hf.states) (keeper?_of_standings hf.standings) (hp.owned?_same hs rfl)
      (hp.takes?_same ht rfl)
  | @struck n generation key e he hk =>
    have hkn : f.keeper? n = some (.watcher key generation true false) := by rw [keeper?_of_encoder? he, hk]
    refine leads (.struck hkn) (fun _ => rfl) (fun _ => rfl) (keeps (fun _ => rfl) ?_) (fun _ => rfl) rfl
    rw [hkn]
    rfl
  | @reaped n generation key asked e code he hk _ =>
    have hkn : f.keeper? n = some (.watcher key generation asked true) := by rw [keeper?_of_encoder? he, hk]
    have hn : f.happening? (.event (.notice n)) = none := by simp [happening?, happeningOfEnd, hkn]
    rw [hn]
    refine leads (.reaped hkn nofun) (fun _ => rfl) (fun _ => rfl) (keeps (v := .gone code) (fun _ => rfl) ?_)
      (fun _ => rfl) rfl
    rw [hkn]
    rfl
  | @noticed n generation key asked e code he hk _ =>
    have hkn : f.keeper? n = some (.watcher key generation asked false) := by rw [keeper?_of_encoder? he, hk]
    refine custodyStep_noticed code hr hkn (agenda_noticed f key generation n code).unmoved
      (fun k => bond_recordCrash f key generation code k) ?_
    rw [keeper?_modifyEncoder (c := fun _ => .gone code) _ n fun _ => rfl, keeper?_recordCrash, hkn]
    rfl
  | @submitted r _ hf hu =>
    refine still (fun k => (bond_of_states hf.states k).trans (bond_prepare f r k)) ?_ hu.owned? hu.takes?
    exact (keeper?_of_standings hf.standings).trans (keeper?_of_standings (standings_prepare f r))
  | noted => exact still (fun k => bond_of_life (life_ensure f _ k)) rfl rfl rfl
  | marked => exact still (fun k => bond_of_life (life_setManualStop f _ _ k)) rfl rfl rfl
  | @exited n code =>
    refine still (fun _ => rfl) ?_ rfl rfl
    refine (keeper?_modifyEncoder (c := id) f n fun e => ?_).trans ?_
    · exact congrArg Standing.keeper (e.standing_finish code)
    · rw [Option.map_id]
      exact Function.update_eq_self n f.keeper?
  | idle hd hs _ he hu hn =>
    have hnone : f.happening? d = none := by
      unfold happening?
      split
      · next id m => rw [(hd id m rfl).1, (hd id m rfl).2]; rfl
      · next n => exact absurd rfl (hn n)
      · rfl
    rw [hnone]
    exact still (bond_of_states hs) (keeper?_of_standings he) hu.owned? hu.takes?

end Fleet

end EncoderFleet
