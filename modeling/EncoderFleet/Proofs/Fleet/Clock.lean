import EncoderFleet.Proofs.Fleet.Exclusion

/-!
# What time leaves as it is

The clock goes on where time passes, and stands still in every other deed (`perform_now`). What is settled stays so
whatever else happens: the settings, and the ends of encoders that were noticed. Of two fleets that deeds lead from one
to the other, the second is `Onward` of the first.
-/

namespace EncoderFleet

/-- How much time passes in a deed. -/
def Deed.elapsed : Deed → Nat
  | .event (.pass ms) => ms
  | _ => 0

namespace Fleet

variable {f g h : Fleet}

/-! ## The clock during an operation -/

@[simp] theorem now_stopPump (f : Fleet) (n : Nat) : (f.stopPump n).now = f.now := by
  unfold stopPump
  split <;> rfl

@[simp] theorem now_takeEncoder (f : Fleet) (o : StopOrder) : (f.takeEncoder o).1.now = f.now := by
  have h := takeEncoder_cases f o
  generalize (f.takeEncoder o).1 = g at h ⊢
  generalize (f.takeEncoder o).2 = r at h
  cases h <;> rfl

@[simp] theorem now_letGo (f : Fleet) (t : Taken) : (f.letGo t).now = f.now := by
  unfold letGo
  dsimp only
  split
  · exact now_stopPump f _
  · exact now_stopPump f _

@[simp] theorem now_recordStop (f : Fleet) (key : String) (t : Taken) (code : ExitCode) :
    (f.recordStop key t code).now = f.now := by
  unfold recordStop
  split <;> rfl

@[simp] theorem now_clearOrphans (f : Fleet) (c : Command) : (f.clearOrphans c).now = f.now := by
  unfold clearOrphans
  split
  · rfl
  · split <;> rfl

@[simp] theorem now_makeWay (f : Fleet) (c : Command) : (f.makeWay c).1.now = f.now := by
  unfold makeWay
  split <;> rfl

@[simp] theorem now_interrupt (f : Fleet) (o : StartOrder) (b : Behaviour) : (f.interrupt o b).now = f.now := by
  unfold interrupt
  split
  · rfl
  · next manual _ => cases manual <;> exact now_takeEncoder _ _

@[simp] theorem now_openHub (f : Fleet) (o : StartOrder) (c : Command) (n : Nat) : (f.openHub o c n).now = f.now := by
  unfold openHub
  split
  · dsimp only
    split <;> rfl
  · rfl

@[simp] theorem now_restoreLife (f : Fleet) (o : StartOrder) (prior : Lifecycle) :
    (f.restoreLife o prior).now = f.now := by
  unfold restoreLife
  split
  · rfl
  · split <;> rfl

@[simp] theorem now_recordCrash (f : Fleet) (key : String) (generation : Nat) (code : ExitCode) :
    (f.recordCrash key generation code).now = f.now := by
  unfold recordCrash
  split
  · rfl
  · split
    · split <;> rfl
    · rfl

@[simp] theorem now_lend (f : Fleet) (holder source : String) : (f.lend holder source).now = f.now := by
  unfold lend
  dsimp only
  split <;> rfl

@[simp] theorem now_putJob (f : Fleet) (id : Nat) (j : Job) : (f.putJob id j).now = f.now := by
  unfold putJob
  split
  · split <;> rfl
  · rfl

/-! ## The clock during a step -/

theorem StopStep.now {o : StopOrder} {p : StopPlace} {m : Move} {r : After StopPlace (Option String)}
    (step : StopStep f o p m g r) : g.now = f.now := by
  cases step with
  | released => exact now_letGo f _
  | dropped => split <;> rfl
  | recorded => exact now_recordStop f _ _ _
  | _ => rfl

theorem StartStep.now {id : Nat} {o : StartOrder} {p : StartPlace} {m : Move} {r : After StartPlace StartResult}
    (step : StartStep f id o p m g r) : g.now = f.now := by
  cases step with
  | retiring step => exact step.now
  | retired step => exact step.now
  | cleared => exact now_clearOrphans f _
  | madeWay => exact now_makeWay f _
  | @noWay c => exact now_makeWay f c.command
  | launched => exact now_interrupt f o _
  | opened => exact now_openHub f o _ _
  | @abandoned c n => exact now_stopPump f n
  | restored => exact now_restoreLife f o _
  | _ => rfl

theorem now_stepChange {p : ChangePlace} {m : Move} {j : Job} (h : f.stepChange p m = some (g, j)) :
    g.now = f.now := by
  unfold stepChange at h
  split at h
  · next c =>
    cases c with
    | activate name =>
      simp only [change] at h
      cases hc : f.catalog.activate name with
      | ok r => rw [hc] at h; cases h; rfl
      | error e => rw [hc] at h; cases h; rfl
    | _ => cases h; rfl
  · cases h; rfl
  · cases h; rfl
  · cases h

theorem now_stepPermit {id : Nat} {holder source : String} {p : PermitPlace} {m : Move} {j : Job}
    (h : f.stepPermit id holder source p m = some (g, j)) : g.now = f.now := by
  cases jobStep_of_stepPermit h with
  | @lent _ _ _ gate => exact now_lend { f with gate := gate } holder source
  | @granted _ _ _ gate => exact now_lend { f with gate := gate } holder source
  | _ => rfl

theorem now_stepJob {id : Nat} {m : Move} (hd : f.stepJob id m = some g) : g.now = f.now := by
  unfold stepJob at hd
  obtain ⟨⟨g', j'⟩, hn, rfl⟩ := Option.map_eq_some_iff.mp hd
  rw [now_putJob]
  split at hn
  · cases hn
  · cases hn
  · have step : JobStep f id _ m g' j' := jobStep_of_stepBatch hn
    cases step with
    | start _ step => exact step.now
    | _ => rfl
  · have step : JobStep f id _ m g' j' := jobStep_of_stepSweep hn
    cases step with
    | stop _ step => exact step.now
    | _ => rfl
  · exact now_stepChange hn
  · exact now_stepPermit hn

/-! ## Deeds -/

theorem now_pumpOnce {n : Nat} (hd : f.pumpOnce n = some g) : g.now = f.now := by
  unfold pumpOnce at hd
  split at hd
  · cases hd
  · split at hd
    · cases hd
    · split at hd
      · split at hd
        · cases hd
          exact now_stopPump f n
        · cases hd
      · cases hd
        rfl

/-- The clock goes on where time passes, and nowhere else. -/
theorem perform_now {d : Deed} (hd : f.perform? d = some g) : g.now = f.now + d.elapsed := by
  cases d with
  | event e =>
    cases e with
    | job id m => exact now_stepJob hd
    | strike n =>
      have hd : f.strike n = some g := hd
      unfold strike at hd
      split at hd
      · cases hd
        rfl
      · cases hd
    | notice n =>
      cases performed_of_notice hd with
      | reaped => rfl
      | noticed => exact now_recordCrash f _ _ _
      | quiet hq => cases hq
    | pump n => exact now_pumpOnce hd
    | pass ms => cases hd; rfl
  | submit r =>
    cases hd
    unfold submit prepare
    dsimp only
    split <;> rfl
  | collect id =>
    obtain ⟨r, hr, rfl⟩ := Option.map_eq_some_iff.mp hd
    obtain ⟨a, -, rfl⟩ := Option.map_eq_some_iff.mp hr
    rfl
  | forget id =>
    cases hd
    unfold forget
    split <;> rfl
  | borrow holder source =>
    simp only [perform?, tryLend] at hd
    split at hd
    · next gate _ =>
      cases hd
      exact now_lend { f with gate := gate } holder source
    · cases hd
  | giveBack holder =>
    cases hd
    unfold takeBack
    split <;> rfl
  | replan plan =>
    cases hd
    unfold replan
    split <;> rfl
  | subscribe id =>
    simp only [perform?, subscribe] at hd
    cases hs : f.sources.get? id with
    | none => rw [hs] at hd; cases hd
    | some s => rw [hs] at hd; cases hd; rfl
  | _ => cases hd; rfl

/-! ## What comes later -/

/-- The clock has not gone back, the settings are the same, and the ends of encoders that were noticed are known. -/
structure Onward (f g : Fleet) : Prop where
  now : f.now ≤ g.now
  settings : g.settings = f.settings
  gone {n : Nat} {code : ExitCode} (h : f.keeper? n = some (.gone code)) : g.keeper? n = some (.gone code)

theorem Onward.refl (f : Fleet) : f.Onward f := ⟨Nat.le_refl _, rfl, fun h => h⟩

theorem Onward.trans (hg : f.Onward g) (hh : g.Onward h) : f.Onward h :=
  ⟨Nat.le_trans hg.now hh.now, hh.settings.trans hg.settings, fun hk => hh.gone (hg.gone hk)⟩

theorem Reachable.onward {d : Deed} (hr : f.Reachable) (hd : f.perform? d = some g) : f.Onward g where
  now := by rw [perform_now hd]; exact Nat.le_add_right _ _
  settings := (performed hd).settings
  gone hk := hr.settled_step hd hk rfl

end Fleet

end EncoderFleet
