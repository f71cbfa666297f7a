import EncoderFleet.Proofs.Fleet.Changes
import EncoderFleet.Proofs.Fleet.Indifference
import EncoderFleet.Proofs.Setup.Reloading

/-!
# Whom a deed concerns

A deed writes in what is known about one source at most, and what is known about a source goes on to name that source
(`Performed.confined`, `Reachable.named`). Configured sources have different keys (`Reachable.distinct`).

A fleet *spares* a source when the same is known about it as before, the same hub is registered for it, and no encoder
was launched for it. A step of a start spares all sources but its own (`StartStep.spares`) and touches no hub that there
is; what happens aside spares all sources (`spares_aside`).
-/

namespace EncoderFleet

namespace Encoder

theorem source_finish (e : Encoder) (code : ExitCode) : (e.finish code).source = e.source := by
  unfold finish
  split <;> rfl

theorem source_kill (e : Encoder) : e.kill.source = e.source := by
  unfold kill
  dsimp only
  split
  · exact source_finish _ _
  · rfl

theorem source_askKill (e : Encoder) : e.askKill.source = e.source := by
  unfold askKill
  split <;> rfl

end Encoder

/-- What a start has taken away, if anything, it has taken from its own source. -/
def StartOrder.Names (o : StartOrder) (p : StartPlace) : Prop :=
  ∀ t, p.stop?.bind StopPlace.taken? = some t → Text.fold t.source = o.key

namespace Fleet

variable {f g h : Fleet} {d : Deed} {key : String} {id : Nat}

/-! ## What is known about sources -/

/-- What is known about a source names it. -/
def Named (f : Fleet) (key : String) : Prop := ∀ s, f.state? key = some s → Text.fold s.source = key

/-- Whatever has changed in what is known about sources concerns one of them, and names it as before. -/
structure Confined (key : String) (f g : Fleet) : Prop where
  others {k : String} (hk : k ≠ key) : g.state? k = f.state? k
  named (h : f.Named key) : g.Named key

theorem Confined.trans (hg : Confined key f g) (hh : Confined key g h) : Confined key f h :=
  ⟨fun hk => (hh.others hk).trans (hg.others hk), fun hn => hh.named (hg.named hn)⟩

theorem confined_of_states (hs : g.states = f.states) : Confined key f g := by
  have hstate : g.state? = f.state? := funext fun k => by rw [state?, state?, hs]
  exact ⟨fun _ => by rw [hstate], fun hn => by rw [Named, hstate]; exact hn⟩

theorem confined_putState {s : SourceState} (hs : f.Named key → Text.fold s.source = key) :
    Confined key f (f.putState key s) where
  others hk := by rw [state?_putState, if_neg hk]
  named hn s' hs' := by
    rw [state?_putState, if_pos rfl] at hs'
    cases hs'
    exact hs hn

/-- Keeping something else about a source that is known. -/
theorem confined_update {s s' : SourceState} (hs : f.state? key = some s) (hs' : s'.source = s.source) :
    Confined key f (f.putState key s') :=
  confined_putState fun hn => by rw [hs']; exact hn s hs

theorem fold_source_stateOrNew {id : String} (hn : f.Named (Text.fold id)) :
    Text.fold (f.stateOrNew id).source = Text.fold id := by
  unfold stateOrNew
  cases hs : f.state? (Text.fold id) with
  | none => rfl
  | some s => exact hn s hs

theorem confined_ensure (f : Fleet) (id : String) : Confined (Text.fold id) f (f.ensure id) :=
  confined_putState fold_source_stateOrNew

theorem confined_setManualStop (f : Fleet) (id : String) (value : Bool) :
    Confined (Text.fold id) f (f.setManualStop id value) :=
  confined_putState fold_source_stateOrNew

theorem confined_recordStop (f : Fleet) (key : String) (t : Taken) (code : ExitCode) :
    Confined key f (f.recordStop key t code) := by
  unfold recordStop
  split
  · exact confined_of_states rfl
  · next s hs =>
    refine confined_update hs ?_
    split <;> rfl

theorem confined_recordCrash (f : Fleet) (key : String) (generation : Nat) (code : ExitCode) :
    Confined key f (f.recordCrash key generation code) := by
  unfold recordCrash
  split
  · exact confined_of_states rfl
  · next s hs =>
    split
    · refine (confined_of_states ?_).trans (confined_update (s := s) ?_ rfl)
      · split <;> rfl
      · split <;> exact hs
    · exact confined_of_states rfl

theorem confined_restoreLife (f : Fleet) (o : StartOrder) (prior : Lifecycle) :
    Confined o.key f (f.restoreLife o prior) := by
  unfold restoreLife
  split
  · exact confined_of_states rfl
  · next s hs =>
    split
    · exact confined_update hs rfl
    · exact confined_of_states rfl

theorem StopStep.confined {o : StopOrder} {p : StopPlace} {m : Move} {r : After StopPlace (Option String)}
    (step : StopStep f o p m g r) : Confined o.key f g := by
  cases step with
  | nothing hs => exact confined_update hs rfl
  | @taken s t hs =>
    have hput : Confined o.key f (f.putState o.key (o.note s).emptied) := confined_update hs rfl
    exact hput.trans (confined_of_states rfl)
  | released => exact confined_of_states (states_letGo ..)
  | dropped => exact confined_of_states (by split <;> rfl)
  | recorded => exact confined_recordStop ..
  | _ => exact confined_of_states rfl

theorem confined_interrupt (f : Fleet) (o : StartOrder) (b : Behaviour) : Confined o.key f (f.interrupt o b) := by
  unfold interrupt
  split
  · exact confined_of_states rfl
  · next manual _ =>
    have hnoted : Confined o.key f (if manual then f.ensure o.source.id else f) := by
      cases manual with
      | true => exact confined_ensure f o.source.id
      | false => exact confined_of_states rfl
    exact hnoted.trans (takeEncoder_cases _ ⟨o.key, manual, true⟩).confined

theorem confined_track (f : Fleet) (o : StartOrder) (c : Command) (n : Nat) : Confined o.key f (f.track o c n).1 where
  others {k} hk := (state?_putState f o.key _ k).trans (if_neg hk)
  named _ s hs := by
    have hput := (state?_putState f o.key _ o.key).symm.trans hs
    rw [if_pos rfl] at hput
    cases hput
    rfl

theorem StartStep.confined {o : StartOrder} {p : StartPlace} {m : Move} {r : After StartPlace StartResult}
    (step : StartStep f id o p m g r) : Confined o.key f g := by
  cases step with
  | entered => exact confined_ensure f o.source.id
  | found hs => exact confined_update hs rfl
  | retiring step => exact step.confined
  | retired step => exact step.confined
  | declared => exact confined_putState fold_source_stateOrNew
  | cleared => exact confined_of_states (kept_clearOrphans ..).states
  | madeWay => exact confined_of_states (kept_makeWay ..).states
  | @noWay c => exact confined_of_states (kept_makeWay f c.command).states
  | @launched c b => exact (confined_interrupt f o b).trans (confined_of_states rfl)
  | opened => exact confined_of_states (kept_openHub ..).states
  | @abandoned c n => exact confined_of_states (kept_stopPump f n).states
  | committed => exact confined_track ..
  | restored => exact confined_restoreLife ..
  | _ => exact confined_of_states rfl

theorem JobStep.confined {j j' : Job} {m : Move} (step : JobStep f id j m g j') : ∃ key, Confined key f g := by
  cases step with
  | start _ step => exact ⟨_, step.confined⟩
  | unmarked => exact ⟨_, confined_setManualStop ..⟩
  | stop _ step => exact ⟨_, step.confined⟩
  | changing hk => exact ⟨"", confined_of_states hk.states⟩
  | changed hk => exact ⟨"", confined_of_states hk.states⟩
  | @lent holder source _ gate =>
    exact ⟨"", confined_of_states (by unfold lend; dsimp only; split <;> rfl)⟩
  | @granted holder source _ gate =>
    exact ⟨"", confined_of_states (by unfold lend; dsimp only; split <;> rfl)⟩
  | _ => exact ⟨"", confined_of_states rfl⟩

/-- A deed writes in what is known about one source at most. -/
theorem Performed.confined (hd : Performed f d g) : ∃ key, Confined key f g := by
  cases hd with
  | job _ step =>
    obtain ⟨key, hc⟩ := step.confined
    exact ⟨key, hc.trans (confined_of_states (framed_putJob ..).states)⟩
  | @noticed _ generation key _ _ code =>
    exact ⟨key, (confined_recordCrash f key generation code).trans (confined_of_states rfl)⟩
  | @submitted r =>
    have hr : ∃ key, Confined key f (f.prepare r) := by
      unfold prepare
      split
      · exact ⟨_, confined_ensure ..⟩
      · exact ⟨"", confined_of_states rfl⟩
    obtain ⟨key, hc⟩ := hr
    exact ⟨key, hc.trans (confined_of_states (framed_submit f r).states)⟩
  | noted => exact ⟨_, confined_ensure ..⟩
  | marked => exact ⟨_, confined_setManualStop ..⟩
  | borrowed => exact ⟨"", confined_of_states (by unfold lend; dsimp only; split <;> rfl)⟩
  | gaveBack => exact ⟨"", confined_of_states (by unfold takeBack; split <;> rfl)⟩
  | quiet _ hq => exact ⟨"", confined_of_states hq.states⟩
  | _ => exact ⟨"", confined_of_states rfl⟩

/-- What is known about sources names them. -/
theorem Reachable.named (hr : f.Reachable) (key : String) : f.Named key := by
  induction hr generalizing key with
  | fresh =>
    intro s hs
    have hnone : (none : Option SourceState) = some s := hs
    cases hnone
  | perform _ hd ih =>
    obtain ⟨k, hc⟩ := (performed hd).confined
    by_cases hk : key = k
    · exact hk ▸ hc.named (ih k)
    · intro s hs
      rw [hc.others hk] at hs
      exact ih key s hs

/-! ## The configured sources -/

theorem sources_putJob (f : Fleet) (id : Nat) (j : Job) : (f.putJob id j).sources = f.sources :=
  (sameConfiguration_putJob f id j).sources

theorem sources_lend (f : Fleet) (holder source : String) : (f.lend holder source).sources = f.sources := by
  unfold lend
  dsimp only
  split <;> rfl

theorem unchanged_of_stepBatch {b : Batch} {m : Move} {j : Job} (hs : f.stepBatch id b m = some (g, j)) :
    g.orphaned = f.orphaned ∧ g.sources = f.sources := by
  unfold stepBatch at hs
  split at hs
  · obtain ⟨r, hr, hs⟩ := Option.map_eq_some_iff.mp hs
    cases hs
    exact unchanged_of_stepStart hr
  · split at hs
    · cases hs
      exact ⟨rfl, rfl⟩
    · split at hs
      · cases hs
        exact ⟨rfl, rfl⟩
      · cases hs
        exact ⟨rfl, rfl⟩
      · split at hs <;> cases hs <;> exact ⟨rfl, rfl⟩
  · cases hs

theorem sources_stepSweep {s : Sweep} {m : Move} {j : Job} (hs : f.stepSweep s m = some (g, j)) :
    g.sources = f.sources := by
  unfold stepSweep at hs
  split at hs
  · obtain ⟨r, hr, hs⟩ := Option.map_eq_some_iff.mp hs
    cases hs
    exact sources_of_stepStop hr
  · split at hs <;> cases hs <;> rfl
  · cases hs

theorem sources_stepPermit {holder source : String} {p : PermitPlace} {m : Move} {j : Job}
    (hs : f.stepPermit id holder source p m = some (g, j)) : g.sources = f.sources := by
  cases jobStep_of_stepPermit hs with
  | lent => exact sources_lend ..
  | granted => exact sources_lend ..
  | _ => rfl

/-- Only a change of the configuration changes the configured sources. -/
theorem perform_sources (hd : f.perform? d = some g) : g.sources = f.sources ∨
    ∃ c h active, f.change c = .ok (h, active) ∧ g.sources = h.sources := by
  by_cases hi : d.isApart = true
  · exact .inl (unchanged_of_isApart hi hd).2.2
  · cases d with
    | event e =>
      cases e with
      | job id m =>
        obtain ⟨⟨g', j'⟩, hn, rfl⟩ := Option.map_eq_some_iff.mp (show f.stepJob id m = some g from hd)
        dsimp only
        rw [sources_putJob]
        split at hn
        · cases hn
        · cases hn
        · exact .inl (unchanged_of_stepBatch hn).2
        · exact .inl (sources_stepSweep hn)
        · cases (changeStep_of_stepChange hn).2 with
          | changed hc => exact .inr ⟨_, _, _, hc, rfl⟩
          | _ => exact .inl rfl
        · exact .inl (sources_stepPermit hn)
      | _ => exact absurd rfl hi
    | submit r =>
      cases hd
      refine .inl (show (f.prepare r).sources = f.sources from ?_)
      unfold prepare
      split <;> rfl
    | collect id =>
      obtain ⟨r, hr, rfl⟩ := Option.map_eq_some_iff.mp hd
      obtain ⟨a, -, rfl⟩ := Option.map_eq_some_iff.mp hr
      exact .inl rfl
    | forget id =>
      cases hd
      unfold forget
      split <;> exact .inl rfl
    | subscribe id =>
      obtain ⟨r, hr, rfl⟩ := Option.map_eq_some_iff.mp hd
      simp only [subscribe] at hr
      split at hr
      · cases hr
      · cases hr
        exact .inl rfl
    | _ => exact absurd rfl hi

/-- No two configured sources have one key. -/
theorem Reachable.distinct (hr : f.Reachable) : Sources.Distinct f.sources.toList := by
  induction hr with
  | fresh => exact Sources.distinct_ofList _
  | perform _ hd ih =>
    rcases perform_sources hd with hs | ⟨c, k, active, hc, hs⟩
    · rw [hs]
      exact ih
    · rw [hs]
      rcases change_cases hc with ⟨s, -, rfl⟩ | ⟨ss, -, rfl⟩ | ⟨name, catalog, -, -, rfl⟩
      · exact Sources.distinct_upsert ih s
      · exact Sources.distinct_ofList ss
      · exact ih

/-! ## Whom encoders were launched for -/

/-- The sources that encoders were launched for, one by one. -/
def launched (f : Fleet) : List String := f.encoders.map Encoder.source

/-- How many encoders were ever launched for a source. -/
def launches (f : Fleet) (key : String) : Nat := f.launched.countP fun name => Text.fold name == key

theorem SameStreams.launched (hs : f.SameStreams g) : g.launched = f.launched := by
  rw [Fleet.launched, hs.encoders]
  rfl

theorem launched_modifyEncoder (f : Fleet) (n : Nat) {change : Encoder → Encoder}
    (hc : ∀ e, (change e).source = e.source) : (f.modifyEncoder n change).launched = f.launched := by
  show (f.encoders.modify n change).map Encoder.source = _
  rw [map_modify (d := id) hc, List.modify_id]
  rfl

theorem launched_stopPump (f : Fleet) (n : Nat) : (f.stopPump n).launched = f.launched := by
  unfold stopPump
  split
  · rfl
  · exact launched_modifyEncoder f n fun _ => rfl

theorem launched_letGo (f : Fleet) (t : Taken) : (f.letGo t).launched = f.launched := by
  unfold letGo
  dsimp only
  split <;> exact launched_stopPump f _

theorem launched_openHub (f : Fleet) (o : StartOrder) (c : Command) (n : Nat) :
    (f.openHub o c n).launched = f.launched := by
  unfold openHub
  split
  · dsimp only
    split
    · exact launched_modifyEncoder f n fun _ => rfl
    · rfl
  · exact launched_modifyEncoder f n fun _ => rfl

theorem launched_abandon (f : Fleet) (n : Nat) : (f.abandon n).launched = f.launched := by
  refine Eq.trans ?_ (launched_stopPump f n)
  exact launched_modifyEncoder _ _ fun e => e.source_kill

theorem StopStep.launched {o : StopOrder} {p : StopPlace} {m : Move} {r : After StopPlace (Option String)}
    (step : StopStep f o p m g r) : g.launched = f.launched := by
  cases step with
  | taken => exact launched_modifyEncoder _ _ Encoder.source_askKill
  | released => exact launched_letGo ..
  | dropped => split <;> rfl
  | recorded => exact (sameStreams_recordStop ..).launched
  | _ => rfl

theorem launched_interrupt (f : Fleet) (o : StartOrder) (b : Behaviour) : (f.interrupt o b).launched = f.launched := by
  unfold interrupt
  split
  · rfl
  · next manual _ =>
    refine (takeEncoder_cases _ ⟨o.key, manual, true⟩).launched.trans ?_
    cases manual <;> rfl

/-- A start launches encoders for its own source. -/
theorem StartStep.launches {o : StartOrder} {p : StartPlace} {m : Move} {r : After StartPlace StartResult}
    (step : StartStep f id o p m g r) (hk : key ≠ o.key) : g.launches key = f.launches key := by
  have same : g.launched = f.launched → g.launches key = f.launches key := fun hs => by
    rw [Fleet.launches, Fleet.launches, hs]
  cases step with
  | retiring step => exact same step.launched
  | retired step => exact same step.launched
  | cleared => exact same (sameStreams_clearOrphans ..).launched
  | madeWay => exact same (sameStreams_makeWay ..).launched
  | @noWay c => exact same (sameStreams_makeWay f c.command).launched
  | @launched c b _ =>
    have hlaunched : Fleet.launched
        { f.interrupt o b with encoders := (f.interrupt o b).encoders ++ [.launched o.source.id c.command b] } =
          f.launched ++ [o.source.id] := by
      rw [← launched_interrupt f o b]
      exact List.map_append
    rw [Fleet.launches, hlaunched, List.countP_append]
    have hnot : (Text.fold o.source.id == key) = false := beq_eq_false_iff_ne.mpr (Ne.symm hk)
    simp [Fleet.launches, hnot]
  | opened => exact same (launched_openHub ..)
  | @abandoned c n => exact same (launched_abandon f n)
  | committed => exact same (launched_modifyEncoder _ _ fun _ => rfl)
  | restored => exact same (sameStreams_restoreLife ..).launched
  | _ => exact same rfl

theorem launched_pumpOnce {n : Nat} (hd : f.pumpOnce n = some g) : g.launched = f.launched := by
  unfold pumpOnce at hd
  split at hd
  · cases hd
  · split at hd
    · cases hd
    · split at hd
      · split at hd
        · cases hd
          exact launched_stopPump f n
        · cases hd
      · cases hd
        exact launched_modifyEncoder f n fun _ => rfl

/-- Nothing but a step of a job launches an encoder. -/
theorem launched_aside (hd : f.perform? d = some g) (hn : ∀ i m, d ≠ .event (.job i m)) :
    g.launched = f.launched := by
  by_cases hc : d.isClerical = true
  · exact (perform_sameStreams hd hc).launched
  · cases d with
    | event e =>
      cases e with
      | job i m => exact absurd rfl (hn i m)
      | strike n =>
        cases performed hd with
        | struck => exact launched_modifyEncoder f n fun e => e.source_kill
        | quiet hq => cases hq
      | notice n =>
        cases performed hd with
        | reaped => exact launched_modifyEncoder f n fun _ => rfl
        | @noticed _ generation key _ _ code =>
          refine Eq.trans ?_ (sameStreams_recordCrash f key generation code).launched
          exact launched_modifyEncoder _ n fun _ => rfl
        | quiet hq => cases hq
      | pump n => exact launched_pumpOnce hd
      | pass => exact absurd rfl hc
    | exit n code =>
      cases hd
      exact launched_modifyEncoder f n fun e => e.source_finish code
    | feed n | breakPipe n | closePipe n =>
      cases hd
      exact launched_modifyEncoder f n fun _ => rfl
    | subscribe id =>
      obtain ⟨r, hr, rfl⟩ := Option.map_eq_some_iff.mp hd
      simp only [subscribe] at hr
      split at hr
      · cases hr
      · cases hr
        rfl
    | receive | unsubscribe =>
      cases hd
      rfl
    | _ => exact absurd rfl hc

/-! ## Sources that are spared -/

/-- A source stands in the second fleet as it stood in the first: the same is known about it, the same hub is registered
for it, and no encoder was launched for it. -/
structure Spares (f g : Fleet) (key : String) : Prop where
  state : g.state? key = f.state? key
  hub : g.hubs.registered.get? key = f.hubs.registered.get? key
  launches : g.launches key = f.launches key

theorem Spares.refl (f : Fleet) (key : String) : f.Spares f key := ⟨rfl, rfl, rfl⟩

theorem Spares.symm (hs : f.Spares g key) : g.Spares f key := ⟨hs.state.symm, hs.hub.symm, hs.launches.symm⟩

theorem Spares.trans (hg : f.Spares g key) (hh : g.Spares h key) : f.Spares h key :=
  ⟨hh.state.trans hg.state, hh.hub.trans hg.hub, hh.launches.trans hg.launches⟩

theorem spares_of_kept (hk : f.Framed g) (hs : f.SameStreams g) (key : String) : f.Spares g key where
  state := by rw [state?, state?, hk.states]
  hub := by rw [hs.hubs]
  launches := by rw [Fleet.launches, Fleet.launches, hs.launched]

theorem spares_setManualStop (f : Fleet) {id : String} (value : Bool) (hk : key ≠ Text.fold id) :
    f.Spares (f.setManualStop id value) key :=
  ⟨(confined_setManualStop f id value).others hk, rfl, rfl⟩

/-- What happens aside spares all sources. -/
theorem spares_aside (hd : f.perform? d = some g) (ha : f.leavesAlone id d = true) (hn : ∀ i m, d ≠ .event (.job i m))
    (key : String) : f.Spares g key where
  state := congrFun (congrArg Books.state (books_aside hd ha hn)) key
  hub := by rw [register_aside hd ha hn]
  launches := by rw [launches, launches, launched_aside hd hn]

theorem StopStep.names {o : StopOrder} {p q : StopPlace} {m : Move} (step : StopStep f o p m g (.at q))
    (hf : f.Named o.key) (hp : ∀ t, p.taken? = some t → Text.fold t.source = o.key) {t : Taken}
    (ht : q.taken? = some t) : Text.fold t.source = o.key := by
  cases step with
  | taken hs =>
    cases ht
    exact hf _ hs
  | _ => exact hp t ht

/-- What the stop of the old encoder takes away belongs to the source of the start. -/
theorem StartStep.names {o : StartOrder} {p q : StartPlace} {m : Move} (step : StartStep f id o p m g (.at q))
    (hf : f.Named o.key) (hp : o.Names p) : o.Names q := by
  intro t ht
  cases step with
  | retiring step => exact step.names hf hp ht
  | _ => cases ht

/-- A step of a start spares all sources but its own. -/
theorem StartStep.spares {o : StartOrder} {p : StartPlace} {m : Move} {r : After StartPlace StartResult}
    (step : StartStep f id o p m g r) (hp : o.Names p) (hk : key ≠ o.key) : f.Spares g key where
  state := step.confined.others hk
  hub := by
    rcases step.register with hs | ⟨c, n, -, hs⟩ | ⟨e, t, code, rfl, -, hs⟩
    · rw [hs.registered]
    · rw [hs.registered]
      exact KeyMap.get?_insert_of_ne _ _ hk
    · rw [hs.registered]
      refine (KeyMap.get?_erase ..).trans (if_neg ?_)
      rw [hp t rfl]
      exact hk
  launches := step.launches hk

/-! ## Hubs that there are -/

theorem hubs_stopPump (f : Fleet) (n : Nat) : (f.stopPump n).hubs.all = f.hubs.all := by
  unfold stopPump
  split <;> rfl

theorem StopStep.hubs {o : StopOrder} {p : StopPlace} {m : Move} {r : After StopPlace (Option String)}
    (step : StopStep f o p m g r) : g.hubs.all = f.hubs.all := by
  cases step with
  | released =>
    unfold letGo
    dsimp only
    split <;> exact hubs_stopPump f _
  | dropped => split <;> rfl
  | recorded => rw [(sameStreams_recordStop ..).hubs]
  | _ => rfl

/-- A step of a start may open a hub; it touches none that there is. -/
theorem StartStep.hubs {o : StartOrder} {p : StartPlace} {m : Move} {r : After StartPlace StartResult}
    (step : StartStep f id o p m g r) : f.hubs.all <+: g.hubs.all := by
  have same : g.hubs.all = f.hubs.all → f.hubs.all <+: g.hubs.all := fun hs => hs ▸ List.prefix_rfl
  cases step with
  | retiring step => exact same step.hubs
  | retired step => exact same step.hubs
  | cleared => exact same (by rw [(sameStreams_clearOrphans ..).hubs])
  | madeWay => exact same (by rw [(sameStreams_makeWay ..).hubs])
  | @noWay c => exact same (congrArg Hubs.all (sameStreams_makeWay f c.command).hubs)
  | @launched c b => exact same (congrArg Hubs.all (hubs_interrupt f o b))
  | opened =>
    unfold openHub
    split
    · dsimp only
      split <;> exact List.prefix_append ..
    · exact List.prefix_rfl
  | @abandoned c n => exact same (hubs_stopPump f n)
  | restored => exact same (by rw [(sameStreams_restoreLife ..).hubs])
  | _ => exact same rfl

end Fleet

end EncoderFleet
