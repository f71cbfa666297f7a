import EncoderFleet.Proofs.Fleet.Exclusion

/-!
# The exit code of a crashed source

Two write the last exit code of a source: the watcher of its encoder, when it records a crash, and the last step of a
stop, which records how the encoder ended that it took away (`Worked.exitCode`, `Reachable.exitCode_of_crashed`). The
stop looks at the generation before it changes the life of the source, but not before it writes the code. A stop may
wait for its encoder for so long that the next one has been started and has crashed.

A crash *lasts* while the source counts as crashed, and while a start is under way that would put this back. It began
with a crash of the latest generation, whose encoder no stop has taken away (`CrashLasts.began_or_lasted`). So the code
that is shown is the one that the watcher saw, or that of the last stop that was late (`exit_code_of_crashed`); and it
happens that a late one hides it (`crash_hidden_by_late_stop`).
-/

namespace EncoderFleet

/-- The exit code that a stop is about to record. -/
def StopPlace.recorded? : StopPlace → Option ExitCode
  | .record _ code => some code
  | _ => none

namespace Fleet

/-- The last exit code that is known of a source. -/
def exitCode (f : Fleet) (key : String) : ExitCode := (f.state? key).bind SourceState.lastExitCode

/-- The exit code that a stop under way is about to record for a source. -/
def recordedBy (t : Option (StopOrder × StopPlace)) (key : String) : Option ExitCode :=
  t.bind fun t => if t.1.key = key then t.2.recorded? else none

/-- The exit code that a stop records for a source in a deed. -/
def recorded? (f : Fleet) (key : String) : Deed → Option ExitCode
  | .event (.job id _) => recordedBy (f.stop? id) key
  | _ => none

/-- A source counts as crashed, or a start is under way that would put this back. -/
def CrashLasts (f : Fleet) (key : String) : Prop :=
  (f.life key).lifecycle = .crashed ∨
    (f.life key).lifecycle = .starting ∧ ∃ id c, (f.stake key id).course? = some c ∧ c.prior = .crashed

variable {f g : Fleet} {d : Deed} {key : String} {n : Nat} {past : List (Fleet × Deed)}

/-! ## The exit code after an operation -/

theorem exitCode_of_state? {s : SourceState} (h : f.state? key = some s) : f.exitCode key = s.lastExitCode := by
  rw [exitCode, h]
  rfl

theorem exitCode_of_states (h : g.states = f.states) (k : String) : g.exitCode k = f.exitCode k := by
  rw [exitCode, state?, h]
  rfl

theorem exitCode_putState (f : Fleet) (key : String) (s : SourceState) (k : String) :
    (f.putState key s).exitCode k = if k = key then s.lastExitCode else f.exitCode k := by
  unfold exitCode
  rw [state?_putState]
  split <;> rfl

/-- Keeping something about a source that is not its exit code changes no exit code. -/
theorem exitCode_putState_same {s : SourceState} (h : s.lastExitCode = f.exitCode key) (k : String) :
    (f.putState key s).exitCode k = f.exitCode k := by
  rw [exitCode_putState]
  split
  · next hk => rw [h, hk]
  · rfl

theorem exitCode_stateOrNew (f : Fleet) (id : String) : (f.stateOrNew id).lastExitCode = f.exitCode (Text.fold id) := by
  unfold stateOrNew exitCode
  cases f.state? (Text.fold id) <;> rfl

theorem exitCode_ensure (f : Fleet) (id k : String) : (f.ensure id).exitCode k = f.exitCode k :=
  exitCode_putState_same (exitCode_stateOrNew f id) k

theorem exitCode_setManualStop (f : Fleet) (id : String) (value : Bool) (k : String) :
    (f.setManualStop id value).exitCode k = f.exitCode k :=
  exitCode_putState_same (s := { f.stateOrNew id with manualStop := value }) (exitCode_stateOrNew f id) k

theorem exitCode_prepare (f : Fleet) (r : Request) (k : String) : (f.prepare r).exitCode k = f.exitCode k := by
  unfold prepare
  split
  · exact exitCode_ensure f _ k
  · rfl

theorem exitCode_takeEncoder (f : Fleet) (o : StopOrder) (k : String) :
    (f.takeEncoder o).1.exitCode k = f.exitCode k := by
  have ht := takeEncoder_cases f o
  generalize (f.takeEncoder o).1 = g at ht ⊢
  generalize (f.takeEncoder o).2 = r at ht
  cases ht with
  | unknown => rfl
  | @nothing s hs => exact exitCode_putState_same (s := o.note s) (exitCode_of_state? hs).symm k
  | @taken s t hs => exact exitCode_putState_same (s := (o.note s).emptied) (exitCode_of_state? hs).symm k

theorem exitCode_interrupt (f : Fleet) (o : StartOrder) (b : Behaviour) (k : String) :
    (f.interrupt o b).exitCode k = f.exitCode k := by
  unfold interrupt
  split
  · rfl
  · next manual _ =>
    cases manual with
    | false => exact exitCode_takeEncoder f _ k
    | true => exact (exitCode_takeEncoder _ _ k).trans (exitCode_ensure f o.source.id k)

theorem exitCode_track (f : Fleet) (o : StartOrder) (c : Command) (n : Nat) (k : String) :
    (f.track o c n).1.exitCode k = f.exitCode k := by
  refine (exitCode_putState f o.key _ k).trans ?_
  split
  · next hk =>
    rw [hk]
    exact exitCode_stateOrNew f o.source.id
  · rfl

theorem exitCode_restoreLife (f : Fleet) (o : StartOrder) (prior : Lifecycle) (k : String) :
    (f.restoreLife o prior).exitCode k = f.exitCode k := by
  unfold restoreLife
  split
  · rfl
  · next s hs =>
    split
    · exact exitCode_putState_same (s := { s with lifecycle := prior }) (exitCode_of_state? hs).symm k
    · rfl

theorem exitCode_recordStop (f : Fleet) {s : SourceState} (hs : f.state? key = some s) (t : Taken) (code : ExitCode)
    (k : String) : (f.recordStop key t code).exitCode k = if key = k then code else f.exitCode k := by
  unfold recordStop
  rw [hs]
  dsimp only
  rw [exitCode_putState]
  simp only [eq_comm (a := k)]
  split
  · split <;> rfl
  · rfl

theorem exitCode_recordCrash (f : Fleet) (key : String) (generation : Nat) (code : ExitCode) (k : String) :
    (f.recordCrash key generation code).exitCode k =
      if k = key ∧ (f.tracked? key).any (fun t => t.generation == generation) = true then code else f.exitCode k := by
  unfold recordCrash tracked?
  cases hs : f.state? key with
  | none => simp
  | some s =>
    dsimp only [Option.bind_some]
    split
    · next ht =>
      have hp : (if s.permit = true then f.releasePermit else f).exitCode k = f.exitCode k :=
        exitCode_of_states (by split <;> rfl) k
      simp only [exitCode_putState, hp, ht, and_true]
      rfl
    · next ht => rw [if_neg fun h => ht h.2]

/-! ## Who writes exit codes -/

theorem recordedBy_none (key : String) : recordedBy none key = none := rfl

/-- The last step of a stop writes the exit code that it records, and no other step of it writes one. -/
theorem StopStep.exitCode {o : StopOrder} {p : StopPlace} {m : Move} {r : After StopPlace (Option String)}
    (h : StopStep f o p m g r) (hk : (f.state? key).isSome = true) :
    g.exitCode key = (recordedBy (some (o, p)) key).getD (f.exitCode key) := by
  have silent : p.recorded? = none → g.exitCode key = f.exitCode key →
      g.exitCode key = (recordedBy (some (o, p)) key).getD (f.exitCode key) := by
    intro hp hg
    rw [hg, recordedBy, Option.bind_some, hp, ite_self, Option.getD_none]
  cases h with
  | unknown => exact silent rfl rfl
  | @nothing s hs =>
    exact silent rfl (exitCode_putState_same (s := o.note s) (exitCode_of_state? hs).symm key)
  | @taken s t hs =>
    exact silent rfl (exitCode_putState_same (s := (o.note s).emptied) (exitCode_of_state? hs).symm key)
  | seen => exact silent rfl rfl
  | late => exact silent rfl rfl
  | @released t => exact silent rfl (exitCode_of_states (states_letGo f t) key)
  | dropped =>
    refine silent rfl (exitCode_of_states ?_ key)
    split <;> rfl
  | @recorded t code =>
    by_cases ho : o.key = key
    · obtain ⟨s, hs⟩ := Option.isSome_iff_exists.mp hk
      subst ho
      rw [exitCode_recordStop f hs, if_pos rfl]
      simp [recordedBy, StopPlace.recorded?]
    · have hother : (f.recordStop o.key t code).exitCode key = f.exitCode key := by
        cases hs : f.state? o.key with
        | none => rw [recordStop, hs]
        | some s => rw [exitCode_recordStop f hs, if_neg ho]
      simp [recordedBy, ho, hother]

/-- A start writes no exit code, but for the stop of the encoder that it replaces. -/
theorem StartStep.exitCode {id : Nat} {o : StartOrder} {p : StartPlace} {m : Move} {r : After StartPlace StartResult}
    (h : StartStep f id o p m g r) (hk : (f.state? key).isSome = true) :
    g.exitCode key = (recordedBy (o.stop? p) key).getD (f.exitCode key) := by
  cases h with
  | retiring step => exact step.exitCode hk
  | retired step => exact step.exitCode hk
  | entered => exact exitCode_ensure f o.source.id key
  | @found e s t hs =>
    exact exitCode_putState_same (s := { s with manualStop := false }) (exitCode_of_state? hs).symm key
  | declared =>
    exact exitCode_putState_same (s := { f.stateOrNew o.source.id with lifecycle := .starting })
      (exitCode_stateOrNew f o.source.id) key
  | @cleared c => exact exitCode_of_states (kept_clearOrphans f c.command).states key
  | @madeWay c => exact exitCode_of_states (kept_makeWay f c.command).states key
  | @noWay c => exact exitCode_of_states (kept_makeWay f c.command).states key
  | @launched c b => exact exitCode_interrupt f o b key
  | @opened c n => exact exitCode_of_states (kept_openHub f o c.command n).states key
  | @abandoned c n => exact exitCode_of_states (kept_stopPump f n).states key
  | @committed c n => exact exitCode_track f o c.command n key
  | @restored c => exact exitCode_restoreLife f o c.prior key
  | _ => rfl

/-- Unless the source crashes in it, a deed writes the exit code that a stop records in it, and no other. -/
theorem Worked.exitCode (h : Worked f d g) (hk : (f.state? key).isSome = true)
    (hc : ∀ n generation, f.happening? d ≠ some (.crashed n key generation)) :
    g.exitCode key = (f.recorded? key d).getD (f.exitCode key) := by
  have silent : ∀ {id : Nat} {m : Move}, f.stop? id = none → g.exitCode key = f.exitCode key →
      g.exitCode key = (f.recorded? key (.event (.job id m))).getD (f.exitCode key) := by
    intro id m ht hg
    rw [hg, recorded?, ht, recordedBy_none, Option.getD_none]
  cases h with
  | start _ ht step hf _ =>
    rw [exitCode_of_states hf.states, recorded?, ht]
    exact step.exitCode hk
  | stop _ ht _ step hf _ =>
    rw [exitCode_of_states hf.states, recorded?, ht]
    exact step.exitCode hk
  | begun _ ht hf _ => exact silent ht (exitCode_of_states hf.states key)
  | unmarked _ ht _ _ _ _ hf _ =>
    exact silent ht ((exitCode_of_states hf.states key).trans (exitCode_setManualStop f _ _ key))
  | turned _ ht _ hf _ => exact silent ht (exitCode_of_states hf.states key)
  | struck => rfl
  | reaped => rfl
  | @noticed n generation key' asked e code he hk' _ =>
    refine (exitCode_recordCrash f key' generation code key).trans (if_neg ?_)
    rintro ⟨rfl, ht⟩
    refine hc n generation ?_
    simp [happening?, happeningOfEnd, keeper?_of_encoder? he, hk', ht]
  | @submitted r _ hf => exact (exitCode_of_states hf.states key).trans (exitCode_prepare f r key)
  | noted => exact exitCode_ensure f _ key
  | marked => exact exitCode_setManualStop f _ _ key
  | exited => rfl
  | @idle _ _ hd hs =>
    rw [exitCode_of_states hs]
    unfold recorded?
    split
    · next id m _ => rw [(hd id m rfl).2, recordedBy_none, Option.getD_none]
    · rfl

/-- A crash writes the code with which the watcher saw its encoder end. -/
theorem Reachable.exitCode_of_crashed {generation : Nat} (hr : f.Reachable) (hd : f.perform? d = some g)
    (hc : f.happening? d = some (.crashed n key generation)) :
    g.keeper? n = some (.gone (g.exitCode key)) ∧ (g.life key).generation = generation := by
  obtain ⟨rfl, ⟨asked, hk⟩, ht⟩ := crashed_cases hc
  cases hr.worked hd with
  | reaped he hk' _ =>
    rw [keeper?_of_encoder? he, hk'] at hk
    cases hk
  | @noticed _ generation' key' _ e code he hk' _ =>
    rw [keeper?_of_encoder? he, hk'] at hk
    cases hk
    have hcode : ((f.recordCrash key generation code).modifyEncoder n fun e => { e with keeper := .gone code }).exitCode
        key = code := (exitCode_recordCrash f key generation code key).trans (if_pos ⟨rfl, ht⟩)
    refine ⟨?_, ?_⟩
    · rw [hcode, keeper?_modifyEncoder (c := fun _ => .gone code) _ n fun _ => rfl, keeper?_recordCrash,
        Function.update_self, keeper?_of_encoder? he]
      rfl
    · -- The generation that crashed is the one that was tracked, which is the latest.
      have hbond := congrArg Prod.snd (bond_recordCrash f key generation code key)
      rw [if_pos ⟨rfl, ht⟩] at hbond
      obtain ⟨t, htr, hgen⟩ := (Option.any_eq_true _ _).mp ht
      rw [tracked?_eq] at htr
      exact hbond.trans (((hr.records key).sound.generation htr).symm.trans (beq_iff_eq.mp hgen))
  | idle _ _ _ _ _ hn => exact absurd rfl (hn n)

/-! ## A crash that lasts -/

theorem CrashLasts.isSome_state? (h : f.CrashLasts key) : (f.state? key).isSome = true := by
  rw [Option.isSome_iff_ne_none]
  intro hs
  have hl : (f.life key).lifecycle = .notStarted := by
    rw [life, hs]
    rfl
  rcases h with h | ⟨h, -⟩ <;> rw [hl] at h <;> cases h

theorem CrashLasts.congr (h : g.CrashLasts key) (hl : g.life key = f.life key)
    (hc : ∀ i, (g.stake key i).course? = (f.stake key i).course?) : f.CrashLasts key := by
  unfold CrashLasts at h ⊢
  simpa only [hl, hc] using h

/-- A step after which a crash lasts has neither begun it nor taken an encoder away. -/
theorem CrashLasts.step {id : Nat} (h : g.CrashLasts key) (hf : f.RecordOf key) (ht : f.Turns)
    (he : ∀ i, i ≠ id → g.stake key i = f.stake key i)
    (hs : LifeStep (f.life key) (f.stake key id) (g.life key) (g.stake key id)) :
    f.CrashLasts key ∧ (g.life key).generation = (f.life key).generation ∧
      ∀ t, (g.stake key id).taken? = some t → (f.stake key id).taken? = some t := by
  have courses : (g.stake key id).course? = (f.stake key id).course? →
      ∀ i, (g.stake key i).course? = (f.stake key i).course? := fun hid i => by
    by_cases hi : i = id
    · rw [hi, hid]
    · rw [he i hi]
  generalize hl : f.life key = l at hs
  generalize hl' : g.life key = l' at hs
  generalize hk : f.stake key id = e at hs
  generalize hk' : g.stake key id = e' at hs
  have settled : l'.lifecycle ≠ .crashed → l'.lifecycle ≠ .starting → False := fun h₁ h₂ => by
    rcases h with h | ⟨h, -⟩ <;> rw [hl'] at h
    · exact h₁ h
    · exact h₂ h
  cases hs with
  | still hc htk =>
    refine ⟨h.congr (hl'.trans hl.symm) (courses (by rw [hk, hk', hc])), rfl, fun t ht => ?_⟩
    rw [← htk]
    exact ht
  | declared =>
    refine ⟨?_, rfl, nofun⟩
    rcases h with h | ⟨-, i, c, hc, hp⟩
    · rw [hl'] at h
      cases h
    · -- Another start of the source is not on its course, so what would be put back is what has just been found.
      have hid : (f.stake key id).cleared = true := by rw [hk]
      have hi : i = id := by
        by_contra hi
        rw [he i hi] at hc
        exact hi (ht.cleared_alone (cleared_of_course? hc) hid)
      rw [hi, hk'] at hc
      cases hc
      exact .inl (by rw [hl]; exact hp)
  | committed => exact (settled nofun nofun).elim
  | @restored c hstart =>
    refine ⟨?_, rfl, nofun⟩
    have hc : (f.stake key id).course? = some c := by rw [hk]
    rcases h with h | ⟨h, -⟩ <;> rw [hl'] at h
    · exact .inr ⟨by rw [hl]; exact hstart, id, c, hc, h⟩
    · exact absurd h (hf.course hc).1
  | spared hstart =>
    refine ⟨.inl ?_, rfl, nofun⟩
    rcases h with h | ⟨h, -⟩ <;> rw [hl'] at h
    · rw [hl, h]
    · exact absurd h hstart
  | taken => exact (settled nofun nofun).elim
  | stopped => exact (settled nofun nofun).elim
  | outdated => exact ⟨h.congr (hl'.trans hl.symm) (courses (by rw [hk, hk'])), rfl, nofun⟩

/-- A source from which an encoder is taken away counts as stopping. -/
theorem Reachable.lifecycle_of_taken {generation id : Nat} (hr : f.Reachable) (hd : f.perform? d = some g)
    (h : f.happening? d = some (.taken n key generation id)) : (g.life key).lifecycle = .stopping := by
  rcases happening_cases h with ⟨i, m, o, p, -, -, hp, h⟩ | ⟨i, m, o, p, rfl, hs, h⟩ | ⟨k, -, h⟩
  · rcases happeningOfStart_eq hp h with ⟨_, -, ha⟩ | ⟨_, _, -, ha | ⟨_, ha⟩⟩ <;> cases ha
  · rcases happeningOfStop_eq h with ⟨rfl, t, ht, ha⟩ | ⟨_, _, -, ha⟩ <;> cases ha
    obtain ⟨s, hst, htr⟩ := Option.bind_eq_some_iff.mp ht
    rcases (hr.worked hd).stop?_change id with ⟨-, hno⟩ | ⟨hno, -⟩ | ⟨m', o', p', g', r, -, hs', step, hf, -⟩
    · rw [hno m rfl] at hs
      cases hs
    · rw [hno] at hs
      cases hs
    · rw [hs] at hs'
      cases hs'
      rw [life_of_states hf.states]
      cases step with
      | unknown hno =>
        rw [hno] at hst
        cases hst
      | nothing hs' hno =>
        rw [hs'] at hst
        cases hst
        rw [hno] at htr
        cases htr
      | @taken s' t' =>
        have hl := (life_putState f o.key (o.note s').emptied o.key).trans (if_pos rfl)
        exact congrArg Life.lifecycle hl
  · obtain ⟨_, _, _, ha, -⟩ := happeningOfEnd_eq h
    cases ha

/-- What makes a life that has just crashed is a crash. -/
theorem Reachable.crashed_of_life (hr : f.Reachable) (hd : f.perform? d = some g)
    (ht : (f.life key).tracked.isSome = true) (hl : g.life key = (f.life key).crashed) :
    ∃ n generation, f.happening? d = some (.crashed n key generation) := by
  obtain ⟨t, ht⟩ := Option.isSome_iff_exists.mp ht
  have hnone : ¬g.Tracks key t.generation := by
    rintro ⟨t', ht', -⟩
    rw [tracked?_eq, hl] at ht'
    cases ht'
  have htracks : f.Tracks key t.generation := ⟨t, by rw [tracked?_eq, ht], rfl⟩
  obtain ⟨a, ha, hdep⟩ := (Option.any_eq_true _ _).mp ((hr.departs_iff hd key _).mp ⟨htracks, hnone⟩)
  cases a with
  | taken m k generation id =>
    obtain ⟨rfl, -⟩ : k = key ∧ generation = t.generation := by simpa [Happening.departs] using hdep
    have hlc := hr.lifecycle_of_taken hd ha
    rw [hl] at hlc
    cases hlc
  | crashed m k generation =>
    obtain ⟨rfl, -⟩ : k = key ∧ generation = t.generation := by simpa [Happening.departs] using hdep
    exact ⟨m, generation, ha⟩
  | _ => cases hdep

/-- The stops under way for a source are late: each has taken away the encoder of an earlier generation. -/
def StopsAreLate (f : Fleet) (key : String) : Prop :=
  ∀ id t, (f.stake key id).taken? = some t → t.tracked.generation < (f.life key).generation

/-- A crash that lasts has begun in this deed or before it; in the second case the generation is the same, and stops
that are late then are late now. -/
theorem CrashLasts.began_or_lasted (h : g.CrashLasts key) (hr : f.Reachable) (hd : f.perform? d = some g) :
    (∃ n, f.happening? d = some (.crashed n key (g.life key).generation)) ∨
      (∀ n generation, f.happening? d ≠ some (.crashed n key generation)) ∧ f.CrashLasts key ∧
        (g.life key).generation = (f.life key).generation ∧ (f.StopsAreLate key → g.StopsAreLate key) := by
  by_cases hc : ∃ n generation, f.happening? d = some (.crashed n key generation)
  · obtain ⟨n, generation, hc⟩ := hc
    rw [(hr.exitCode_of_crashed hd hc).2]
    exact .inl ⟨n, hc⟩
  · simp only [not_exists] at hc
    have same : g.life key = f.life key → (∀ i, g.stake key i = f.stake key i) →
        f.CrashLasts key ∧ (g.life key).generation = (f.life key).generation ∧
          (f.StopsAreLate key → g.StopsAreLate key) := by
      intro hl he
      refine ⟨h.congr hl fun i => by rw [he], by rw [hl], fun hlate i t ht => ?_⟩
      rw [he] at ht
      rw [hl]
      exact hlate i t ht
    refine .inr ⟨hc, ?_⟩
    cases (hr.worked hd).lifeMove (fun k => (hr.records k).sound) fun k i => (hr.records k).cleared with
    | same hl he => exact same (hl key) (he key)
    | step key' id hl he hs =>
      by_cases hk : key = key'
      · subst hk
        have he' : ∀ i, i ≠ id → g.stake key i = f.stake key i := fun i hi => he key i fun h => hi h.2
        obtain ⟨hlasts, hgen, htaken⟩ := h.step (hr.records key) hr.turns he' hs
        refine ⟨hlasts, hgen, fun hlate i t ht => ?_⟩
        rw [hgen]
        by_cases hi : i = id
        · subst hi
          exact hlate i t (htaken t ht)
        · rw [he' i hi] at ht
          exact hlate i t ht
      · exact same (hl key hk) fun i => he key i fun h => hk h.1
    | crashed key' hl he ht hg =>
      by_cases hk : key = key'
      · subst hk
        obtain ⟨n, generation, hcr⟩ := hr.crashed_of_life hd ht hg
        exact absurd hcr (hc n generation)
      · exact same (hl key hk) (he key)

/-- When a source crashes, the stops that are under way for it are late: they have taken earlier encoders away. -/
theorem Reachable.stopsAreLate_of_crashed {generation : Nat} (hr : f.Reachable) (hd : f.perform? d = some g)
    (hc : f.happening? d = some (.crashed n key generation)) : g.StopsAreLate key := by
  obtain ⟨rfl, -, htracked⟩ := crashed_cases hc
  obtain ⟨t', htr, hgen⟩ := (Option.any_eq_true _ _).mp htracked
  intro i t ht
  obtain ⟨o, p, hs, rfl, hp⟩ := stake_taken?.mp ht
  have hold : f.stop? i = some (o, p) := by
    rcases (hr.worked hd).stop?_change i with ⟨hsame, -⟩ | ⟨-, o', hnew⟩ | ⟨_, _, _, _, _, hjob, -⟩
    · exact hsame.symm.trans hs
    · rw [hs] at hnew
      cases hnew
      cases hp
    · cases hjob
  have htakes : f.takes? i = some (o.key, t.tracked) := by
    rw [Fleet.takes?, hold, Option.bind_some, hp]
    rfl
  obtain ⟨log, hlog⟩ := hr.chronicle
  have hlatest : generation = (f.life o.key).generation := by
    rw [tracked?_eq] at htr
    exact (beq_iff_eq.mp hgen).symm.trans ((hr.records o.key).sound.generation htr)
  rw [(hr.exitCode_of_crashed hd hc).2, hlatest]
  -- What a stop has taken away has departed, while the latest generation is still tracked.
  rcases hlog.agrees.departed (hlog.agrees.pending htakes).1 with hlt | ⟨-, hno⟩
  · exact hlt
  · rw [has_source.mpr ⟨t', htr, rfl⟩] at hno
    cases hno

/-! ## The law of exit codes -/

/-- A stop records in a deed how the encoder of a generation has ended that it took away from the source. -/
def RecordsEnd (f : Fleet) (key : String) (generation : Nat) (code : ExitCode) (d : Deed) : Prop :=
  ∃ id m o t, d = .event (.job id m) ∧ f.stop? id = some (o, .record t code) ∧ o.key = key ∧
    t.tracked.generation = generation

theorem StopsAreLate.recordsEnd {code : ExitCode} (h : f.StopsAreLate key) (hc : f.recorded? key d = some code) :
    ∃ generation < (f.life key).generation, f.RecordsEnd key generation code d := by
  unfold recorded? at hc
  split at hc
  · next id m =>
    obtain ⟨⟨o, p⟩, hs, hc⟩ := Option.bind_eq_some_iff.mp hc
    dsimp only at hc
    split at hc
    · next hk =>
      unfold StopPlace.recorded? at hc
      split at hc <;> cases hc
      next t =>
      have ht : (f.stake key id).taken? = some t := stake_taken?.mpr ⟨o, _, hs, hk, rfl⟩
      exact ⟨_, h id t ht, id, m, o, t, rfl, hs, hk, rfl⟩
    · cases hc
  · cases hc

theorem Reachable.gone (hr : f.Reachable) (hd : f.perform? d = some g) {code : ExitCode}
    (h : f.keeper? n = some (.gone code)) : g.keeper? n = some (.gone code) := by
  obtain ⟨log, hlog⟩ := hr.chronicle
  exact hlog.agrees.settled_step ((hr.worked hd).custodyStep hr.records) h rfl

/-- While a crash lasts, the exit code is the one that the watcher of the latest generation saw, or that of the last
stop that has been late since. -/
theorem CrashLasts.exitCode (hc : f.CrashLasts key) (h : f.Traced past) :
    f.StopsAreLate key ∧ ∃ before g n code after, past = before ++ (g, .event (.notice n)) :: after ∧
      g.happening? (.event (.notice n)) = some (.crashed n key (f.life key).generation) ∧
      f.keeper? n = some (.gone code) ∧
      f.exitCode key = ((after.filterMap fun x => x.1.recorded? key x.2).getLast?).getD code ∧
      ∀ x ∈ after, ∀ code', x.1.recorded? key x.2 = some code' →
        ∃ generation < (f.life key).generation, x.1.RecordsEnd key generation code' x.2 := by
  induction h with
  | fresh => rcases hc with hc | ⟨hc, -⟩ <;> cases hc
  | @perform f g d past h hd ih =>
    have hr := h.reachable
    rcases hc.began_or_lasted hr hd with ⟨n, hcr⟩ | ⟨hno, hlasts, hgen, hlate⟩
    · obtain ⟨rfl, -⟩ := crashed_cases hcr
      have hlate := hr.stopsAreLate_of_crashed hd hcr
      have hcode := (hr.exitCode_of_crashed hd hcr).1
      refine ⟨hlate, past, f, n, g.exitCode key, [], rfl, hcr, hcode, ?_, List.forall_mem_nil _⟩
      rw [List.filterMap_nil, List.getLast?_nil, Option.getD_none]
    · obtain ⟨hwas, before, f', n, code, after, rfl, hcr, hgone, hcode, hearlier⟩ := ih hlasts
      refine ⟨hlate hwas, before, f', n, code, after ++ [(f, d)], ?_, ?_, hr.gone hd hgone, ?_, ?_⟩
      · rw [List.append_assoc, List.cons_append]
      · rw [hgen]
        exact hcr
      · rw [(hr.worked hd).exitCode hlasts.isSome_state? hno, hcode, List.filterMap_append]
        cases hrec : f.recorded? key d <;> simp [hrec]
      · rw [List.forall_mem_append, List.forall_mem_singleton, hgen]
        exact ⟨hearlier, fun code' hc' => hwas.recordsEnd hc'⟩

/-- As long as a source counts as crashed, its watcher has seen the encoder of its latest generation end, and the exit
code is the one that it saw, unless stops have recorded others since; then it is that of the last one. Those stops were
late: they had taken away encoders of earlier generations. -/
theorem exit_code_of_crashed (h : f.Traced past) {s : SourceState} (hs : f.state? key = some s)
    (hc : s.lifecycle = .crashed) :
    ∃ before g n code after, past = before ++ (g, .event (.notice n)) :: after ∧
      g.happening? (.event (.notice n)) = some (.crashed n key s.generation) ∧ f.keeper? n = some (.gone code) ∧
      s.lastExitCode = ((after.filterMap fun x => x.1.recorded? key x.2).getLast?).getD code ∧
      ∀ x ∈ after, ∀ code', x.1.recorded? key x.2 = some code' →
        ∃ generation < s.generation, x.1.RecordsEnd key generation code' x.2 := by
  have hl := life_of_state? hs
  have hlasts : f.CrashLasts key := .inl (by rw [hl]; exact hc)
  have hgen : (f.life key).generation = s.generation := by rw [hl]; rfl
  obtain ⟨-, hcode⟩ := hlasts.exitCode h
  rwa [hgen, exitCode_of_state? hs] at hcode

/-- Before the last two steps of a stop, which has waited for the first encoder of a camera, the second one has been
started and has ended with code 7. -/
def lateStop : List Deed :=
  [.submit (.start camera)] ++ goesOn 0 14 ++ [.submit (.stop (some "cam") false)] ++ goesOn 1 2 ++
    [.event (.strike 0), .event (.notice 0)] ++ goesOn 1 2 ++ [.submit (.start camera)] ++ goesOn 2 14 ++
    [.exit 1 (some 7)]

/-- The watcher of the second encoder has seen it end with code 7, and the stop has not got further: the camera shows
that code. -/
theorem exit_code_of_crashed_camera : ∃ f : Fleet, ∃ s : SourceState, f.Reachable ∧ f.state? "cam" = some s ∧
    s.lifecycle = .crashed ∧ f.keeper? 1 = some (.gone (some 7)) ∧ ∃ past, f.Traced past ∧
      ∃ before g n code after, past = before ++ (g, .event (.notice n)) :: after ∧
        g.happening? (.event (.notice n)) = some (.crashed n "cam" s.generation) ∧ f.keeper? n = some (.gone code) ∧
        s.lastExitCode = ((after.filterMap fun x => x.1.recorded? "cam" x.2).getLast?).getD code := by
  obtain ⟨f, hf, h⟩ := exists_of_run
    (p := fun f => decide (f.keeper? 1 = some (.gone (some 7))) &&
      (f.state? "cam").any fun s => decide (s.lifecycle = .crashed))
    (lateStop ++ [.event (.notice 1)]) (by decide +kernel)
  rw [Bool.and_eq_true, decide_eq_true_eq] at h
  obtain ⟨hk, h⟩ := h
  obtain ⟨s, hs, hc⟩ := (Option.any_eq_true _ _).mp h
  have hc := of_decide_eq_true hc
  obtain ⟨past, hpast⟩ := hf.traced
  obtain ⟨before, g, n, code, after, hb, hcr, hgone, hcode, -⟩ := exit_code_of_crashed hpast hs hc
  exact ⟨f, s, hf, hs, hc, hk, past, hpast, before, g, n, code, after, hb, hcr, hgone, hcode⟩

/-- The stop goes on, and records how the first encoder has ended. The camera still counts as crashed in its second
generation, whose watcher saw code 7, and shows no code. -/
theorem crash_hidden_by_late_stop : ∃ f g : Fleet, ∃ s : SourceState, f.Reachable ∧
    f.happening? (.event (.notice 1)) = some (.crashed 1 "cam" 2) ∧
    f.performAll? (.event (.notice 1) :: goesOn 1 2) = some g ∧ g.state? "cam" = some s ∧ s.lifecycle = .crashed ∧
    s.generation = 2 ∧ g.keeper? 1 = some (.gone (some 7)) ∧ s.lastExitCode = none := by
  obtain ⟨f, hf, h⟩ := exists_of_run
    (p := fun f : Fleet => decide (f.happening? (.event (.notice 1)) = some (.crashed 1 "cam" 2)) &&
      (f.performAll? (.event (.notice 1) :: goesOn 1 2)).any fun g : Fleet =>
        decide (g.keeper? 1 = some (.gone (some 7))) && (g.state? "cam").any fun s : SourceState =>
          decide (s.lifecycle = .crashed ∧ s.generation = 2 ∧ s.lastExitCode = none))
    lateStop (by decide +kernel)
  rw [Bool.and_eq_true, decide_eq_true_eq] at h
  obtain ⟨hcr, h⟩ := h
  obtain ⟨g, hg, h⟩ := (Option.any_eq_true _ _).mp h
  rw [Bool.and_eq_true, decide_eq_true_eq] at h
  obtain ⟨hk, h⟩ := h
  obtain ⟨s, hs, h⟩ := (Option.any_eq_true _ _).mp h
  obtain ⟨hc, hgen, hcode⟩ := of_decide_eq_true h
  exact ⟨f, g, s, hf, hcr, hg, hs, hc, hgen, hk, hcode⟩

end Fleet

end EncoderFleet
