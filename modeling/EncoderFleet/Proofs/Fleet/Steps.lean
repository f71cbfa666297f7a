import EncoderFleet.Proofs.Fleet.Frames

/-!
# What a step can do

Each of the relations below lists, by name, all that one step can do, with the condition under which it is possible and
with the fleet that it leads to.

* `StopStep` and `StartStep`: one step of a stop and of a start (`stopStep_of_stepStop`, `startStep_of_stepStart`);
* `JobStep`: one step of a job, which is a step of its start or its stop, or goes on to the next
  (`jobStep_of_stepJob`);
* `Performed`: one deed (`performed`). Deeds that change nothing but what lies outside of the frame are `Quiet`.
-/

namespace EncoderFleet

/-- What a stop notes in what is known about a source, whether an encoder is tracked or not. -/
def StopOrder.note (o : StopOrder) (s : SourceState) : SourceState :=
  { s with epoch := if o.overtakes then s.epoch + 1 else s.epoch, manualStop := s.manualStop || o.manual }

/-- What is known about a source after its encoder was taken away. -/
def SourceState.emptied (s : SourceState) : SourceState :=
  { s with tracked := none, permit := false, lifecycle := .stopping }

/-- Where a batch stands after a step of its start. -/
def Batch.follow (b : Batch) (s : Source) : Fleet.After StartPlace StartResult → Batch
  | .at p => { b with current := some (s, p) }
  | .done result => { b with current := none, reports := b.reports ++ [⟨s.id, .ended result⟩] }

/-- Where a sweep stands after a step of its stop. -/
def Sweep.follow (s : Sweep) (key : String) : Fleet.After StopPlace (Option String) → Sweep
  | .at p => { s with current := some (key, p) }
  | .done stopped => { s with current := none, stopped := s.stopped ++ stopped.toList }

/-- Deeds that touch no source, no permit and no encoder's standing. -/
def Deed.isQuiet : Deed → Bool
  | .event (.pump _) | .event (.pass _) | .collect _ | .forget _ | .feed _ _ | .breakPipe _ | .closePipe _ | .replan _
  | .setFlags _ | .replaceProfiles _ | .subscribe _ | .receive _ | .unsubscribe _ | .files _ | .processes _ => true
  | _ => false

namespace Fleet

/-! ## Stops -/

/-- One step of a stop. -/
inductive StopStep (f : Fleet) (o : StopOrder) :
    StopPlace → Move → Fleet → After StopPlace (Option String) → Prop
  | unknown (h : f.state? o.key = none) : StopStep f o .take .proceed f (.done none)
  | nothing {s : SourceState} (h : f.state? o.key = some s) (ht : s.tracked = none) :
      StopStep f o .take .proceed (f.putState o.key (o.note s)) (.done none)
  | taken {s : SourceState} {t : Tracked} (h : f.state? o.key = some s) (ht : s.tracked = some t) :
      StopStep f o .take .proceed
        ((f.putState o.key (o.note s).emptied).modifyEncoder t.encoder Encoder.askKill)
        (.at (.reap ⟨s.source, t, s.permit⟩ (f.now + f.settings.stopTimeout)))
  | seen {t : Taken} {deadline : Nat} {code : ExitCode}
      (h : (f.encoder? t.tracked.encoder).bind Encoder.seen? = some code) :
      StopStep f o (.reap t deadline) .proceed f (.at (.release t code))
  | late {t : Taken} {deadline : Nat} (h : deadline ≤ f.now) :
      StopStep f o (.reap t deadline) .timeout f (.at (.release t none))
  | released {t : Taken} {code : ExitCode} :
      StopStep f o (.release t code) .proceed (f.letGo t) (.at (.dropHub t code))
  | dropped {t : Taken} {code : ExitCode} :
      StopStep f o (.dropHub t code) .proceed
        (if t.tracked.command.mode.piped then { f with hubs := f.hubs.remove t.source } else f) (.at (.record t code))
  | recorded {t : Taken} {code : ExitCode} :
      StopStep f o (.record t code) .proceed (f.recordStop o.key t code) (.done (some t.source))

variable {f g : Fleet}

/-- What taking the encoder away does. -/
theorem takeEncoder_cases (f : Fleet) (o : StopOrder) :
    StopStep f o .take .proceed (f.takeEncoder o).1 (f.takeEncoder o).2 := by
  unfold takeEncoder
  cases h : f.state? o.key with
  | none => exact .unknown h
  | some s =>
    have hn : (if o.manual then { (if o.overtakes then { s with epoch := s.epoch + 1 } else s) with manualStop := true }
        else if o.overtakes then { s with epoch := s.epoch + 1 } else s) = o.note s := by
      unfold StopOrder.note
      cases o.overtakes <;> cases hm : o.manual <;> simp
    dsimp only
    rw [hn]
    cases ht : s.tracked with
    | none =>
      have : (o.note s).tracked = none := ht
      rw [this]
      exact .nothing h ht
    | some t =>
      have : (o.note s).tracked = some t := ht
      rw [this]
      exact .taken h ht

theorem stopStep_of_stepStop {o : StopOrder} {p : StopPlace} {m : Move} {r : After StopPlace (Option String)}
    (h : f.stepStop o p m = some (g, r)) : StopStep f o p m g r := by
  unfold stepStop at h
  split at h
  · have ht := takeEncoder_cases f o
    rwa [Option.some.inj h] at ht
  · obtain ⟨code, hc, h⟩ := Option.map_eq_some_iff.mp h
    cases h; exact .seen hc
  · split at h
    · cases h; exact .late ‹_›
    · cases h
  · cases h; exact .released
  · cases h; exact .dropped
  · cases h; exact .recorded
  · cases h

/-! ## Starts -/

/-- One step of a start, which is done by a numbered job. -/
inductive StartStep (f : Fleet) (id : Nat) (o : StartOrder) :
    StartPlace → Move → Fleet → After StartPlace StartResult → Prop
  | entered (h : o.source.enabled = true) :
      StartStep f id o .enter .proceed (f.ensure o.source.id) (.at (.line (f.stateOrNew o.source.id).epoch))
  | refused (h : o.source.enabled = false) :
      StartStep f id o .enter .proceed f (.done (.error (.sourceDisabled o.source.id)))
  | queued {e : Nat} : StartStep f id o (.line e) .proceed (f.enterLine o.key id) (.at (.turn e))
  | admitted {e : Nat} (h : (f.line o.key).head? = some id) : StartStep f id o (.turn e) .proceed f (.at (.look e))
  | leftLine {e : Nat} (h : f.overtaken o e = true) :
      StartStep f id o (.turn e) .cancel (f.leaveLine o.key id) (.done (.error (.startCancelled o.source.id)))
  | found {e : Nat} {s : SourceState} {t : Tracked} (hs : f.state? o.key = some s) (ht : s.tracked = some t)
      (hr : s.isRunning = true) (ho : o.replaces = false) :
      StartStep f id o (.look e) .proceed (f.putState o.key { s with manualStop := false })
        (.at (.leave (.ok (.of o.source.id false t.pid t.command))))
  | replacing {e : Nat} (ho : o.replaces = true) : StartStep f id o (.look e) .proceed f (.at (.retire e .take))
  | missing {e : Nat} (h : ∀ s, f.state? o.key = some s → s.isRunning = false) (ho : o.replaces = false) :
      StartStep f id o (.look e) .proceed f (.at (.declare e))
  | retiring {e : Nat} {p p' : StopPlace} {m : Move} {g : Fleet} (h : StopStep f ⟨o.key, false, false⟩ p m g (.at p')) :
      StartStep f id o (.retire e p) m g (.at (.retire e p'))
  | retired {e : Nat} {p : StopPlace} {m : Move} {g : Fleet} {r : Option String}
      (h : StopStep f ⟨o.key, false, false⟩ p m g (.done r)) :
      StartStep f id o (.retire e p) m g (.at (.declare e))
  | declared {e : Nat} :
      StartStep f id o (.declare e) .proceed
        (f.putState o.key { f.stateOrNew o.source.id with lifecycle := .starting })
        (.at (.clear ⟨e, (f.stateOrNew o.source.id).lifecycle,
          Command.build f.settings f.platform o.source f.catalog.activeArgs o.flags⟩))
  | cleared {c : Course} : StartStep f id o (.clear c) .proceed (f.clearOrphans c.command) (.at (.ask c))
  | acquired {c : Course} {gate : Gate} (h : f.gate.tryAcquire = some gate) :
      StartStep f id o (.ask c) .proceed { f with gate := gate } (.at (.makeWay c))
  | waiting {c : Course} (h : f.gate.tryAcquire = none) :
      StartStep f id o (.ask c) .proceed { f with gate := f.gate.enqueue id }
        (.at (.await c (f.now + f.settings.lockTimeout)))
  | gaveUp {c : Course} (h : f.overtaken o c.epoch = true) :
      StartStep f id o (.ask c) .cancel f (.at (.restore c (.startCancelled o.source.id)))
  | granted {c : Course} {deadline : Nat} {gate : Gate} (h : f.gate.collect id = some gate) :
      StartStep f id o (.await c deadline) .proceed { f with gate := gate } (.at (.makeWay c))
  | withdrew {c : Course} {deadline : Nat} (h : f.overtaken o c.epoch = true) :
      StartStep f id o (.await c deadline) .cancel { f with gate := f.gate.withdraw id }
        (.at (.restore c (.startCancelled o.source.id)))
  | late {c : Course} {deadline : Nat} (h : deadline ≤ f.now) :
      StartStep f id o (.await c deadline) .timeout { f with gate := f.gate.withdraw id }
        (.at (.restore c (.captureBusy o.source.id)))
  | madeWay {c : Course} (h : (f.makeWay c.command).2 = none) :
      StartStep f id o (.makeWay c) .proceed (f.makeWay c.command).1 (.at (.launch c))
  | noWay {c : Course} {reason : String} (h : (f.makeWay c.command).2 = some reason) :
      StartStep f id o (.makeWay c) .proceed (f.makeWay c.command).1.releasePermit
        (.at (.restore c (.spawnFailed o.source.id reason)))
  | launched {c : Course} {b : Behaviour} (h : f.launcher.plan f.files c.command = .runs b) :
      StartStep f id o (.launch c) .proceed
        { f.interrupt o b with encoders := (f.interrupt o b).encoders ++ [.launched o.source.id c.command b] }
        (.at (.openHub c (f.interrupt o b).encoders.length))
  | failed {c : Course} {fault : Fault} (h : f.launcher.plan f.files c.command = .fails fault) :
      StartStep f id o (.launch c) .proceed f.releasePermit (.at (.restore c (.spawnFailed o.source.id fault.message)))
  | opened {c : Course} {n : Nat} :
      StartStep f id o (.openHub c n) .proceed (f.openHub o c.command n) (.at (.commit c n))
  | abandoned {c : Course} {n : Nat} (h : f.overtaken o c.epoch = true) :
      StartStep f id o (.commit c n) .proceed (f.abandon n).releasePermit
        (.at (.restore c (.startCancelled o.source.id)))
  | committed {c : Course} {n : Nat} (h : f.overtaken o c.epoch = false) :
      StartStep f id o (.commit c n) .proceed (f.track o c.command n).1 (.at (.leave (.ok (f.track o c.command n).2)))
  | restored {c : Course} {failure : Failure} :
      StartStep f id o (.restore c failure) .proceed (f.restoreLife o c.prior) (.at (.leave (.error failure)))
  | left {r : StartResult} : StartStep f id o (.leave r) .proceed (f.leaveLine o.key id) (.done r)

/-- Noting a source does not change its epoch. -/
theorem stateOrNew_ensure (f : Fleet) (id : String) : (f.ensure id).stateOrNew id = f.stateOrNew id := by
  simp [ensure, putState, stateOrNew, state?]

/-- What a start sees that looks for a running encoder. -/
theorem look_cases {o : StartOrder} {id e : Nat} {m : Move} {r : After StartPlace StartResult}
    (h : f.stepStart id o (.look e) m = some (g, r)) : StartStep f id o (.look e) m g r := by
  cases m with
  | cancel => cases h
  | timeout => cases h
  | proceed =>
    simp only [stepStart] at h
    cases ho : o.replaces with
    | true =>
      have hn : f.alreadyRunning? o = none := by
        unfold alreadyRunning?
        split
        · rfl
        · split
          · rfl
          · simp [ho]
      rw [hn] at h
      simp only [ho, if_true] at h
      cases h; exact .replacing ho
    | false =>
      unfold alreadyRunning? at h
      cases hs : f.state? o.key with
      | none =>
        simp only [hs, ho] at h
        cases h; exact .missing (by simp [hs]) ho
      | some s =>
        cases ht : s.tracked with
        | none =>
          simp only [hs, ht, ho] at h
          cases h; exact .missing (by simp [hs, SourceState.isRunning, ht]) ho
        | some t =>
          cases hr : s.isRunning with
          | true =>
            simp only [hs, ht, ho, hr] at h
            cases h
            have : StartStep f id o (.look e) .proceed _ _ := .found hs ht hr ho
            rwa [ht] at this
          | false =>
            simp only [hs, ht, ho, hr] at h
            cases h; exact .missing (by simp [hs, hr]) ho

theorem startStep_of_stepStart {id : Nat} {o : StartOrder} {p : StartPlace} {m : Move}
    {r : After StartPlace StartResult} (h : f.stepStart id o p m = some (g, r)) : StartStep f id o p m g r := by
  cases p with
  | look e => exact look_cases h
  | retire e p =>
    simp only [stepStart] at h
    obtain ⟨⟨g', r'⟩, hs, h⟩ := Option.map_eq_some_iff.mp h
    cases r' with
    | «at» p' => cases h; exact .retiring (stopStep_of_stepStop hs)
    | done => cases h; exact .retired (stopStep_of_stepStop hs)
  | enter =>
    cases m <;> simp only [stepStart, reduceCtorEq] at h
    cases he : o.source.enabled with
    | true =>
      rw [he] at h
      cases h
      rw [stateOrNew_ensure]
      exact .entered he
    | false => rw [he] at h; cases h; exact .refused he
  | line e =>
    cases m <;> cases h
    exact .queued
  | turn e =>
    cases m <;> simp only [stepStart, reduceCtorEq] at h
    · split at h <;> cases h
      exact .admitted ‹_›
    · split at h <;> cases h
      exact .leftLine ‹_›
  | declare e =>
    cases m <;> cases h
    exact .declared
  | clear c =>
    cases m <;> cases h
    exact .cleared
  | ask c =>
    cases m <;> simp only [stepStart, reduceCtorEq] at h
    · split at h <;> cases h
      · exact .acquired ‹_›
      · exact .waiting ‹_›
    · split at h <;> cases h
      exact .gaveUp ‹_›
  | await c deadline =>
    cases m <;> simp only [stepStart] at h
    · obtain ⟨gate, hg, h⟩ := Option.map_eq_some_iff.mp h
      cases h; exact .granted hg
    · split at h <;> cases h
      exact .withdrew ‹_›
    · split at h <;> cases h
      exact .late ‹_›
  | makeWay c =>
    cases m <;> simp only [stepStart, reduceCtorEq] at h
    rcases hw : f.makeWay c.command with ⟨g', _ | reason⟩
    · rw [hw] at h; cases h
      have : StartStep f id o (.makeWay c) .proceed _ _ := .madeWay (by rw [hw])
      rwa [hw] at this
    · rw [hw] at h; cases h
      have : StartStep f id o (.makeWay c) .proceed _ _ := .noWay (show _ = some reason by rw [hw])
      rwa [hw] at this
  | launch c =>
    cases m <;> simp only [stepStart, reduceCtorEq] at h
    unfold launch at h
    cases hp : f.launcher.plan f.files c.command with
    | fails fault => rw [hp] at h; cases h; exact .failed hp
    | runs b => rw [hp] at h; cases h; exact .launched hp
  | openHub c n =>
    cases m <;> cases h
    exact .opened
  | commit c n =>
    cases m <;> simp only [stepStart, reduceCtorEq] at h
    cases ho : f.overtaken o c.epoch with
    | true => rw [ho] at h; cases h; exact .abandoned ho
    | false => rw [ho] at h; cases h; exact .committed ho
  | restore c failure =>
    cases m <;> cases h
    exact .restored
  | leave r =>
    cases m <;> cases h
    exact .left

/-! ## Jobs -/

/-- One step of a numbered job. -/
inductive JobStep (f : Fleet) (id : Nat) : Job → Move → Fleet → Job → Prop
  | start {b : Batch} {s : Source} {p : StartPlace} {m : Move} {g : Fleet} {r : After StartPlace StartResult}
      (hc : b.current = some (s, p)) (h : StartStep f id (b.order s) p m g r) :
      JobStep f id (.batch b) m g (.batch (b.follow s r))
  | begun {b : Batch} {s : Source} {rest : List Source} (hc : b.current = none) (hr : b.rest = s :: rest)
      (hb : b.rule ≠ .clear) :
      JobStep f id (.batch b) .proceed f (.batch { b with current := some (s, .enter), rest := rest })
  | unmarked {b : Batch} {s : Source} {rest : List Source} (hc : b.current = none) (hr : b.rest = s :: rest)
      (hb : b.rule = .clear) :
      JobStep f id (.batch b) .proceed (f.setManualStop s.id false)
        (.batch { b with current := some (s, .enter), rest := rest })
  | skipped {b : Batch} {s : Source} {rest : List Source} (hc : b.current = none) (hr : b.rest = s :: rest)
      (hb : b.rule = .respect) (hm : f.isManualStop s.id = true) :
      JobStep f id (.batch b) .proceed f (.batch { b with rest := rest, reports := b.reports ++ [⟨s.id, .skipped⟩] })
  | started {b : Batch} (hc : b.current = none) (hr : b.rest = []) :
      JobStep f id (.batch b) .proceed f (.done (.reports b.reports))
  | stop {s : Sweep} {key : String} {p : StopPlace} {m : Move} {g : Fleet} {r : After StopPlace (Option String)}
      (hc : s.current = some (key, p)) (h : StopStep f (s.order key) p m g r) :
      JobStep f id (.sweep s) m g (.sweep (s.follow key r))
  | turned {s : Sweep} {key : String} {rest : List String} (hc : s.current = none) (hr : s.rest = key :: rest) :
      JobStep f id (.sweep s) .proceed f (.sweep { s with current := some (key, .take), rest := rest })
  | swept {s : Sweep} (hc : s.current = none) (hr : s.rest = []) :
      JobStep f id (.sweep s) .proceed f (.done (.stopped s.stopped))
  | changing {p p' : ChangePlace} {m : Move} {g : Fleet} (h : f.Kept g) : JobStep f id (.change p) m g (.change p')
  | changed {p : ChangePlace} {m : Move} {g : Fleet} {a : Answer} (h : f.Kept g) (ha : ∀ ids, a ≠ .stopped ids) :
      JobStep f id (.change p) m g (.done a)
  | lent {holder source : String} {timeout : Nat} {gate : Gate} (h : f.gate.tryAcquire = some gate) :
      JobStep f id (.permit holder source (.ask timeout)) .proceed ({ f with gate := gate }.lend holder source)
        (.done (.permit source))
  | called {holder source : String} {timeout : Nat} (h : f.gate.tryAcquire = none) :
      JobStep f id (.permit holder source (.ask timeout)) .proceed { f with gate := f.gate.enqueue id }
        (.permit holder source (.await (f.now + timeout)))
  | granted {holder source : String} {deadline : Nat} {gate : Gate} (h : f.gate.collect id = some gate) :
      JobStep f id (.permit holder source (.await deadline)) .proceed ({ f with gate := gate }.lend holder source)
        (.done (.permit source))
  | late {holder source : String} {deadline : Nat} (h : deadline ≤ f.now) :
      JobStep f id (.permit holder source (.await deadline)) .timeout { f with gate := f.gate.withdraw id }
        (.done (.failed (.captureBusy source)))

theorem jobStep_of_stepBatch {id : Nat} {b : Batch} {m : Move} {j : Job} (h : f.stepBatch id b m = some (g, j)) :
    JobStep f id (.batch b) m g j := by
  unfold stepBatch at h
  split at h
  · next s p m hc =>
    obtain ⟨⟨g', r⟩, hs, h⟩ := Option.map_eq_some_iff.mp h
    have hj : JobStep f id (.batch b) _ g' _ := .start hc (startStep_of_stepStart hs)
    cases r <;> cases h <;> exact hj
  · next hc =>
    split at h
    · next hr => cases h; exact .started hc hr
    · next s rest hr =>
      dsimp only at h
      split at h
      · next hb => cases h; exact .begun hc hr (by simp [hb])
      · next hb => cases h; exact .unmarked hc hr hb
      · next hb =>
        split at h <;> cases h
        · exact .skipped hc hr hb ‹_›
        · exact .begun hc hr (by simp [hb])
  · cases h

theorem jobStep_of_stepSweep {id : Nat} {s : Sweep} {m : Move} {j : Job} (h : f.stepSweep s m = some (g, j)) :
    JobStep f id (.sweep s) m g j := by
  unfold stepSweep at h
  split at h
  · next key p m hc =>
    obtain ⟨⟨g', r⟩, hs, h⟩ := Option.map_eq_some_iff.mp h
    have hj : JobStep f id (.sweep s) _ g' _ := .stop hc (stopStep_of_stepStop hs)
    cases r <;> cases h <;> exact hj
  · next hc =>
    split at h
    · next hr => cases h; exact .swept hc hr
    · next key rest hr => cases h; exact .turned hc hr
  · cases h

theorem jobStep_of_stepChange {id : Nat} {p : ChangePlace} {m : Move} {j : Job} (h : f.stepChange p m = some (g, j)) :
    JobStep f id (.change p) m g j := by
  unfold stepChange at h
  split at h
  · next c =>
    cases c with
    | upsert s => cases h; exact .changing ⟨⟨rfl, rfl, rfl, rfl, rfl, rfl⟩, rfl, rfl⟩
    | replace ss => cases h; exact .changing ⟨⟨rfl, rfl, rfl, rfl, rfl, rfl⟩, rfl, rfl⟩
    | activate name =>
      simp only [change] at h
      cases hc : f.catalog.activate name with
      | ok r => rw [hc] at h; cases h; exact .changing ⟨⟨rfl, rfl, rfl, rfl, rfl, rfl⟩, rfl, rfl⟩
      | error e => rw [hc] at h; cases h; exact .changed (.refl f) nofun
  · cases h; exact .changing (.refl f)
  · cases h; exact .changed ⟨⟨rfl, rfl, rfl, rfl, rfl, rfl⟩, rfl, rfl⟩ nofun
  · cases h

theorem jobStep_of_stepPermit {id : Nat} {holder source : String} {p : PermitPlace} {m : Move} {j : Job}
    (h : f.stepPermit id holder source p m = some (g, j)) : JobStep f id (.permit holder source p) m g j := by
  unfold stepPermit at h
  split at h
  · unfold tryLend at h
    cases hg : f.gate.tryAcquire with
    | some gate => rw [hg] at h; cases h; exact .lent hg
    | none => rw [hg] at h; cases h; exact .called hg
  · obtain ⟨gate, hg, h⟩ := Option.map_eq_some_iff.mp h
    cases h; exact .granted hg
  · split at h <;> cases h
    exact .late ‹_›
  · cases h

theorem jobStep_of_stepJob {id : Nat} {m : Move} (h : f.stepJob id m = some g) :
    ∃ j g' j', f.jobs.get? id = some j ∧ JobStep f id j m g' j' ∧ g = g'.putJob id j' := by
  unfold stepJob at h
  obtain ⟨⟨g', j'⟩, hs, h⟩ := Option.map_eq_some_iff.mp h
  split at hs
  · cases hs
  · cases hs
  · exact ⟨_, g', j', ‹_›, jobStep_of_stepBatch hs, h.symm⟩
  · exact ⟨_, g', j', ‹_›, jobStep_of_stepSweep hs, h.symm⟩
  · exact ⟨_, g', j', ‹_›, jobStep_of_stepChange hs, h.symm⟩
  · exact ⟨_, g', j', ‹_›, jobStep_of_stepPermit hs, h.symm⟩

/-! ## Deeds -/

/-- Two fleets that agree on all that is framed and on their jobs, but that the second may lack one that is done. -/
structure Quiet (f g : Fleet) : Prop extends Framed f g where
  nextJob : g.nextJob = f.nextJob
  jobs : g.jobs = f.jobs ∨ ∃ id a, f.jobs.get? id = some (.done a) ∧ g.jobs = f.jobs.erase id

theorem Kept.quiet (h : f.Kept g) : f.Quiet g := ⟨h.toFramed, h.nextJob, .inl h.jobs⟩

/-- One deed. -/
inductive Performed (f : Fleet) : Deed → Fleet → Prop
  | job {id : Nat} {m : Move} {j j' : Job} {g : Fleet} (hj : f.jobs.get? id = some j) (h : JobStep f id j m g j') :
      Performed f (.event (.job id m)) (g.putJob id j')
  | struck {n generation : Nat} {key : String} {e : Encoder} (he : f.encoder? n = some e)
      (hk : e.keeper = .watcher key generation true false) :
      Performed f (.event (.strike n))
        (f.modifyEncoder n fun e => { e.kill with keeper := .watcher key generation true true })
  | reaped {n generation : Nat} {key : String} {asked : Bool} {e : Encoder} {code : ExitCode}
      (he : f.encoder? n = some e) (hk : e.keeper = .watcher key generation asked true) (hc : e.ended = some code) :
      Performed f (.event (.notice n)) (f.modifyEncoder n fun e => { e with keeper := .gone code })
  | noticed {n generation : Nat} {key : String} {asked : Bool} {e : Encoder} {code : ExitCode}
      (he : f.encoder? n = some e) (hk : e.keeper = .watcher key generation asked false) (hc : e.ended = some code) :
      Performed f (.event (.notice n))
        ((f.recordCrash key generation code).modifyEncoder n fun e => { e with keeper := .gone code })
  | submitted {r : Request} : Performed f (.submit r) (f.submit r).2
  | noted {id : String} : Performed f (.note id) (f.ensure id)
  | marked {id : String} {value : Bool} : Performed f (.mark id value) (f.setManualStop id value)
  | borrowed {holder source : String} {gate : Gate} (h : f.gate.tryAcquire = some gate) :
      Performed f (.borrow holder source) ({ f with gate := gate }.lend holder source)
  | gaveBack {holder : String} : Performed f (.giveBack holder) (f.takeBack holder)
  | exited {n : Nat} {code : ExitCode} : Performed f (.exit n code) (f.exit n code)
  | quiet {d : Deed} {g : Fleet} (hd : d.isQuiet = true) (h : f.Quiet g) : Performed f d g

theorem quiet_collect {id : Nat} {r : Answer × Fleet} (h : f.collect id = some r) : f.Quiet r.2 := by
  obtain ⟨a, ha, rfl⟩ := Option.map_eq_some_iff.mp h
  refine ⟨⟨rfl, rfl, rfl, rfl, rfl, rfl⟩, rfl, .inr ⟨id, a, ?_, rfl⟩⟩
  unfold answer? at ha
  split at ha
  · next hj => cases ha; exact hj
  · cases ha

theorem quiet_forget (f : Fleet) (id : Nat) : f.Quiet (f.forget id) := by
  unfold forget
  split
  · exact (Kept.refl f).quiet
  · next a ha => exact ⟨⟨rfl, rfl, rfl, rfl, rfl, rfl⟩, rfl, .inr ⟨id, a, ha, rfl⟩⟩
  · exact ⟨⟨rfl, rfl, rfl, rfl, rfl, rfl⟩, rfl, .inl rfl⟩

theorem performed_of_notice {n : Nat} (h : f.notice n = some g) : Performed f (.event (.notice n)) g := by
  unfold notice at h
  split at h
  · cases h
  · next e he =>
    split at h
    · next key generation asked struck code hk hc =>
      cases struck <;> cases h
      · exact .noticed he hk hc
      · exact .reaped he hk hc
    · cases h

theorem performed {d : Deed} (h : f.perform? d = some g) : Performed f d g := by
  cases d with
  | event e =>
    cases e with
    | job id m =>
      obtain ⟨j, g', j', hj, hs, rfl⟩ := jobStep_of_stepJob h
      exact .job hj hs
    | strike n =>
      have h : f.strike n = some g := h
      unfold strike at h
      split at h
      · next key generation hk =>
        obtain ⟨e, he, hk⟩ := Option.map_eq_some_iff.mp hk
        cases h; exact .struck he hk
      · cases h
    | notice n => exact performed_of_notice h
    | pump n => exact .quiet rfl (kept_pumpOnce h).quiet
    | pass ms => cases h; exact .quiet rfl (Kept.quiet ⟨⟨rfl, rfl, rfl, rfl, rfl, rfl⟩, rfl, rfl⟩)
  | submit r => cases h; exact .submitted
  | collect id =>
    obtain ⟨r, hr, rfl⟩ := Option.map_eq_some_iff.mp h
    exact .quiet rfl (quiet_collect hr)
  | forget id => cases h; exact .quiet rfl (quiet_forget f id)
  | note id => cases h; exact .noted
  | mark id value => cases h; exact .marked
  | borrow holder source =>
    simp only [perform?, tryLend] at h
    cases hg : f.gate.tryAcquire with
    | some gate => rw [hg] at h; cases h; exact .borrowed hg
    | none => rw [hg] at h; cases h
  | giveBack holder => cases h; exact .gaveBack
  | exit n code => cases h; exact .exited
  | feed n bs => cases h; exact .quiet rfl (kept_modifyPipe f n _).quiet
  | breakPipe n => cases h; exact .quiet rfl (kept_modifyPipe f n _).quiet
  | closePipe n => cases h; exact .quiet rfl (kept_modifyPipe f n _).quiet
  | replan plan =>
    cases h
    refine .quiet rfl (Kept.quiet ?_)
    unfold replan
    split
    · exact ⟨⟨rfl, rfl, rfl, rfl, rfl, rfl⟩, rfl, rfl⟩
    · exact .refl f
  | setFlags flags => cases h; exact .quiet rfl (Kept.quiet ⟨⟨rfl, rfl, rfl, rfl, rfl, rfl⟩, rfl, rfl⟩)
  | replaceProfiles profiles => cases h; exact .quiet rfl (Kept.quiet ⟨⟨rfl, rfl, rfl, rfl, rfl, rfl⟩, rfl, rfl⟩)
  | subscribe id =>
    refine .quiet rfl (Kept.quiet ?_)
    simp only [perform?, subscribe] at h
    cases hs : f.sources.get? id with
    | none => rw [hs] at h; cases h
    | some s => rw [hs] at h; cases h; exact ⟨⟨rfl, rfl, rfl, rfl, rfl, rfl⟩, rfl, rfl⟩
  | receive s => cases h; exact .quiet rfl (Kept.quiet ⟨⟨rfl, rfl, rfl, rfl, rfl, rfl⟩, rfl, rfl⟩)
  | unsubscribe s => cases h; exact .quiet rfl (Kept.quiet ⟨⟨rfl, rfl, rfl, rfl, rfl, rfl⟩, rfl, rfl⟩)
  | files t => cases h; exact .quiet rfl (Kept.quiet ⟨⟨rfl, rfl, rfl, rfl, rfl, rfl⟩, rfl, rfl⟩)
  | processes t => cases h; exact .quiet rfl (Kept.quiet ⟨⟨rfl, rfl, rfl, rfl, rfl, rfl⟩, rfl, rfl⟩)

end Fleet

end EncoderFleet
