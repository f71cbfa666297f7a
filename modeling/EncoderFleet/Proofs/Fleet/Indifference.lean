import EncoderFleet.Proofs.Fleet.Seclusion

/-!
# What a step does not look at

A step of a start or of a stop neither reads nor writes the jobs of its fleet: it is told the number of its own job and
where that stands, and answers where it stands afterwards. Nor does it look at the configured sources, but only at the
one that it was told to start. So it does the same amid other jobs and other sources (`stepStop_amid`,
`stepStart_amid`), and so does all that concerns neither (`perform?_amid`).

Two fleets are *beside* each other when they differ in nothing but one job. As long as the same start stands at the same
place in both, they stay beside each other: in what happens aside (`Beside.aside`) and in what the start does
(`Beside.start`).
-/

namespace EncoderFleet

/-- Deeds that concern neither jobs nor the configured sources. -/
def Deed.isApart : Deed → Bool
  | .event (.job _ _) | .submit _ | .collect _ | .forget _ | .subscribe _ => false
  | _ => true

namespace Fleet

/-- The fleet amid other jobs, of which others are orphaned, and with other sources configured. -/
def amid (f : Fleet) (jobs : KeyMap Nat Job) (nextJob : Nat) (orphaned : List Nat) (sources : Sources) : Fleet :=
  { f with jobs := jobs, nextJob := nextJob, orphaned := orphaned, sources := sources }

variable (f : Fleet) (J : KeyMap Nat Job) (k : Nat) (O : List Nat) (S : Sources)

@[simp] theorem state?_amid (key : String) : (f.amid J k O S).state? key = f.state? key := rfl

@[simp] theorem encoder?_amid (n : Nat) : (f.amid J k O S).encoder? n = f.encoder? n := rfl

@[simp] theorem gate_amid : (f.amid J k O S).gate = f.gate := rfl

@[simp] theorem table_amid : (f.amid J k O S).table = f.table := rfl

@[simp] theorem files_amid : (f.amid J k O S).files = f.files := rfl

@[simp] theorem launcher_amid : (f.amid J k O S).launcher = f.launcher := rfl

@[simp] theorem now_amid : (f.amid J k O S).now = f.now := rfl

@[simp] theorem overtaken_amid (o : StartOrder) (epoch : Nat) :
    (f.amid J k O S).overtaken o epoch = f.overtaken o epoch := rfl

/-! ## Operations -/

theorem stopPump_amid (n : Nat) : (f.amid J k O S).stopPump n = (f.stopPump n).amid J k O S := by
  unfold stopPump
  rw [encoder?_amid]
  cases (f.encoder? n).bind Encoder.pump <;> rfl

theorem takeEncoder_amid (o : StopOrder) :
    (f.amid J k O S).takeEncoder o = ((f.takeEncoder o).1.amid J k O S, (f.takeEncoder o).2) := by
  unfold takeEncoder
  rw [state?_amid]
  cases f.state? o.key with
  | none => rfl
  | some s =>
    obtain ⟨key, manual, overtakes⟩ := o
    cases ht : s.tracked <;> cases manual <;> cases overtakes <;>
      simp only [ht, if_true, Bool.false_eq_true, if_false] <;> rfl

theorem letGo_amid (t : Taken) : (f.amid J k O S).letGo t = (f.letGo t).amid J k O S := by
  unfold letGo
  rw [stopPump_amid]
  cases t.permit <;> rfl

theorem recordStop_amid (key : String) (t : Taken) (code : ExitCode) :
    (f.amid J k O S).recordStop key t code = (f.recordStop key t code).amid J k O S := by
  unfold recordStop
  rw [state?_amid]
  cases f.state? key <;> rfl

theorem stepStop_amid (o : StopOrder) (p : StopPlace) (m : Move) :
    (f.amid J k O S).stepStop o p m = (f.stepStop o p m).map fun r => (r.1.amid J k O S, r.2) := by
  cases p with
  | take =>
    cases m with
    | proceed => exact congrArg some (takeEncoder_amid f J k O S o)
    | _ => rfl
  | reap t deadline =>
    cases m with
    | proceed =>
      simp only [stepStop, encoder?_amid, Option.map_map]
      rfl
    | cancel => rfl
    | timeout =>
      simp only [stepStop, now_amid, apply_ite (Option.map _)]
      rfl
  | release t code =>
    cases m with
    | proceed => simp only [stepStop, letGo_amid, Option.map_some]
    | _ => rfl
  | dropHub t code =>
    cases m with
    | proceed =>
      simp only [stepStop, Option.map_some]
      split <;> rfl
    | _ => rfl
  | record t code =>
    cases m with
    | proceed => simp only [stepStop, recordStop_amid, Option.map_some]
    | _ => rfl

theorem clearOrphans_amid (c : Command) : (f.amid J k O S).clearOrphans c = (f.clearOrphans c).amid J k O S := by
  unfold clearOrphans
  rw [table_amid]
  cases f.table with
  | none => rfl
  | some t =>
    show (if f.settings.killOrphans then _ else _) = _
    dsimp only
    split <;> rfl

theorem makeWay_amid (c : Command) :
    (f.amid J k O S).makeWay c = ((f.makeWay c).1.amid J k O S, (f.makeWay c).2) := by
  unfold makeWay
  cases c.target <;> rfl

theorem interrupt_amid (o : StartOrder) (b : Behaviour) :
    (f.amid J k O S).interrupt o b = (f.interrupt o b).amid J k O S := by
  unfold interrupt
  cases b.stopMeanwhile with
  | none => rfl
  | some manual =>
    cases manual with
    | false => exact congrArg Prod.fst (takeEncoder_amid f J k O S _)
    | true => exact congrArg Prod.fst (takeEncoder_amid (f.ensure o.source.id) J k O S _)

theorem launch_amid (o : StartOrder) (c : Command) :
    (f.amid J k O S).launch o c = ((f.launch o c).1.amid J k O S, (f.launch o c).2) := by
  unfold launch
  rw [launcher_amid, files_amid]
  cases f.launcher.plan f.files c with
  | fails => rfl
  | runs b =>
    dsimp only
    rw [interrupt_amid]
    rfl

theorem openHub_amid (o : StartOrder) (c : Command) (n : Nat) :
    (f.amid J k O S).openHub o c n = (f.openHub o c n).amid J k O S := by
  -- What the hubs are does not matter to the encoder either.
  have hencoder : ∀ (g : Fleet) (H : Hubs), Fleet.encoder? { g with hubs := H } n = g.encoder? n := fun _ _ => rfl
  unfold openHub
  split
  · dsimp only
    rw [hencoder (f.amid J k O S), hencoder f, encoder?_amid, now_amid]
    cases (f.encoder? n).bind fun e => e.behaviour.stdout with
    | none => rfl
    | some => cases Decoder.ofMode? f.now c.mode <;> rfl
  · rfl

theorem abandon_amid (n : Nat) : (f.amid J k O S).abandon n = (f.abandon n).amid J k O S := by
  unfold abandon
  rw [stopPump_amid]
  rfl

theorem restoreLife_amid (o : StartOrder) (prior : Lifecycle) :
    (f.amid J k O S).restoreLife o prior = (f.restoreLife o prior).amid J k O S := by
  unfold restoreLife
  rw [state?_amid]
  cases f.state? o.key with
  | none => rfl
  | some s =>
    dsimp only
    split <;> rfl

theorem alreadyRunning?_amid (o : StartOrder) :
    (f.amid J k O S).alreadyRunning? o = (f.alreadyRunning? o).map fun r => (r.1.amid J k O S, r.2) := by
  unfold alreadyRunning?
  rw [state?_amid]
  cases f.state? o.key with
  | none => rfl
  | some s =>
    cases ht : s.tracked with
    | none => simp only [ht, Option.map_none]
    | some t =>
      simp only [ht]
      split <;> rfl

theorem recordCrash_amid (key : String) (generation : Nat) (code : ExitCode) :
    (f.amid J k O S).recordCrash key generation code = (f.recordCrash key generation code).amid J k O S := by
  unfold recordCrash
  rw [state?_amid]
  cases f.state? key with
  | none => rfl
  | some s =>
    dsimp only
    split
    · cases s.permit <;> rfl
    · rfl

/-! ## Steps -/

theorem stepStart_amid (id : Nat) (o : StartOrder) (p : StartPlace) (m : Move) :
    (f.amid J k O S).stepStart id o p m = (f.stepStart id o p m).map fun r => (r.1.amid J k O S, r.2) := by
  cases p with
  | enter =>
    cases m with
    | proceed =>
      simp only [stepStart, apply_ite (Option.map _)]
      rfl
    | _ => rfl
  | turn e =>
    cases m with
    | proceed | cancel =>
      simp only [stepStart, overtaken_amid, apply_ite (Option.map _)]
      rfl
    | timeout => rfl
  | look e =>
    cases m with
    | proceed =>
      simp only [stepStart, alreadyRunning?_amid]
      cases f.alreadyRunning? o <;> rfl
    | _ => rfl
  | retire e p =>
    simp only [stepStart, stepStop_amid, Option.map_map]
    rfl
  | clear c =>
    cases m with
    | proceed => simp only [stepStart, clearOrphans_amid, Option.map_some]
    | _ => rfl
  | ask c =>
    cases m with
    | proceed =>
      simp only [stepStart, gate_amid]
      cases f.gate.tryAcquire <;> rfl
    | cancel =>
      simp only [stepStart, overtaken_amid, apply_ite (Option.map _)]
      rfl
    | timeout => rfl
  | await c deadline =>
    cases m with
    | proceed =>
      simp only [stepStart, gate_amid, Option.map_map]
      rfl
    | cancel | timeout =>
      simp only [stepStart, overtaken_amid, now_amid, apply_ite (Option.map _)]
      rfl
  | makeWay c =>
    cases m with
    | proceed =>
      simp only [stepStart, makeWay_amid]
      rcases f.makeWay c.command with ⟨g, _ | reason⟩ <;> rfl
    | _ => rfl
  | launch c =>
    cases m with
    | proceed =>
      simp only [stepStart, launch_amid]
      rcases f.launch o c.command with ⟨g, fault | n⟩ <;> rfl
    | _ => rfl
  | openHub c n =>
    cases m with
    | proceed => simp only [stepStart, openHub_amid, Option.map_some]
    | _ => rfl
  | commit c n =>
    cases m with
    | proceed =>
      simp only [stepStart, overtaken_amid, abandon_amid, apply_ite (Option.map _)]
      rfl
    | _ => rfl
  | restore c failure =>
    cases m with
    | proceed => simp only [stepStart, restoreLife_amid, Option.map_some]
    | _ => rfl
  | line | declare | leave => cases m <;> rfl

/-! ## What happens aside -/

theorem strike_amid (n : Nat) : (f.amid J k O S).strike n = (f.strike n).map fun g => g.amid J k O S := by
  unfold strike
  rw [encoder?_amid]
  cases (f.encoder? n).map Encoder.keeper with
  | none => rfl
  | some keeper =>
    cases keeper with
    | watcher key generation asked struck => cases asked <;> cases struck <;> rfl
    | _ => rfl

theorem notice_amid (n : Nat) : (f.amid J k O S).notice n = (f.notice n).map fun g => g.amid J k O S := by
  unfold notice
  rw [encoder?_amid]
  cases f.encoder? n with
  | none => rfl
  | some e =>
    dsimp only
    cases e.keeper with
    | watcher key generation asked struck =>
      cases e.ended with
      | none => rfl
      | some code =>
        dsimp only
        rw [recordCrash_amid]
        cases struck <;> rfl
    | _ => rfl

theorem pumpOnce_amid (n : Nat) : (f.amid J k O S).pumpOnce n = (f.pumpOnce n).map fun g => g.amid J k O S := by
  unfold pumpOnce
  rw [encoder?_amid]
  cases f.encoder? n with
  | none => rfl
  | some e =>
    dsimp only
    cases e.pump with
    | none => rfl
    | some p =>
      simp only [stopPump_amid, apply_ite (Option.map _)]
      rfl

theorem replan_amid (plan : LaunchPlan) : (f.amid J k O S).replan plan = (f.replan plan).amid J k O S := by
  unfold replan
  rw [launcher_amid]
  cases f.launcher <;> rfl

theorem lend_amid (holder source : String) :
    (f.amid J k O S).lend holder source = (f.lend holder source).amid J k O S := by
  unfold lend
  show (if f.isLent holder then _ else _) = _
  dsimp only
  split <;> rfl

theorem tryLend_amid (holder source : String) :
    ((f.amid J k O S).tryLend holder source).toOption =
      (f.tryLend holder source).toOption.map fun g => g.amid J k O S := by
  unfold tryLend
  rw [gate_amid]
  cases f.gate.tryAcquire with
  | none => rfl
  | some gate => exact congrArg some (lend_amid { f with gate := gate } J k O S holder source)

theorem takeBack_amid (holder : String) :
    (f.amid J k O S).takeBack holder = (f.takeBack holder).amid J k O S := by
  unfold takeBack
  show (if f.isLent holder then _ else _) = _
  split <;> rfl

/-- What concerns neither jobs nor configured sources happens in the same way amid others. -/
theorem perform?_amid {d : Deed} (hd : d.isApart = true) :
    (f.amid J k O S).perform? d = (f.perform? d).map fun g => g.amid J k O S := by
  cases d with
  | event e =>
    cases e with
    | job => cases hd
    | strike n => exact strike_amid f J k O S n
    | notice n => exact notice_amid f J k O S n
    | pump n => exact pumpOnce_amid f J k O S n
    | pass ms => rfl
  | submit | collect | forget | subscribe => cases hd
  | borrow holder source => exact tryLend_amid f J k O S holder source
  | giveBack holder => exact congrArg some (takeBack_amid f J k O S holder)
  | replan plan => exact congrArg some (replan_amid f J k O S plan)
  | _ => rfl

variable {f}
variable {f' g : Fleet} {d : Deed} {id next : Nat} {j? : Option Job}

/-- What concerns neither jobs nor configured sources changes none of them. -/
theorem unchanged_of_isApart (hi : d.isApart = true) (hd : f.perform? d = some g) :
    g.jobs = f.jobs ∧ g.orphaned = f.orphaned ∧ g.sources = f.sources := by
  have h := perform?_amid f f.jobs f.nextJob f.orphaned f.sources hi
  rw [show f.amid f.jobs f.nextJob f.orphaned f.sources = f from rfl, hd, Option.map_some] at h
  have hg : g = g.amid f.jobs f.nextJob f.orphaned f.sources := Option.some.inj h
  rw [hg]
  exact ⟨rfl, rfl, rfl⟩

theorem sources_of_stepStop {o : StopOrder} {p : StopPlace} {m : Move} {r : After StopPlace (Option String)}
    (hs : f.stepStop o p m = some (g, r)) : g.sources = f.sources := by
  have h := stepStop_amid f f.jobs f.nextJob f.orphaned f.sources o p m
  rw [show f.amid f.jobs f.nextJob f.orphaned f.sources = f from rfl, hs, Option.map_some] at h
  have hg : g = g.amid f.jobs f.nextJob f.orphaned f.sources := congrArg Prod.fst (Option.some.inj h)
  rw [hg]
  rfl

theorem unchanged_of_stepStart {o : StartOrder} {p : StartPlace} {m : Move} {r : After StartPlace StartResult}
    (hs : f.stepStart id o p m = some (g, r)) : g.orphaned = f.orphaned ∧ g.sources = f.sources := by
  have h := stepStart_amid f f.jobs f.nextJob f.orphaned f.sources id o p m
  rw [show f.amid f.jobs f.nextJob f.orphaned f.sources = f from rfl, hs, Option.map_some] at h
  have hg : g = g.amid f.jobs f.nextJob f.orphaned f.sources := congrArg Prod.fst (Option.some.inj h)
  rw [hg]
  exact ⟨rfl, rfl⟩

/-- A step of a batch with a start under way is the step of the start. -/
theorem stepJob_start {b : Batch} {s : Source} {p : StartPlace} (hj : f.jobs.get? id = some (.batch b))
    (hb : b.current = some (s, p)) (m : Move) :
    f.stepJob id m = (f.stepStart id (b.order s) p m).map fun r => r.1.putJob id (.batch (b.follow s r.2)) := by
  simp only [stepJob, hj, stepBatch, hb, Option.map_map]
  refine congrArg (fun F => Option.map F _) (funext fun r => ?_)
  obtain ⟨g, p | result⟩ := r <;> rfl

/-! ## Two fleets beside each other -/

/-- The second fleet is the first one, but for the job with a number, and for the number that the next job will get. -/
structure Beside (id : Nat) (j? : Option Job) (next : Nat) (f g : Fleet) : Prop where
  same : g = f.amid g.jobs next f.orphaned f.sources
  own : g.jobs.get? id = j?
  others {i : Nat} (hi : i ≠ id) : g.jobs.get? i = f.jobs.get? i

/-- The answer of another job may be taken in both. -/
theorem Beside.collect {i : Nat} {a : Answer} (h : Beside id j? next f g) (hi : i ≠ id) (ha : f.answer? i = some a) :
    g.answer? i = some a ∧ Beside id j? next { f with jobs := f.jobs.erase i } { g with jobs := g.jobs.erase i } := by
  refine ⟨?_, ?_, ?_, fun hk => ?_⟩
  · rw [← ha, answer?, answer?, h.others hi]
  · rw [h.same]
    rfl
  · rw [KeyMap.get?_erase, if_neg hi.symm]
    exact h.own
  · rw [KeyMap.get?_erase, KeyMap.get?_erase, h.others hk]

/-- Nobody may be interested in another job any more in both. -/
theorem Beside.forget {i : Nat} (h : Beside id j? next f g) (hi : i ≠ id) :
    Beside id j? next (f.forget i) (g.forget i) := by
  unfold Fleet.forget
  rw [h.others hi]
  cases f.jobs.get? i with
  | none => exact h
  | some j =>
    cases j with
    | done a =>
      refine ⟨?_, ?_, fun hk => ?_⟩
      · rw [h.same]
        rfl
      · show (g.jobs.erase i).get? id = j?
        rw [KeyMap.get?_erase, if_neg hi.symm]
        exact h.own
      · show (g.jobs.erase i).get? _ = (f.jobs.erase i).get? _
        rw [KeyMap.get?_erase, KeyMap.get?_erase, h.others hk]
    | _ =>
      refine ⟨?_, h.own, h.others⟩
      rw [h.same]
      rfl

/-- What happens aside happens in both. -/
theorem Beside.aside (h : Beside id j? next f g) (ha : f.leavesAlone id d = true)
    (hn : ∀ i m, d ≠ .event (.job i m)) (hcollect : d ≠ .collect id) (hforget : d ≠ .forget id)
    (hd : f.perform? d = some f') :
    ∃ g', g.leavesAlone id d = true ∧ g.perform? d = some g' ∧ Beside id j? next f' g' := by
  -- Only for steps of jobs it matters which jobs there are.
  have hag : g.leavesAlone id d = true := by
    rw [h.same]
    cases d with
    | event e =>
      cases e with
      | job i m => exact absurd rfl (hn i m)
      | _ => exact ha
    | _ => exact ha
  by_cases hi : d.isApart = true
  · obtain ⟨hjobs, horphaned, hsources⟩ := unchanged_of_isApart hi hd
    refine ⟨f'.amid g.jobs next f'.orphaned f'.sources, hag, ?_, rfl, h.own, fun hne => ?_⟩
    · rw [h.same, perform?_amid f _ _ _ _ hi, hd, horphaned, hsources]
      rfl
    · rw [hjobs]
      exact h.others hne
  · cases d with
    | event e =>
      cases e with
      | job i m => exact absurd rfl (hn i m)
      | _ => exact absurd rfl hi
    | submit | subscribe => cases ha
    | collect i =>
      have hne : i ≠ id := fun hii => hcollect (hii ▸ rfl)
      obtain ⟨r, hr, rfl⟩ := Option.map_eq_some_iff.mp hd
      obtain ⟨a, hanswer, rfl⟩ := Option.map_eq_some_iff.mp hr
      obtain ⟨hanswer', hb⟩ := h.collect hne hanswer
      refine ⟨_, hag, ?_, hb⟩
      simp only [perform?, Fleet.collect, hanswer', Option.map_some]
    | forget i =>
      have hne : i ≠ id := fun hii => hforget (hii ▸ rfl)
      cases hd
      exact ⟨g.forget i, hag, rfl, h.forget hne⟩
    | _ => exact absurd rfl hi

/-- A start that stands at the same place in both fleets does the same in both. -/
theorem Beside.start {b c : Batch} {s : Source} {p : StartPlace} {m : Move} (h : Beside id (some (.batch c)) next f g)
    (hj : f.jobs.get? id = some (.batch b)) (hb : b.current = some (s, p)) (hc : c.current = some (s, p))
    (ho : c.order s = b.order s) (hd : f.perform? (.event (.job id m)) = some f') :
    ∃ f₁ r g', StartStep f id (b.order s) p m f₁ r ∧ f' = f₁.putJob id (.batch (b.follow s r)) ∧
      g.perform? (.event (.job id m)) = some g' ∧ Beside id (some (.batch (c.follow s r))) next f' g' := by
  obtain ⟨⟨f₁, r⟩, hstep, rfl⟩ := Option.map_eq_some_iff.mp ((stepJob_start hj hb m).symm.trans hd)
  have step := startStep_of_stepStart hstep
  refine ⟨f₁, r, (f₁.amid g.jobs next f.orphaned f.sources).putJob id (.batch (c.follow s r)), step, rfl, ?_, ?_, ?_,
    fun hi => ?_⟩
  · rw [show g.perform? (.event (.job id m)) = g.stepJob id m from rfl, stepJob_start h.own hc, ho,
      congrArg (fun g => g.stepStart id (b.order s) p m) h.same, stepStart_amid, hstep]
    rfl
  · obtain ⟨horphaned, hsources⟩ := unchanged_of_stepStart hstep
    rw [← horphaned, ← hsources]
    rfl
  · exact KeyMap.get?_insert_self ..
  · show (g.jobs.insert id _).get? _ = (f₁.jobs.insert id _).get? _
    rw [KeyMap.get?_insert_of_ne _ _ hi, KeyMap.get?_insert_of_ne _ _ hi, step.jobs.1, h.others hi]

end Fleet

end EncoderFleet
