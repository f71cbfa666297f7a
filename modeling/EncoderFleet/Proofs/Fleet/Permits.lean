import EncoderFleet.Proofs.Data.Totals
import EncoderFleet.Proofs.Device.Tickets
import EncoderFleet.Proofs.Fleet.Records

/-!
# Where the permits are

A permit is free, or it has a *holder*: a source, a job that starts or stops one, or a caller outside of the fleet.
`DoorMove` lists what a deed can do at the gate and to the holders. It follows that no permit is lost or made up
(`Reachable.balanced`), and that whoever ceases to hold one has given it back or handed it over (`DoorMove.handover`);
the tickets at the gate belong to jobs that wait (`Reachable.tickets`), and none of them waits while a permit is free
(`Reachable.orderly`). `permits_conserved` puts this together.
-/

namespace EncoderFleet

/-- Who can hold a permit. -/
inductive Holder
  | source (key : String)
  | job (id : Nat)
  | caller (name : String)
deriving DecidableEq

/-- How many permits a start carries, with its stop of the old encoder. -/
def StartPlace.load (p : StartPlace) : Nat := p.carried + (p.stop?.map StopPlace.carried).getD 0

namespace Fleet

/-- How many permits a start and a stop carry. -/
def loadOf (s : Option (StartOrder × StartPlace)) (t : Option (StopOrder × StopPlace)) : Nat :=
  (s.map fun s => s.2.carried).getD 0 + (t.map fun t => t.2.carried).getD 0

/-- How many permits someone holds. -/
def holds (f : Fleet) : Holder → Nat
  | .source key => (f.life key).permit.toNat
  | .job id => loadOf (f.start? id) (f.stop? id)
  | .caller name => (f.isLent name).toNat

/-- What a step of a job does at the gate: to the gate itself, to the permit of one source, to the load of the job and
to whether it waits. -/
inductive DoorStep (id : Nat) : Gate → Nat → Nat → Bool → Gate → Nat → Nat → Bool → Prop
  | still {γ : Gate} {b n : Nat} : DoorStep id γ b n false γ b n false
  | acquired {γ γ' : Gate} {b : Nat} (h : γ.tryAcquire = some γ') : DoorStep id γ b 0 false γ' b 1 false
  | joined {γ : Gate} {b : Nat} (h : γ.tryAcquire = none) : DoorStep id γ b 0 false (γ.enqueue id) b 0 true
  | granted {γ γ' : Gate} {b : Nat} (h : γ.collect id = some γ') : DoorStep id γ b 0 true γ' b 1 false
  | withdrew {γ : Gate} {b : Nat} : DoorStep id γ b 0 true (γ.withdraw id) b 0 false
  | released {γ : Gate} {b : Nat} : DoorStep id γ b 1 false γ.release b 0 false
  | recorded {γ : Gate} : DoorStep id γ 0 1 false γ 1 0 false
  | taken {γ : Gate} : DoorStep id γ 1 0 false γ 0 1 false

/-- A caller comes to hold a permit that was just taken at the gate; one that it held before goes back. -/
structure Lends (f : Fleet) (γ : Gate) (g : Fleet) (name : String) : Prop where
  now : g.holds (.caller name) = 1
  gate : f.holds (.caller name) = 0 ∧ g.gate = γ ∨ f.holds (.caller name) = 1 ∧ g.gate = γ.release
  others (a : Holder) (h : a ≠ .caller name) : g.holds a = f.holds a

/-- What a deed does at the gate. -/
inductive DoorMove (f g : Fleet) : Prop
  | quiet (hg : g.gate = f.gate) (hh : ∀ a, g.holds a = f.holds a) (hw : ∀ i, g.waits i = f.waits i)
  | step (id : Nat) (key : String) (hh : ∀ a, a ≠ .job id → a ≠ .source key → g.holds a = f.holds a)
      (hw : ∀ i, i ≠ id → g.waits i = f.waits i)
      (h : DoorStep id f.gate (f.holds (.source key)) (f.holds (.job id)) (f.waits id)
        g.gate (g.holds (.source key)) (g.holds (.job id)) (g.waits id))
  | released (a : Holder) (hg : g.gate = f.gate.release) (ha : f.holds a = 1) (ha' : g.holds a = 0)
      (hh : ∀ b, b ≠ a → g.holds b = f.holds b) (hw : ∀ i, g.waits i = f.waits i)
  | borrowed (name : String) (γ : Gate) (hγ : f.gate.tryAcquire = some γ) (hl : Lends f γ g name)
      (hw : ∀ i, g.waits i = f.waits i)
  | collected (id : Nat) (name : String) (γ : Gate) (hγ : f.gate.collect id = some γ) (hl : Lends f γ g name)
      (hw : ∀ i, i ≠ id → g.waits i = f.waits i)

variable {f g : Fleet}

/-! ## Steps of stops and starts -/

theorem gate_letGo (f : Fleet) (t : Taken) :
    (f.letGo t).gate = (if t.permit then f.gate.release else f.gate) ∧ (f.letGo t).lent = f.lent := by
  have h := kept_stopPump f t.tracked.encoder
  unfold letGo
  dsimp only
  split
  · exact ⟨congrArg Gate.release h.gate, h.lent⟩
  · exact ⟨h.gate, h.lent⟩

theorem StopStep.lent {o : StopOrder} {p : StopPlace} {m : Move} {r : After StopPlace (Option String)}
    (h : StopStep f o p m g r) : g.lent = f.lent := by
  cases h with
  | released => exact (gate_letGo f _).2
  | dropped => split <;> rfl
  | recorded => exact (accounts_recordStop f _ _ _).lent
  | _ => rfl

/-- A stop carries the permit of the encoder that it takes away, and gives it back once. -/
theorem StopStep.doorStep (id : Nat) {o : StopOrder} {p : StopPlace} {m : Move} {r : After StopPlace (Option String)}
    (hl : (f.life o.key).Sound) (h : StopStep f o p m g r) :
    DoorStep id f.gate (f.holds (.source o.key)) p.carried false g.gate (g.holds (.source o.key))
      ((r.place?.map StopPlace.carried).getD 0) false := by
  have still : ∀ {g : Fleet}, g.gate = f.gate → (g.life o.key).permit = (f.life o.key).permit →
      DoorStep id f.gate (f.holds (.source o.key)) p.carried false
        g.gate (g.holds (.source o.key)) p.carried false := by
    intro g hg hk
    rw [hg, show g.holds (.source o.key) = f.holds (.source o.key) from congrArg Bool.toNat hk]
    exact .still
  cases h with
  | unknown => exact still rfl rfl
  | @nothing s hs =>
    exact still rfl (congrArg Life.permit (life_putState_same (s := o.note s) (life_of_state? hs).symm o.key))
  | @taken s t hs ht =>
    have hp : s.permit = true := by
      have := hl.permit
      rw [life_of_state? hs] at this
      exact this.trans (by simp [SourceState.life, ht])
    have h₁ : f.holds (.source o.key) = 1 := by
      simp only [holds, life_of_state? hs, SourceState.life, hp, Bool.toNat_true]
    have h₂ :
        ((f.putState o.key (o.note s).emptied).modifyEncoder t.encoder Encoder.askKill).holds (.source o.key) = 0 :=
      congrArg (fun l => l.permit.toNat) ((life_putState f o.key (o.note s).emptied o.key).trans (if_pos rfl))
    rw [h₁, h₂]
    simp only [After.place?, Option.map_some, Option.getD_some, StopPlace.carried, hp, Bool.toNat_true]
    exact .taken
  | seen => exact still rfl rfl
  | late => exact still rfl rfl
  | @released t code =>
    have hk := congrArg Life.permit (life_of_states (states_letGo f t) o.key)
    cases hp : t.permit with
    | false =>
      have := still (by rw [(gate_letGo f t).1, hp]; rfl) hk
      simpa [StopPlace.carried, After.place?, hp] using this
    | true =>
      rw [show (f.letGo t).gate = f.gate.release by rw [(gate_letGo f t).1, hp]; rfl,
        show (f.letGo t).holds (.source o.key) = f.holds (.source o.key) from congrArg Bool.toNat hk]
      simp only [StopPlace.carried, After.place?, hp, Bool.toNat_true, Option.map_some, Option.getD_some]
      exact .released
  | dropped => exact still (by split <;> rfl) (congrArg Life.permit (life_of_states (by split <;> rfl) o.key))
  | @recorded t code =>
    refine still (accounts_recordStop f _ _ _).gate ?_
    unfold recordStop
    cases hs : f.state? o.key with
    | none => rfl
    | some s =>
      rw [life_of_state? hs]
      refine (congrArg Life.permit ((life_putState f o.key _ o.key).trans (if_pos rfl))).trans ?_
      split <;> rfl

/-- A start carries the permit that it acquired until its source has it or the gate has it back; the stop that is a part
of it carries that of the old encoder. -/
theorem StartStep.doorStep {id : Nat} {o : StartOrder} {p : StartPlace} {m : Move} {r : After StartPlace StartResult}
    (hl : (f.life o.key).Sound) (hc : p.cleared = true → (f.life o.key).tracked = none) (h : StartStep f id o p m g r) :
    DoorStep id f.gate (f.holds (.source o.key)) p.load p.waits g.gate (g.holds (.source o.key))
      ((r.place?.map StartPlace.load).getD 0) (r.place?.any StartPlace.waits) ∧ g.lent = f.lent := by
  have still : ∀ {g : Fleet} {w : Nat}, g.gate = f.gate → g.lent = f.lent →
      (g.life o.key).permit = (f.life o.key).permit → p.load = w → p.waits = false →
      DoorStep id f.gate (f.holds (.source o.key)) p.load p.waits g.gate (g.holds (.source o.key)) w false ∧
        g.lent = f.lent := by
    intro g w hg hlent hk hw hwait
    rw [hg, show g.holds (.source o.key) = f.holds (.source o.key) from congrArg Bool.toNat hk, hw, hwait]
    exact ⟨.still, hlent⟩
  have kept : ∀ {g : Fleet} {w : Nat}, f.Kept g → p.load = w → p.waits = false →
      DoorStep id f.gate (f.holds (.source o.key)) p.load p.waits g.gate (g.holds (.source o.key)) w false ∧
        g.lent = f.lent := fun hk hw hwait =>
    still hk.gate hk.lent (congrArg Life.permit (life_of_states hk.states o.key)) hw hwait
  have back : ∀ {g h : Fleet}, f.Framed g → h.states = g.states → h.gate = g.gate.release → h.lent = g.lent →
      p.load = 1 → p.waits = false →
      DoorStep id f.gate (f.holds (.source o.key)) p.load p.waits h.gate (h.holds (.source o.key)) 0 false ∧
        h.lent = f.lent := by
    intro g h hf hs hg hlent hw hwait
    have hk := congrArg Life.permit (life_of_states (hs.trans hf.states) o.key)
    rw [hg, hf.gate, show h.holds (.source o.key) = f.holds (.source o.key) from congrArg Bool.toNat hk, hw, hwait]
    exact ⟨.released, hlent.trans hf.lent⟩
  cases h with
  | entered => exact still rfl rfl (congrArg Life.permit (life_ensure f _ o.key)) rfl rfl
  | @found e s t hs =>
    refine still rfl rfl (congrArg Life.permit ?_) rfl rfl
    exact life_putState_same (s := { s with manualStop := false }) (life_of_state? hs).symm o.key
  | @retiring e q q' _ _ h =>
    have hd := h.doorStep id (o := ⟨o.key, false, false⟩) hl
    simp only [StartPlace.load, StartPlace.carried, StartPlace.stop?, After.place?, Option.map_some, Option.getD_some,
      Nat.zero_add] at hd ⊢
    exact ⟨hd, h.lent⟩
  | @retired e q _ _ a h =>
    have hd := h.doorStep id (o := ⟨o.key, false, false⟩) hl
    simp only [StartPlace.load, StartPlace.carried, StartPlace.stop?, After.place?, Option.map_some, Option.getD_some,
      Option.map_none, Option.getD_none, Nat.zero_add] at hd ⊢
    exact ⟨hd, h.lent⟩
  | declared =>
    have hg := life_putState f o.key { f.stateOrNew o.source.id with lifecycle := .starting } o.key
    have hk : (f.stateOrNew o.source.id).permit = (f.life o.key).permit :=
      congrArg Life.permit (life_stateOrNew f o.source.id)
    refine still rfl rfl ?_ rfl rfl
    rw [hg, if_pos rfl]
    exact hk
  | @cleared c => exact kept (kept_clearOrphans f c.command) rfl rfl
  | acquired h => exact ⟨.acquired h, rfl⟩
  | waiting h => exact ⟨.joined h, rfl⟩
  | granted h => exact ⟨.granted h, rfl⟩
  | withdrew h => exact ⟨.withdrew, rfl⟩
  | late h => exact ⟨.withdrew, rfl⟩
  | @madeWay c => exact kept (kept_makeWay f c.command) rfl rfl
  | @noWay c => exact back (kept_makeWay f c.command).toFramed rfl rfl rfl rfl rfl
  | @launched c b =>
    have ha := accounts_interrupt f o b
    exact still ha.gate ha.lent (congrArg Life.permit (life_interrupt (hc rfl) b o.key)) rfl rfl
  | failed => exact back (.refl f) rfl rfl rfl rfl rfl
  | @opened c n => exact kept (kept_openHub f o c.command n) rfl rfl
  | @abandoned c n => exact back (kept_stopPump f n).toFramed rfl rfl rfl rfl rfl
  | @committed c n =>
    have h₀ : f.holds (.source o.key) = 0 := by
      have := hl.permit
      rw [hc rfl] at this
      exact congrArg Bool.toNat this
    have h₁ : (f.track o c.command n).1.holds (.source o.key) = 1 :=
      congrArg (fun l => l.permit.toNat) ((life_track f o c.command n o.key).trans (if_pos rfl))
    rw [h₀, h₁]
    exact ⟨.recorded, rfl⟩
  | @restored c =>
    have ha := accounts_restoreLife f o c.prior
    refine still ha.gate ha.lent ?_ rfl rfl
    rw [life_restoreLife]
    split
    · rfl
    · rfl
  | _ => exact still rfl rfl rfl rfl rfl

/-! ## Jobs -/

theorem loadOf_start (o : StartOrder) (p : Option StartPlace) :
    loadOf (p.map fun p => (o, p)) (p.bind o.stop?) = (p.map StartPlace.load).getD 0 := by
  unfold loadOf
  cases p with
  | none => rfl
  | some p => cases hq : p.stop? <;> simp [StartPlace.load, StartOrder.stop?, hq]

theorem loadOf_stop (o : StopOrder) (p : Option StopPlace) :
    loadOf none (p.map fun p => (o, p)) = (p.map StopPlace.carried).getD 0 := by
  unfold loadOf
  cases p <;> simp

theorem waits_batch {b : Batch} {s : Source} {p : StartPlace} (h : b.current = some (s, p)) :
    (Job.batch b).waits = p.waits := by simp [Job.waits, Job.calls, Job.start?, h]

theorem waits_follow (b : Batch) (s : Source) (r : After StartPlace StartResult) :
    (Job.batch (b.follow s r)).waits = r.place?.any StartPlace.waits := by
  cases r <;> rfl

theorem waits_of_get? {id : Nat} {j : Job} (h : f.jobs.get? id = some j) : f.waits id = j.waits := by
  rw [waits, h, Option.any_some]

theorem holds_job_of_get? {id : Nat} {j : Job} (h : f.jobs.get? id = some j) :
    f.holds (.job id) = loadOf j.start? j.stop? := by
  rw [holds, start?_of_get? h, stop?_of_get? h]

theorem holds_source_of_states (h : g.states = f.states) (key : String) :
    g.holds (.source key) = f.holds (.source key) :=
  congrArg (fun l => l.permit.toNat) (life_of_states h key)

theorem holds_caller_of_lent (h : g.lent = f.lent) (name : String) :
    g.holds (.caller name) = f.holds (.caller name) := by
  simp only [holds, isLent, h]

theorem Unmoved.holds_job (h : f.Unmoved g) (id : Nat) : g.holds (.job id) = f.holds (.job id) := by
  simp only [holds, h.start?, h.stop?]

theorem Passed.holds_job {id : Nat} {s : Option (StartOrder × StartPlace)} {t : Option (StopOrder × StopPlace)}
    (h : f.Passed g id s t) (i : Nat) : g.holds (.job i) = if i = id then loadOf s t else f.holds (.job i) := by
  simp only [holds, h.start?, h.stop?]
  split <;> rfl

/-- Lending a permit that was taken at the gate touches no other holder. -/
theorem lends_lend (f : Fleet) (γ : Gate) (name source : String) {g : Fleet}
    (hf : ({ f with gate := γ }.lend name source).Framed g) (hu : f.Unmoved g) : Lends f γ g name := by
  have hs : g.states = f.states := hf.states.trans (lend_scene _ _ _).1
  have hlent : g.lent = f.lent.insert name source := by
    rw [hf.lent]
    unfold lend
    dsimp only
    split <;> rfl
  have hlb : ∀ c, g.isLent c = (decide (c = name) || f.isLent c) := fun c => by
    simp only [isLent, KeyMap.contains, hlent, KeyMap.get?_insert]
    by_cases hc : c = name <;> simp [hc]
  refine ⟨?_, ?_, fun a ha => ?_⟩
  · simp [holds, hlb]
  · rw [hf.gate]
    unfold lend
    cases hb : f.isLent name with
    | false =>
      refine .inl ⟨by simp [holds, hb], ?_⟩
      rw [if_neg (by rw [show isLent { f with gate := γ } name = f.isLent name from rfl, hb]; exact Bool.false_ne_true)]
    | true =>
      refine .inr ⟨by simp [holds, hb], ?_⟩
      rw [if_pos (show isLent { f with gate := γ } name = true from hb)]
      rfl
  · cases a with
    | source key => exact holds_source_of_states hs key
    | job id => exact hu.holds_job id
    | caller c =>
      have hc : c ≠ name := fun hc => ha (by rw [hc])
      simp [holds, hlb, hc]

/-- A step that neither touches the gate nor moves a start or a stop to where it carries something or waits. -/
theorem JobStep.doorMove_quiet {id : Nat} {j j' : Job} {m : Move} (hj : f.jobs.get? id = some j)
    (h : JobStep f id j m g j') (hs : ∀ k, g.life k = f.life k) (hg : g.gate = f.gate) (hl : g.lent = f.lent)
    (hn : loadOf j'.start? j'.stop? = loadOf j.start? j.stop?) (hw : j'.waits = j.waits) :
    DoorMove f (g.putJob id j') := by
  have hf := framed_putJob g id j'
  refine .quiet (hf.gate.trans hg) (fun a => ?_) fun i => ?_
  · cases a with
    | source key =>
      rw [holds_source_of_states hf.states]
      exact congrArg (fun l => l.permit.toNat) (hs key)
    | job i =>
      rw [h.passed.holds_job]
      split
      · next hi => rw [hn, hi, holds_job_of_get? hj]
      · rfl
    | caller name => exact holds_caller_of_lent (hf.lent.trans hl) name
  · rw [h.waits]
    split
    · next hi => rw [hw, hi, waits_of_get? hj]
    · rfl

/-- A step at the gate with a job and its source. -/
theorem JobStep.doorMove_step {id : Nat} {j j' : Job} {m : Move} (key : String) (hj : f.jobs.get? id = some j)
    (h : JobStep f id j m g j') (hs : ∀ k, k ≠ key → g.life k = f.life k) (hl : g.lent = f.lent)
    (hd : DoorStep id f.gate (f.holds (.source key)) (loadOf j.start? j.stop?) j.waits
      g.gate (g.holds (.source key)) (loadOf j'.start? j'.stop?) j'.waits) : DoorMove f (g.putJob id j') := by
  have hf := framed_putJob g id j'
  refine .step id key (fun a ha hk => ?_) (fun i hi => ?_) ?_
  · cases a with
    | source k =>
      rw [holds_source_of_states hf.states]
      exact congrArg (fun l => l.permit.toNat) (hs k fun hk' => hk (by rw [hk']))
    | job i =>
      rw [h.passed.holds_job, if_neg fun hi => ha (by rw [hi])]
    | caller name => exact holds_caller_of_lent (hf.lent.trans hl) name
  · rw [h.waits, if_neg hi]
  · rw [hf.gate, holds_source_of_states hf.states, h.passed.holds_job, if_pos rfl, h.waits, if_pos rfl,
      waits_of_get? hj, holds_job_of_get? hj]
    exact hd

theorem JobStep.doorMove {id : Nat} {j j' : Job} {m : Move} (hr : f.Records) (hj : f.jobs.get? id = some j)
    (h : JobStep f id j m g j') : DoorMove f (g.putJob id j') := by
  have hquiet := h.doorMove_quiet hj
  have hstep := fun key => h.doorMove_step key hj
  have hu := h.unmoved hj
  have hw := h.waits
  have hnone : ∀ {b : Batch}, b.current = none → loadOf (Job.batch b).start? (Job.batch b).stop? = 0 := fun hc => by
    simp [Job.start?, Job.stop?, hc, loadOf]
  have hnone₂ : ∀ {s : Sweep}, s.current = none → loadOf (Job.sweep s).start? (Job.sweep s).stop? = 0 := fun hc => by
    simp [Job.start?, Job.stop?, hc, loadOf]
  have hnone' : ∀ {b : Batch}, b.current = none → (Job.batch b).waits = false := fun hc => by
    simp [Job.waits, Job.calls, Job.start?, hc]
  cases h with
  | @start b s p _ _ r hc h =>
    have hstart := start?_of_get? hj
    have hstop := stop?_of_get? hj
    rw [Job.start?_batch hc] at hstart
    have hcl := hr.untracked hstart
    have hd := h.doorStep (hr _).sound hcl
    refine hstep (b.order s).key (h.lifeStep (hr _).sound hcl).2 hd.2 ?_
    rw [Job.start?_batch hc, Job.stop?_batch hc, Job.start?_follow, Job.stop?_follow, waits_batch hc, waits_follow,
      loadOf_start, show loadOf (some (b.order s, p)) ((b.order s).stop? p) = p.load from loadOf_start _ (some p)]
    exact hd.1
  | @stop s key p _ _ r hc h =>
    have hd := h.doorStep id (hr _).sound
    refine hstep key (h.lifeStep (b := false) (c := false) fun _ h => h).2 h.lent ?_
    rw [Job.stop?_sweep hc, Job.stop?_sweep_follow, show (Job.sweep s).start? = none from rfl,
      show (Job.sweep (s.follow key r)).start? = none from rfl, loadOf_stop,
      show loadOf none (some (s.order key, p)) = p.carried from loadOf_stop _ (some p)]
    exact hd
  | begun hc hr hb => exact hquiet (fun _ => rfl) rfl rfl (hnone hc).symm (hnone' hc).symm
  | @unmarked b s rest hc hr hb =>
    exact hquiet (life_setManualStop f s.id false) rfl rfl (hnone hc).symm (hnone' hc).symm
  | skipped hc hr hb hm => exact hquiet (fun _ => rfl) rfl rfl rfl rfl
  | started hc hr => exact hquiet (fun _ => rfl) rfl rfl (hnone hc).symm (hnone' hc).symm
  | turned hc hr => exact hquiet (fun _ => rfl) rfl rfl (hnone₂ hc).symm rfl
  | swept hc hr => exact hquiet (fun _ => rfl) rfl rfl (hnone₂ hc).symm rfl
  | changing hk => exact hquiet (life_of_states hk.states) hk.gate hk.lent rfl rfl
  | changed hk => exact hquiet (life_of_states hk.states) hk.gate hk.lent rfl rfl
  | @lent holder source _ gate hg =>
    have hf := framed_putJob ({ f with gate := gate }.lend holder source) id (.done (.permit source))
    refine .borrowed holder gate hg (lends_lend f gate holder source hf (hu rfl rfl)) fun i => ?_
    rw [hw]
    split
    · next hi => rw [hi, waits_of_get? hj]; rfl
    · rfl
  | @granted holder source _ gate hg =>
    have hf := framed_putJob ({ f with gate := gate }.lend holder source) id (.done (.permit source))
    refine .collected id holder gate hg (lends_lend f gate holder source hf (hu rfl rfl)) fun i hi => ?_
    rw [hw, if_neg hi]
  | called hg => exact hstep "" (fun _ _ => rfl) rfl (.joined hg)
  | late hd => exact hstep "" (fun _ _ => rfl) rfl .withdrew

/-! ## Deeds -/

theorem SameAgenda.waits (h : f.SameAgenda g) (i : Nat) : g.waits i = f.waits i := by
  rw [Fleet.waits, h.jobs]; rfl

/-- A deed outside of the jobs that leaves all lives, the gate and the lent permits alone. -/
theorem doorMove_of_lives (hs : ∀ k, g.life k = f.life k) (hg : g.gate = f.gate) (hl : g.lent = f.lent)
    (hu : f.Unmoved g) (hw : ∀ i, g.waits i = f.waits i) : DoorMove f g := by
  refine .quiet hg (fun a => ?_) hw
  cases a with
  | source key => exact congrArg (fun l => l.permit.toNat) (hs key)
  | job i => exact hu.holds_job i
  | caller name => exact holds_caller_of_lent hl name

theorem SameAccounts.doorMove (h : f.SameAccounts g) (hs : ∀ k, g.life k = f.life k) : DoorMove f g :=
  doorMove_of_lives hs h.gate h.lent h.unmoved h.waits

/-- A crash takes the permit of the source back, if the encoder was tracked. -/
theorem doorMove_recordCrash (hr : f.Records) {key : String} {generation n : Nat} {code : ExitCode} :
    DoorMove f ((f.recordCrash key generation code).modifyEncoder n fun e => { e with keeper := .gone code }) := by
  have ha := agenda_noticed f key generation n code
  have hlent : (f.recordCrash key generation code).lent = f.lent := by
    unfold recordCrash
    split
    · rfl
    · split
      · split <;> rfl
      · rfl
  rcases life_recordCrash f key generation code with ⟨hl, hg⟩ | ⟨ht, hl, hg⟩
  · exact doorMove_of_lives hl hg hlent ha.unmoved ha.waits
  · have hp : (f.life key).permit = true := (hr key).sound.permit.trans ht
    refine .released (.source key) ?_ ?_ ?_ (fun b hb => ?_) ha.waits
    · exact hg.trans (if_pos hp)
    · exact congrArg Bool.toNat hp
    · exact congrArg (fun l => l.permit.toNat) ((hl key).trans (if_pos rfl))
    · cases b with
      | source k =>
        have hk : k ≠ key := fun hk => hb (by rw [hk])
        exact congrArg (fun l => l.permit.toNat) ((hl k).trans (if_neg hk))
      | job i => exact ha.unmoved.holds_job i
      | caller name => exact holds_caller_of_lent hlent name

theorem doorMove_takeBack (f : Fleet) (name : String) : DoorMove f (f.takeBack name) := by
  have ha := agenda_takeBack f name
  by_cases hb : f.isLent name = true
  · have hg : f.takeBack name = { f.releasePermit with lent := f.lent.erase name } := if_pos hb
    rw [hg] at ha ⊢
    have hlb : ∀ c, isLent { f.releasePermit with lent := f.lent.erase name } c = (!decide (c = name) && f.isLent c) :=
      fun c => by
        simp only [isLent, KeyMap.contains, KeyMap.get?_erase]
        by_cases hc : c = name <;> simp [hc]
    refine .released (.caller name) rfl ?_ ?_ (fun b hn => ?_) ha.waits
    · simp [holds, hb]
    · simp [holds, hlb]
    · cases b with
      | source k => rfl
      | job i => exact ha.unmoved.holds_job i
      | caller c =>
        have hc : c ≠ name := fun hc => hn (by rw [hc])
        simp [holds, hlb, hc]
  · have hg : f.takeBack name = f := if_neg hb
    rw [hg]
    exact SameAccounts.doorMove (.refl f) fun _ => rfl

theorem Performed.doorMove {d : Deed} (hn : f.Numbered) (hr : f.Records) (h : Performed f d g) : DoorMove f g := by
  cases h with
  | job hj h => exact h.doorMove hr hj
  | struck => exact SameAccounts.doorMove ⟨⟨rfl, rfl, rfl, rfl⟩, rfl, rfl⟩ fun _ => rfl
  | reaped => exact SameAccounts.doorMove ⟨⟨rfl, rfl, rfl, rfl⟩, rfl, rfl⟩ fun _ => rfl
  | exited => exact SameAccounts.doorMove ⟨⟨rfl, rfl, rfl, rfl⟩, rfl, rfl⟩ fun _ => rfl
  | noted => exact SameAccounts.doorMove ⟨⟨rfl, rfl, rfl, rfl⟩, rfl, rfl⟩ (life_ensure f _)
  | marked => exact SameAccounts.doorMove ⟨⟨rfl, rfl, rfl, rfl⟩, rfl, rfl⟩ (life_setManualStop f _ _)
  | noticed => exact doorMove_recordCrash hr
  | @submitted r =>
    have hf := framed_submit f r
    have hp : (f.prepare r).gate = f.gate ∧ (f.prepare r).lent = f.lent := by
      unfold prepare
      split <;> exact ⟨rfl, rfl⟩
    refine doorMove_of_lives (fun k => ?_) (hf.gate.trans hp.1) (hf.lent.trans hp.2)
      ⟨hn.start?_submit r, hn.stop?_submit r⟩ (hn.waits_submit r)
    exact (life_of_states hf.states k).trans (life_prepare f r k)
  | @borrowed name source gate hg =>
    have ha := agenda_lend { f with gate := gate } name source
    have ha : f.SameAgenda ({ f with gate := gate }.lend name source) := ⟨ha.settings, ha.lines, ha.jobs, ha.nextJob⟩
    exact .borrowed name gate hg (lends_lend f gate name source (.refl _) ha.unmoved) ha.waits
  | gaveBack => exact doorMove_takeBack f _
  | quiet _ h => exact doorMove_of_lives (life_of_states h.states) h.gate h.lent h.unmoved h.waits

theorem Reachable.doorMove {d : Deed} (h : f.Reachable) (hd : f.perform? d = some g) : DoorMove f g :=
  (performed hd).doorMove h.numbered h.records

/-! ## Handing over -/

theorem holds_le_one (f : Fleet) (a : Holder) : f.holds a ≤ 1 := by
  cases a with
  | source key => exact Bool.toNat_le _
  | caller name => exact Bool.toNat_le _
  | job id =>
    cases hj : f.jobs.get? id with
    | none => simp [holds, start?, stop?, hj, loadOf]
    | some j =>
      rw [holds_job_of_get? hj]
      have hstop : ∀ p : StopPlace, p.carried ≤ 1 := fun p => by
        cases p <;> first | exact Nat.zero_le 1 | exact Bool.toNat_le _
      cases j with
      | batch b =>
        cases hc : b.current with
        | none => simp [Job.start?, Job.stop?, hc, loadOf]
        | some c =>
          obtain ⟨s, p⟩ := c
          rw [Job.start?_batch hc, Job.stop?_batch hc]
          refine (loadOf_start (b.order s) (some p)).trans_le ?_
          cases p with
          | retire e q => simpa [StartPlace.load, StartPlace.carried, StartPlace.stop?] using hstop q
          | _ => simp [StartPlace.load, StartPlace.carried, StartPlace.stop?]
      | sweep s =>
        cases hc : s.current with
        | none => simp [Job.start?, Job.stop?, hc, loadOf]
        | some c =>
          obtain ⟨key, p⟩ := c
          rw [Job.stop?_sweep hc]
          exact (loadOf_stop (s.order key) (some p)).trans_le (hstop p)
      | _ => exact Nat.zero_le 1

/-- Whoever ceases to hold a permit has given it back, once, or handed it over to one who held none. -/
theorem DoorMove.handover (h : DoorMove f g) {a : Holder} (ha : g.holds a < f.holds a) :
    g.gate = f.gate.release ∧ (∀ b, b ≠ a → g.holds b = f.holds b) ∨
      g.gate = f.gate ∧ ∃ b, b ≠ a ∧ f.holds b = 0 ∧ g.holds b = 1 ∧
        ∀ c, c ≠ a → c ≠ b → g.holds c = f.holds c := by
  cases h with
  | quiet hg hh hw => exact absurd (hh a) (by omega)
  | released b hg hb hb' hh hw =>
    have hab : a = b := Decidable.byContradiction fun hab => absurd (hh a hab) (by omega)
    subst hab
    exact .inl ⟨hg, hh⟩
  | borrowed name γ hγ hl hw =>
    by_cases hab : a = .caller name
    · have := holds_le_one f a
      have := hl.now
      rw [← hab] at this
      omega
    · exact absurd (hl.others a hab) (by omega)
  | collected id name γ hγ hl hw =>
    by_cases hab : a = .caller name
    · have := holds_le_one f a
      have := hl.now
      rw [← hab] at this
      omega
    · exact absurd (hl.others a hab) (by omega)
  | step id key hh hw h =>
    -- The one who ceases to hold a permit is the job or the source of the step.
    have hab : a = .job id ∨ a = .source key := by
      by_contra hn
      rw [not_or] at hn
      exact absurd (hh a hn.1 hn.2) (by omega)
    generalize f.gate = γ at h
    generalize g.gate = γ' at h
    generalize hb : f.holds (.source key) = b at h
    generalize hb' : g.holds (.source key) = b' at h
    generalize hn : f.holds (.job id) = n at h
    generalize hn' : g.holds (.job id) = n' at h
    generalize f.waits id = w at h
    generalize g.waits id = w' at h
    cases h with
    | released =>
      rcases hab with rfl | rfl
      · refine .inl ⟨rfl, fun c hc => ?_⟩
        by_cases hk : c = .source key
        · rw [hk, hb, hb']
        · exact hh c hc hk
      · omega
    | recorded =>
      rcases hab with rfl | rfl
      · exact .inr ⟨rfl, .source key, nofun, hb, hb', hh⟩
      · omega
    | taken =>
      rcases hab with rfl | rfl
      · omega
      · exact .inr ⟨rfl, .job id, nofun, hn, hn', fun c h₁ h₂ => hh c h₂ h₁⟩
    | _ => rcases hab with rfl | rfl <;> omega

/-! ## Tickets -/

/-- The tickets at the gate are distinct, and belong to jobs that wait. -/
structure Tickets (f : Fleet) : Prop where
  nodup : f.gate.tickets.Nodup
  waits {t : Nat} (h : t ∈ f.gate.tickets) : f.waits t = true

theorem Tickets.of_perm (h : f.Tickets) (hp : g.gate.tickets.Perm f.gate.tickets)
    (hw : ∀ i, f.waits i = true → g.waits i = true) : g.Tickets :=
  ⟨hp.nodup_iff.mpr h.nodup, fun ht => hw _ (h.waits (hp.mem_iff.mp ht))⟩

theorem Tickets.of_cons {id : Nat} (h : f.Tickets) (hp : g.gate.tickets.Perm (id :: f.gate.tickets))
    (hf : f.waits id = false) (hg : g.waits id = true) (hw : ∀ i, i ≠ id → g.waits i = f.waits i) : g.Tickets := by
  have hid : id ∉ f.gate.tickets := fun hm => by
    rw [h.waits hm] at hf
    cases hf
  refine ⟨hp.nodup_iff.mpr (List.nodup_cons.mpr ⟨hid, h.nodup⟩), fun {t} ht => ?_⟩
  rcases List.mem_cons.mp (hp.mem_iff.mp ht) with rfl | ht
  · exact hg
  · rw [hw t fun h => hid (h ▸ ht)]
    exact h.waits ht

theorem Tickets.of_erase {id : Nat} (h : f.Tickets) (hp : g.gate.tickets.Perm (f.gate.tickets.erase id))
    (hw : ∀ i, i ≠ id → g.waits i = f.waits i) : g.Tickets := by
  refine ⟨hp.nodup_iff.mpr (h.nodup.erase id), fun {t} ht => ?_⟩
  obtain ⟨hne, ht⟩ := h.nodup.mem_erase_iff.mp (hp.mem_iff.mp ht)
  rw [hw t hne]
  exact h.waits ht

theorem Lends.tickets {γ : Gate} {name : String} (h : Lends f γ g name) : g.gate.tickets.Perm γ.tickets := by
  rcases h.gate with ⟨-, hg⟩ | ⟨-, hg⟩
  · rw [hg]
  · rw [hg]
    exact γ.tickets_release

theorem Tickets.move (h : f.Tickets) (hm : DoorMove f g) : g.Tickets := by
  cases hm with
  | quiet hg hh hw => exact h.of_perm (by rw [hg]) fun i hi => (hw i).trans hi
  | released a hg ha ha' hh hw =>
    exact h.of_perm (by rw [hg]; exact f.gate.tickets_release) fun i hi => (hw i).trans hi
  | borrowed name γ hγ hl hw =>
    refine h.of_perm (hl.tickets.trans ?_) fun i hi => (hw i).trans hi
    rw [(Gate.tryAcquire_eq hγ).2.2.1]
  | collected id name γ hγ hl hw => exact h.of_erase (hl.tickets.trans (Gate.collect_eq hγ).2.2) hw
  | step id key hh hw hs =>
    have hall : f.waits id = g.waits id → ∀ i, f.waits i = true → g.waits i = true := fun he i hi => by
      by_cases hid : i = id
      · rw [hid] at hi ⊢; rw [← he]; exact hi
      · rw [hw i hid]; exact hi
    generalize hγ : f.gate = γ at hs
    generalize hγ' : g.gate = γ' at hs
    generalize f.holds (.source key) = b at hs
    generalize g.holds (.source key) = b' at hs
    generalize f.holds (.job id) = n at hs
    generalize g.holds (.job id) = n' at hs
    generalize hv : f.waits id = v at hs
    generalize hv' : g.waits id = v' at hs
    have hsame : v = v' → g.gate.tickets.Perm f.gate.tickets → g.Tickets := fun he hp =>
      h.of_perm hp (hall (by rw [hv, hv', he]))
    cases hs with
    | still => exact hsame rfl (by rw [hγ, hγ'])
    | acquired ha => exact hsame rfl (by rw [hγ, hγ', (Gate.tryAcquire_eq ha).2.2.1])
    | joined => exact h.of_cons (by rw [hγ, hγ']; exact γ.tickets_enqueue id) hv hv' hw
    | granted hc => exact h.of_erase (by rw [hγ, hγ']; exact (Gate.collect_eq hc).2.2) hw
    | withdrew => exact h.of_erase (by rw [hγ, hγ']; exact γ.tickets_withdraw id) hw
    | released => exact hsame rfl (by rw [hγ, hγ']; exact γ.tickets_release)
    | recorded => exact hsame rfl (by rw [hγ, hγ'])
    | taken => exact hsame rfl (by rw [hγ, hγ'])

theorem Reachable.tickets (h : f.Reachable) : f.Tickets := by
  induction h with
  | fresh => exact ⟨.nil, nofun⟩
  | perform hr hd ih => exact ih.move (hr.doorMove hd)

/-! ## Order at the gate -/

theorem Lends.orderly {γ : Gate} {name : String} (h : Lends f γ g name) (ho : γ.Orderly) : g.gate.Orderly := by
  rcases h.gate with ⟨-, hg⟩ | ⟨-, hg⟩
  · exact hg ▸ ho
  · exact hg ▸ ho.release

theorem DoorMove.orderly (h : DoorMove f g) (ho : f.gate.Orderly) : g.gate.Orderly := by
  cases h with
  | quiet hg => exact hg ▸ ho
  | released a hg => exact hg ▸ ho.release
  | borrowed name γ hγ hl => exact hl.orderly (ho.tryAcquire hγ)
  | collected id name γ hγ hl => exact hl.orderly (ho.collect hγ)
  | step id key hh hw h =>
    generalize f.gate = γ at ho h
    generalize g.gate = γ' at h ⊢
    generalize f.holds (.source key) = b at h
    generalize g.holds (.source key) = b' at h
    generalize f.holds (.job id) = n at h
    generalize g.holds (.job id) = n' at h
    generalize f.waits id = w at h
    generalize g.waits id = w' at h
    cases h with
    | acquired hγ => exact ho.tryAcquire hγ
    | joined hγ => exact Gate.orderly_enqueue hγ id
    | granted hγ => exact ho.collect hγ
    | withdrew => exact ho.withdraw id
    | released => exact ho.release
    | _ => exact ho

/-- No ticket waits while a permit is free. -/
theorem Reachable.orderly (h : f.Reachable) : f.gate.Orderly := by
  induction h with
  | fresh => exact fun _ => rfl
  | perform hr hd ih => exact (hr.doorMove hd).orderly ih

end Fleet

end EncoderFleet
