import EncoderFleet.Proofs.Fleet.FailedStarts
import EncoderFleet.Proofs.Fleet.Freshness

/-!
# What a start does to the hub of its source

A stop may overtake a start. The start finds out while it waits for its turn, while it waits for a permit, or when it is
about to commit. By then it has launched its encoder and, if the output is piped, put a new hub in the place of the one
that was registered for the source.

`Leads` lists the deeds that lead from one fleet to another, so that those of one job can be told from all others. A
start that does not replace a running encoder keeps its `Account` of them, step by step (`StartStep.account`): where it
has launched no encoder, none of its steps has changed the register. So a start that fails for any other reason leaves
the hub alone, and one that is cancelled does so if and only if it had launched no encoder, or the output is not piped
(`cancelled_start_spares_register_iff`). One that is cancelled later closes the hub that its viewers have joined
(`hub_closed_by_cancelled_start`).
-/

namespace EncoderFleet.Fleet

/-- The deeds that lead from one fleet to another, each with the fleet before it. -/
inductive Leads (f : Fleet) : Fleet → List (Fleet × Deed) → Prop
  | nothing : Leads f f []
  | perform {g h : Fleet} {d : Deed} {since : List (Fleet × Deed)} (hs : Leads f g since) (hd : g.perform? d = some h) :
      Leads f h (since ++ [(g, d)])

/-- The start of a job launches an encoder in one of these deeds. -/
def Launches (id : Nat) (since : List (Fleet × Deed)) : Prop :=
  ∃ x ∈ since, ∃ n, x.1.happening? x.2 = some (.launched n id)

/-- None of these deeds that is a step of the job changes the register of hubs. -/
def SparesRegister (id : Nat) (since : List (Fleet × Deed)) : Prop :=
  ∀ x ∈ since, ∀ m, x.2 = .event (.job id m) → ∀ g, x.1.perform? x.2 = some g →
    g.hubs.registered = x.1.hubs.registered

variable {f g h k : Fleet} {d : Deed} {o : StartOrder} {id : Nat} {since : List (Fleet × Deed)}

/-! ## Deeds since a request -/

theorem Leads.later (h : Leads f g since) : f.Later g := by
  induction h with
  | nothing => exact .refl
  | perform _ hd ih => exact .tail ih ⟨_, hd⟩

theorem Leads.trans {since' : List (Fleet × Deed)} (h : Leads f g since) (h' : Leads g k since') :
    Leads f k (since ++ since') := by
  induction h' with
  | nothing =>
    rw [List.append_nil]
    exact h
  | perform _ hd ih =>
    rw [← List.append_assoc]
    exact ih.perform hd

theorem leads_of_performAll {ds : List Deed} (h : f.performAll? ds = some g) : ∃ since, Leads f g since := by
  induction ds generalizing f with
  | nil =>
    cases h
    exact ⟨[], .nothing⟩
  | cons d ds ih =>
    obtain ⟨e, he, h⟩ := Option.bind_eq_some_iff.mp h
    obtain ⟨since, hs⟩ := ih h
    exact ⟨_, (Leads.nothing.perform he).trans hs⟩

theorem Leads.nextJob_le (h : Leads f g since) : f.nextJob ≤ g.nextJob := by
  induction h with
  | nothing => exact Nat.le_refl _
  | perform _ hd ih => exact Nat.le_trans ih (performed hd).nextJob_le

/-- What is true of a job when it is taken in, and is kept by each of its steps and by every other deed, is true as long
as the job is there. -/
theorem Leads.run {r : Request} {I : List (Fleet × Deed) → Job → Prop} (hr : f.Reachable)
    (hs : Leads (f.submit r).2 g since) (start : I [] ((f.prepare r).jobOf r))
    (aside : ∀ {g d since j}, (∀ m, d ≠ .event (.job f.nextJob m)) → I since j → I (since ++ [(g, d)]) j)
    (own : ∀ {g h k since m j j'}, g.jobs.get? f.nextJob = some j → JobStep g f.nextJob j m h j' → g.Reachable →
      g.perform? (.event (.job f.nextJob m)) = some k → k.hubs = h.hubs → I since j →
      I (since ++ [(g, .event (.job f.nextJob m))]) j')
    {j : Job} (hj : g.jobs.get? f.nextJob = some j) : I since j := by
  have hsub : f.perform? (.submit r) = some (f.submit r).2 := rfl
  induction hs generalizing j with
  | nothing =>
    rw [(submit_jobs f r).1, KeyMap.get?_insert_self] at hj
    exact Option.some.inj hj ▸ start
  | @perform g k d since hs hd ih =>
    have hg : g.Reachable := (hr.perform hsub).later hs.later
    by_cases hn : ∀ m, d ≠ .event (.job f.nextJob m)
    · refine aside hn (ih ?_)
      rcases (performed hd).job_cases hj with hj | ⟨_, m, _, hm, -⟩ | ⟨_, -, hid, -⟩
      · exact hj
      · exact absurd hm (hn m)
      · have hle := hs.nextJob_le
        rw [(submit_jobs f r).2] at hle
        omega
    · push Not at hn
      obtain ⟨m, rfl⟩ := hn
      obtain ⟨j₀, h, j', hj₀, step, rfl⟩ := jobStep_of_stepJob (show g.stepJob f.nextJob m = some k from hd)
      have hown := own hj₀ step hg hd (sameStreams_putJob h f.nextJob j').hubs (ih hj₀)
      rcases jobs_putJob h f.nextJob j' with hp | ⟨-, hp⟩
      · rw [hp, KeyMap.get?_insert_self] at hj
        exact Option.some.inj hj ▸ hown
      · rw [hp, KeyMap.get?_erase, if_pos rfl] at hj
        cases hj

theorem launches_concat {x : Fleet × Deed} :
    Launches id (since ++ [x]) ↔ Launches id since ∨ ∃ n, x.1.happening? x.2 = some (.launched n id) := by
  simp only [Launches, List.mem_append, List.mem_singleton, or_and_right, exists_or, exists_eq_left]

theorem sparesRegister_concat {x : Fleet × Deed} : SparesRegister id (since ++ [x]) ↔ SparesRegister id since ∧
    ∀ m, x.2 = .event (.job id m) → ∀ g, x.1.perform? x.2 = some g → g.hubs.registered = x.1.hubs.registered := by
  simp only [SparesRegister, List.forall_mem_append, List.forall_mem_singleton]

/-! ## The account that a start keeps -/

/-- How a start stands that does not replace a running encoder: `L` says that it has launched an encoder, and `S` that
none of its steps has changed the register. -/
def Account (o : StartOrder) (L S : Prop) : StartPlace → Prop
  | .enter | .line _ | .turn _ | .look _ | .declare _ => ¬L ∧ S
  | .retire _ _ => False
  | .clear c | .ask c | .await c _ | .makeWay c | .launch c => c.command.mode = o.flags.mode ∧ ¬L ∧ S
  | .openHub c _ => c.command.mode = o.flags.mode ∧ L ∧ S
  | .commit _ _ => L ∧ (S ↔ o.flags.mode.piped = false)
  | .restore _ e => (S ↔ o.flags.mode.piped = false ∨ ¬L) ∧ (e ≠ .startCancelled o.source.id → ¬L)
  | .leave r =>
    (S ↔ o.flags.mode.piped = false ∨ ¬L) ∧ ∀ e, r = .error e → e ≠ .startCancelled o.source.id → ¬L

/-- How a start stands that is over. -/
def Account.Over (o : StartOrder) (L S : Prop) (r : StartResult) : Prop := Account o L S (.leave r)

/-- How a start stands after a step of it. -/
def Account.After (o : StartOrder) (L S : Prop) : After StartPlace StartResult → Prop
  | .at p => Account o L S p
  | .done r => Account.Over o L S r

theorem Account.over_of_quiet {L S : Prop} (h : ¬L ∧ S) (r : StartResult) : Account.Over o L S r :=
  ⟨iff_of_true h.2 (.inr h.1), fun _ _ _ => h.1⟩

/-- Apart from where it launches its encoder and where it opens a hub, a start that has no stop under way neither
launches anything nor changes the register. -/
theorem StartStep.quiet {p : StartPlace} {m : Move} {r : After StartPlace StartResult} (step : StartStep f id o p m g r)
    (hl : ∀ c, p ≠ .launch c) (ho : ∀ c n, p ≠ .openHub c n) (hp : p.stop? = none) :
    (∀ n, f.happeningOfStart id o p ≠ some (.launched n id)) ∧ g.hubs.registered = f.hubs.registered := by
  constructor
  · intro n hn
    rcases happeningOfStart_eq hp hn with ⟨c, rfl, -⟩ | ⟨_, _, -, ha | ⟨_, ha⟩⟩
    · exact hl c rfl
    · cases ha
    · cases ha
  · rcases step.register with hsame | ⟨c, n, rfl, -⟩ | ⟨_, _, _, rfl, -⟩
    · exact hsame.registered
    · exact absurd rfl (ho c n)
    · cases hp

/-- Opening a hub changes the register if and only if the output is piped. -/
theorem registered_openHub (hr : f.Reachable) (c : Command) (n : Nat) :
    (f.openHub o c n).hubs.registered = f.hubs.registered ↔ c.mode.piped = false := by
  have hreset : (f.hubs.reset o.source.id).2.registered ≠ f.hubs.registered := by
    intro hsame
    -- The number of the new hub is that of no hub so far.
    have hnew : f.hubs.registered.get? o.key = some f.hubs.all.length := by
      rw [← hsame]
      exact KeyMap.get?_insert_self ..
    exact Nat.lt_irrefl _ (hr.registered_lt hnew)
  cases hm : c.mode.piped with
  | false => simp [openHub, hm, modifyEncoder]
  | true =>
    refine iff_of_false (fun hsame => hreset (Eq.trans ?_ hsame)) nofun
    unfold openHub
    rw [if_pos hm]
    dsimp only
    split <;> rfl

/-- A step in which a start neither launches its encoder nor opens a hub keeps the account as it is. -/
theorem StartStep.account_quiet {p : StartPlace} {m : Move} {r : After StartPlace StartResult} {L S : Prop}
    (step : StartStep f id o p m g r) (ho : o.replaces = false) (hl : ∀ c, p ≠ .launch c)
    (hopen : ∀ c n, p ≠ .openHub c n) (h : Account o L S p) : Account.After o L S r := by
  -- A start that waits or makes way has launched nothing, so it may fail for any reason.
  have restore : ∀ {c : Course} {e : Failure}, c.command.mode = o.flags.mode ∧ ¬L ∧ S →
      Account o L S (.restore c e) := fun h => ⟨iff_of_true h.2.2 (.inr h.2.1), fun _ => h.2.1⟩
  cases step with
  | replacing hreplaces =>
    rw [ho] at hreplaces
    cases hreplaces
  | retiring => exact h.elim
  | retired => exact h.elim
  | launched => exact absurd rfl (hl _)
  | failed => exact absurd rfl (hl _)
  | opened => exact absurd rfl (hopen _ _)
  | abandoned => exact ⟨h.2.trans (or_iff_left (not_not_intro h.1)).symm, fun hne => absurd rfl hne⟩
  | committed => exact ⟨h.2.trans (or_iff_left (not_not_intro h.1)).symm, nofun⟩
  | restored =>
    refine ⟨h.1, ?_⟩
    rintro e ⟨⟩
    exact h.2
  | declared => exact ⟨rfl, h⟩
  | refused => exact Account.over_of_quiet h _
  | leftLine => exact Account.over_of_quiet h _
  | found => exact Account.over_of_quiet h _
  | gaveUp => exact restore h
  | withdrew => exact restore h
  | late => exact restore h
  | noWay => exact restore h
  | _ => exact h

/-- A step of a start keeps its account, if `L'` and `S'` say after it what `L` and `S` said before. -/
theorem StartStep.account {p : StartPlace} {m : Move} {r : After StartPlace StartResult} {L S L' S' : Prop}
    (step : StartStep f id o p m g r) (hr : f.Reachable) (ho : o.replaces = false)
    (hL : L' ↔ L ∨ ∃ n, f.happeningOfStart id o p = some (.launched n id))
    (hS : S' ↔ S ∧ g.hubs.registered = f.hubs.registered) (h : Account o L S p) : Account.After o L' S' r := by
  by_cases hl : ∃ c, p = .launch c
  · obtain ⟨c, rfl⟩ := hl
    obtain ⟨hm, hl, hs⟩ := h
    cases step with
    | @launched _ b hplan =>
      have hreg : (f.interrupt o b).hubs.registered = f.hubs.registered := by rw [hubs_interrupt]
      refine ⟨hm, hL.mpr (.inr ⟨f.encoders.length, ?_⟩), hS.mpr ⟨hs, hreg⟩⟩
      rw [happeningOfStart, hplan]
    | @failed _ fault hplan =>
      have hl' : ¬L' := by
        rw [hL, not_or]
        refine ⟨hl, ?_⟩
        rintro ⟨n, hn⟩
        rw [happeningOfStart, hplan] at hn
        cases hn
      exact ⟨iff_of_true (hS.mpr ⟨hs, rfl⟩) (.inr hl'), fun _ => hl'⟩
  by_cases hopen : ∃ c n, p = .openHub c n
  · obtain ⟨c, n, rfl⟩ := hopen
    obtain ⟨hm, hl, hs⟩ := h
    cases step with
    | opened =>
      refine ⟨hL.mpr (.inl hl), ?_⟩
      rw [hS, and_iff_right hs, registered_openHub hr, hm]
  simp only [not_exists] at hl hopen
  have hp : p.stop? = none := by
    cases p with
    | retire => exact h.elim
    | _ => rfl
  obtain ⟨hno, hsame⟩ := step.quiet hl hopen hp
  obtain rfl : L' = L := propext (hL.trans (or_iff_left (not_exists.mpr hno)))
  obtain rfl : S' = S := propext (hS.trans (and_iff_left hsame))
  exact step.account_quiet ho hl hopen h

/-! ## The job of a start -/

/-- Where the job of a request to start one source stands, and what its start has done so far. -/
inductive AccountJob (o : StartOrder) (L S : Prop) : Job → Prop
  | waiting (h : ¬L ∧ S) : AccountJob o L S (.batch o.batch)
  | underway {p : StartPlace} (h : Account o L S p) :
      AccountJob o L S (.batch { o.batch with current := some (o.source, p), rest := [] })
  | finished {r : StartResult} (h : Account.Over o L S r) :
      AccountJob o L S (.batch { o.batch with rest := [], reports := [⟨o.source.id, .ended r⟩] })
  | done {r : StartResult} (h : Account.Over o L S r) : AccountJob o L S (.done (.reports [⟨o.source.id, .ended r⟩]))

/-- A step of the job of a start keeps the account. -/
theorem AccountJob.step {m : Move} {j j' : Job} {L S L' S' : Prop} (hj : AccountJob o L S j) (hr : f.Reachable)
    (ho : o.replaces = false) (hget : f.jobs.get? id = some j) (step : JobStep f id j m g j')
    (hL : L' ↔ L ∨ ∃ n, f.happening? (.event (.job id m)) = some (.launched n id))
    (hS : S' ↔ S ∧ g.hubs.registered = f.hubs.registered) : AccountJob o L' S' j' := by
  have quiet : j.start? = none → g.hubs.registered = f.hubs.registered → L' = L ∧ S' = S := by
    intro hnone hsame
    refine ⟨propext (hL.trans (or_iff_left ?_)), propext (hS.trans (and_iff_left hsame))⟩
    rintro ⟨n, hn⟩
    obtain ⟨_, _, _, ⟨⟩, hs⟩ := launched_cases hn
    rw [start?_of_get? hget, hnone] at hs
    cases hs
  cases hj with
  | waiting h =>
    cases step with
    | start hc => cases hc
    | begun _ hrest =>
      cases hrest
      obtain ⟨rfl, rfl⟩ := quiet rfl rfl
      exact .underway h
    | unmarked _ _ hrule => cases hrule
    | skipped _ _ hrule => cases hrule
    | started _ hrest => cases hrest
  | @underway p h =>
    cases step with
    | @start _ _ _ _ _ r hc step =>
      cases hc
      have hstart : f.start? id = some (o, p) := start?_of_get? hget
      have hhap : f.happening? (.event (.job id m)) = f.happeningOfStart id o p := by rw [happening?, hstart]
      rw [hhap] at hL
      have hafter := step.account hr ho hL hS h
      cases r with
      | «at» q => exact .underway hafter
      | done r => exact .finished hafter
    | begun hc => cases hc
    | unmarked hc => cases hc
    | skipped hc => cases hc
    | started hc => cases hc
  | finished h =>
    cases step with
    | start hc => cases hc
    | begun _ hrest => cases hrest
    | unmarked _ hrest => cases hrest
    | skipped _ hrest => cases hrest
    | started =>
      obtain ⟨rfl, rfl⟩ := quiet rfl rfl
      exact .done h
  | done => cases step

/-- What a start has done, that does not replace a running encoder, when it is over. -/
theorem account_of_start {r : StartResult} (hr : f.Reachable) (ho : o.replaces = false)
    (h : Leads (f.submit (.start o)).2 g since)
    (ha : g.answer? f.nextJob = some (.reports [⟨o.source.id, .ended r⟩])) :
    Account.Over o (Launches f.nextJob since) (SparesRegister f.nextJob since) r := by
  have hjob := Leads.run
    (I := fun since j => AccountJob o (Launches f.nextJob since) (SparesRegister f.nextJob since) j)
    hr h (.waiting ⟨?_, ?_⟩) (fun {g d since j} hn hj => ?_) (fun hget step hg hd hhubs hj => ?_) (get?_of_answer ha)
  · cases hjob with
    | done h => exact h
  · rintro ⟨x, hx, -⟩
    cases hx
  · intro x hx
    cases hx
  · -- Other deeds are neither launches of this job nor steps of it.
    have hL : Launches f.nextJob (since ++ [(g, d)]) = Launches f.nextJob since := by
      refine propext (launches_concat.trans (or_iff_left ?_))
      rintro ⟨n, hn'⟩
      obtain ⟨m, _, _, hm, -⟩ := launched_cases hn'
      exact hn m hm
    have hS : SparesRegister f.nextJob (since ++ [(g, d)]) = SparesRegister f.nextJob since :=
      propext (sparesRegister_concat.trans (and_iff_left fun m hm => absurd hm (hn m)))
    rw [hL, hS]
    exact hj
  · refine hj.step hg ho hget step launches_concat (sparesRegister_concat.trans (and_congr_right fun _ => ?_))
    rw [← hhubs]
    refine ⟨fun hsame => hsame _ rfl _ hd, fun hsame _ _ g' hd' => ?_⟩
    rw [hd] at hd'
    cases hd'
    exact hsame

/-! ## Failed and cancelled starts -/

/-- As long as the register is spared, no step of the job closes a hub that is registered. -/
theorem SparesRegister.open (h : SparesRegister id since) {x : Fleet × Deed} (hx : x ∈ since) {m : Move}
    (hm : x.2 = .event (.job id m)) (hd : x.1.perform? x.2 = some g) {key : String} {n : Nat}
    (hn : x.1.hubs.registered.get? key = some n) : g.hubs.isClosed n = false := by
  rw [Bool.eq_false_iff]
  intro hc
  refine (Hubs.isClosed_iff.mp hc).1 key ?_
  rw [h x hx m hm g hd]
  exact hn

/-- A start that fails and was not cancelled has launched no encoder, and leaves the hub of its source alone. -/
theorem failed_start_spares_register {e : Failure} (hr : f.Reachable) (ho : o.replaces = false)
    (h : Leads (f.submit (.start o)).2 g since)
    (ha : g.answer? f.nextJob = some (.reports [⟨o.source.id, .ended (.error e)⟩]))
    (he : e ≠ .startCancelled o.source.id) : SparesRegister f.nextJob since ∧ ¬Launches f.nextJob since := by
  obtain ⟨hspares, hfailed⟩ := account_of_start hr ho h ha
  have hno := hfailed e rfl he
  exact ⟨hspares.mpr (.inr hno), hno⟩

/-- Let a start that does not replace a running encoder be cancelled by a stop, whatever else happens meanwhile. Its
steps leave the register of hubs as it is if and only if its output is not piped or it has launched no encoder, which is
to say that it was cancelled while it waited for its turn or for a permit. Then none of them closes a hub that is
registered. -/
theorem cancelled_start_spares_register_iff (hr : f.Reachable) (ho : o.replaces = false)
    (h : Leads (f.submit (.start o)).2 g since)
    (ha : g.answer? f.nextJob =
      some (.reports [⟨o.source.id, .ended (.error (.startCancelled o.source.id))⟩])) :
    (SparesRegister f.nextJob since ↔ o.flags.mode.piped = false ∨ ¬Launches f.nextJob since) ∧
      (SparesRegister f.nextJob since → ∀ x ∈ since, ∀ m, x.2 = .event (.job f.nextJob m) →
        ∀ y, x.1.perform? x.2 = some y → ∀ key n, x.1.hubs.registered.get? key = some n → y.hubs.isClosed n = false) :=
  ⟨(account_of_start hr ho h ha).1, fun hspares _ hx _ hm _ hd _ _ hn => hspares.open hx hm hd hn⟩

/-- A viewer has joined the live stream of a camera that does not run. -/
def joined : List Deed :=
  [.submit (.change (.upsert camera.source))] ++ goesOn 0 3 ++ [.collect 0, .subscribe "cam"]

/-- A start of the camera has opened its hub, if the output is piped, when a stop comes, which finds nothing to take
away. Then the start goes on. -/
def overtakenStart : List Deed :=
  goesOn 1 11 ++ [.submit (.stop (some "cam") false)] ++ goesOn 2 3 ++ goesOn 1 4

/-- The output of the start goes to files, so its steps leave the register as it is. -/
theorem register_spared_by_cancelled_start : ∃ f g : Fleet, ∃ since, f.Reachable ∧
    Leads (f.submit (.start { camera with flags := {} })).2 g since ∧
    g.answer? f.nextJob = some (.reports [⟨"cam", .ended (.error (.startCancelled "cam"))⟩]) ∧
    SparesRegister f.nextJob since := by
  obtain ⟨f, hf, h⟩ := exists_of_run
    (p := fun f : Fleet => ((f.submit (.start { camera with flags := {} })).2.performAll? overtakenStart).any
      fun g : Fleet =>
        decide (g.answer? f.nextJob = some (.reports [⟨"cam", .ended (.error (.startCancelled "cam"))⟩])))
    joined (by decide +kernel)
  obtain ⟨g, hg, ha⟩ := (Option.any_eq_true _ _).mp h
  have ha := of_decide_eq_true ha
  obtain ⟨since, hs⟩ := leads_of_performAll hg
  obtain ⟨hiff, -⟩ := cancelled_start_spares_register_iff hf rfl hs ha
  exact ⟨f, g, since, hf, hs, ha, hiff.mpr (.inl rfl)⟩

/-- The output of the start is piped. It is cancelled, and so the camera has not been running at any time; but the hub
that the viewer has joined is no longer registered, and it is closed. -/
theorem hub_closed_by_cancelled_start : ∃ f g : Fleet, ∃ n, f.Reachable ∧ f.isRunning "cam" = false ∧
    f.hubs.get? "cam" = some n ∧ (f.hubs.hub n).viewerCount = 1 ∧ f.hubs.isClosed n = false ∧
    (f.submit (.start camera)).2.performAll? overtakenStart = some g ∧
    g.answer? 1 = some (.reports [⟨"cam", .ended (.error (.startCancelled "cam"))⟩]) ∧
    g.answer? 2 = some (.stopped []) ∧ g.hubs.get? "cam" ≠ some n ∧ g.hubs.isClosed n = true := by
  obtain ⟨f, hf, h⟩ := exists_of_run
    (p := fun f : Fleet => !f.isRunning "cam" && (f.hubs.get? "cam").any fun n : Nat =>
      decide ((f.hubs.hub n).viewerCount = 1) && !f.hubs.isClosed n &&
        ((f.submit (.start camera)).2.performAll? overtakenStart).any fun g : Fleet =>
          decide (g.answer? 1 = some (.reports [⟨"cam", .ended (.error (.startCancelled "cam"))⟩])) &&
            decide (g.answer? 2 = some (.stopped [])) && decide (g.hubs.get? "cam" ≠ some n) && g.hubs.isClosed n)
    joined (by decide +kernel)
  rw [Bool.and_eq_true, Bool.not_eq_true'] at h
  obtain ⟨hrun, h⟩ := h
  obtain ⟨n, hn, h⟩ := (Option.any_eq_true _ _).mp h
  simp only [Bool.and_eq_true, Bool.not_eq_true', decide_eq_true_eq] at h
  obtain ⟨⟨hviewers, hopen⟩, h⟩ := h
  obtain ⟨g, hg, h⟩ := (Option.any_eq_true _ _).mp h
  simp only [Bool.and_eq_true, decide_eq_true_eq] at h
  obtain ⟨⟨⟨hstart, hstop⟩, hother⟩, hclosed⟩ := h
  exact ⟨f, g, n, hf, hrun, hn, hviewers, hopen, hg, hstart, hstop, hother, hclosed⟩

end EncoderFleet.Fleet
