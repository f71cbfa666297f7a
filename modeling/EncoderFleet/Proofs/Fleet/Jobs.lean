import EncoderFleet.Proofs.Fleet.Steps

/-!
# Jobs and their numbers

A step puts its job where the step has left it and touches no other job (`JobStep.jobs`, `start?_putJob`,
`stop?_putJob`, `waits_putJob`); quiet deeds and requests that are taken in change no start and no stop.
Numbers are given once: no job has a number that is still to be given (`Reachable.numbered`).
-/

namespace EncoderFleet.Fleet

variable {f g : Fleet}

/-! ## Putting a job back -/

theorem framed_putJob (f : Fleet) (id : Nat) (j : Job) : f.Framed (f.putJob id j) := by
  unfold putJob
  split
  · split
    · exact ⟨rfl, rfl, rfl, rfl, rfl, rfl⟩
    · exact ⟨rfl, rfl, rfl, rfl, rfl, rfl⟩
  · exact ⟨rfl, rfl, rfl, rfl, rfl, rfl⟩

theorem nextJob_putJob (f : Fleet) (id : Nat) (j : Job) : (f.putJob id j).nextJob = f.nextJob := by
  unfold putJob
  split
  · split <;> rfl
  · rfl

/-- The jobs after one was put back: it is gone if it is done and nobody waits for its answer. -/
theorem jobs_putJob (f : Fleet) (id : Nat) (j : Job) :
    (f.putJob id j).jobs = f.jobs.insert id j ∨
      (∃ a, j = .done a) ∧ (f.putJob id j).jobs = f.jobs.erase id := by
  unfold putJob
  split
  · next a =>
    split
    · exact .inr ⟨⟨a, rfl⟩, rfl⟩
    · exact .inl rfl
  · exact .inl rfl

/-- As long as somebody waits for its answer, the job is there. -/
theorem putJob_of_not_orphaned {id : Nat} (hid : id ∉ f.orphaned) (j : Job) :
    f.putJob id j = { f with jobs := f.jobs.insert id j } := by
  unfold putJob
  split
  · exact if_neg hid
  · rfl

theorem get?_putJob_batch (f : Fleet) (id : Nat) (b : Batch) :
    (f.putJob id (.batch b)).jobs.get? id = some (.batch b) := KeyMap.get?_insert_self ..

/-- What can be seen of jobs, other than of those that are done, after one was put back. -/
theorem bind_putJob {β : Type} {v : Job → Option β} (hv : ∀ a, v (.done a) = none) (f : Fleet) (id k : Nat) (j : Job) :
    ((f.putJob id j).jobs.get? k).bind v = if k = id then v j else (f.jobs.get? k).bind v := by
  rcases jobs_putJob f id j with h | ⟨⟨a, rfl⟩, h⟩
  · rw [h, KeyMap.get?_insert]; split <;> rfl
  · rw [h, KeyMap.get?_erase, hv]; split <;> rfl

theorem start?_putJob (f : Fleet) (id k : Nat) (j : Job) :
    (f.putJob id j).start? k = if k = id then j.start? else f.start? k := bind_putJob (fun _ => rfl) f id k j

theorem stop?_putJob (f : Fleet) (id k : Nat) (j : Job) :
    (f.putJob id j).stop? k = if k = id then j.stop? else f.stop? k := bind_putJob (fun _ => rfl) f id k j

theorem waits_putJob (f : Fleet) (id k : Nat) (j : Job) :
    (f.putJob id j).waits k = if k = id then j.waits else f.waits k := by
  rcases jobs_putJob f id j with h | ⟨⟨a, rfl⟩, h⟩
  · rw [waits, h, KeyMap.get?_insert]; split <;> rfl
  · rw [waits, h, KeyMap.get?_erase]; split <;> rfl

/-! ## Steps touch their own job only -/

theorem accounts_takeEncoder (f : Fleet) (o : StopOrder) : f.SameAccounts (f.takeEncoder o).1 := by
  have h := takeEncoder_cases f o
  generalize (f.takeEncoder o).1 = g at h ⊢
  generalize (f.takeEncoder o).2 = r at h
  cases h <;> exact ⟨⟨rfl, rfl, rfl, rfl⟩, rfl, rfl⟩

theorem accounts_interrupt (f : Fleet) (o : StartOrder) (b : Behaviour) : f.SameAccounts (f.interrupt o b) := by
  unfold interrupt
  split
  · exact .refl f
  · next manual _ =>
    have he : f.SameAccounts (if manual then f.ensure o.source.id else f) := by
      cases manual <;> exact ⟨⟨rfl, rfl, rfl, rfl⟩, rfl, rfl⟩
    exact he.trans (accounts_takeEncoder _ _)

theorem accounts_recordStop (f : Fleet) (key : String) (t : Taken) (code : ExitCode) :
    f.SameAccounts (f.recordStop key t code) := by
  unfold recordStop
  split <;> exact ⟨⟨rfl, rfl, rfl, rfl⟩, rfl, rfl⟩

theorem agenda_recordCrash (f : Fleet) (key : String) (generation : Nat) (code : ExitCode) :
    f.SameAgenda (f.recordCrash key generation code) := by
  unfold recordCrash
  split
  · exact .refl f
  · split
    · split <;> exact ⟨rfl, rfl, rfl, rfl⟩
    · exact .refl f

/-- The notice of an end that nobody asked for. -/
theorem agenda_noticed (f : Fleet) (key : String) (generation n : Nat) (code : ExitCode) :
    f.SameAgenda ((f.recordCrash key generation code).modifyEncoder n fun e => { e with keeper := .gone code }) := by
  have h := agenda_recordCrash f key generation code
  exact ⟨h.settings, h.lines, h.jobs, h.nextJob⟩

theorem agenda_letGo (f : Fleet) (t : Taken) : f.SameAgenda (f.letGo t) := by
  have h := (kept_stopPump f t.tracked.encoder).agenda
  unfold letGo
  dsimp only
  split <;> exact ⟨h.settings, h.lines, h.jobs, h.nextJob⟩

theorem accounts_restoreLife (f : Fleet) (o : StartOrder) (prior : Lifecycle) :
    f.SameAccounts (f.restoreLife o prior) := by
  unfold restoreLife
  split
  · exact .refl f
  · split <;> exact ⟨⟨rfl, rfl, rfl, rfl⟩, rfl, rfl⟩

theorem agenda_lend (f : Fleet) (holder source : String) : f.SameAgenda (f.lend holder source) := by
  unfold lend
  dsimp only
  split <;> exact ⟨rfl, rfl, rfl, rfl⟩

theorem agenda_takeBack (f : Fleet) (holder : String) : f.SameAgenda (f.takeBack holder) := by
  unfold takeBack
  split <;> exact ⟨rfl, rfl, rfl, rfl⟩

theorem StopStep.agenda {o : StopOrder} {p : StopPlace} {m : Move} {r : After StopPlace (Option String)}
    (h : StopStep f o p m g r) : f.SameAgenda g := by
  cases h with
  | released => exact agenda_letGo f _
  | dropped => split <;> exact ⟨rfl, rfl, rfl, rfl⟩
  | recorded => exact (accounts_recordStop f _ _ _).toSameAgenda
  | _ => exact ⟨rfl, rfl, rfl, rfl⟩

/-- A step of a start leaves the agenda alone, or gets into the line of its source or out of it. -/
theorem StartStep.agenda {id : Nat} {o : StartOrder} {p : StartPlace} {m : Move} {r : After StartPlace StartResult}
    (h : StartStep f id o p m g r) :
    (f.SameAgenda g ∧ r.place?.any StartPlace.queued = p.queued ∧
      (r.place?.any StartPlace.admitted = true → p.admitted = true ∨ (f.line o.key).head? = some id)) ∨
    (g = f.enterLine o.key id ∧ p.queued = false ∧ ∃ e, r = .at (.turn e)) ∨
    (g = f.leaveLine o.key id ∧ p.queued = true ∧ ∃ a, r = .done a) := by
  cases h with
  | queued => exact .inr (.inl ⟨rfl, rfl, _, rfl⟩)
  | leftLine => exact .inr (.inr ⟨rfl, rfl, _, rfl⟩)
  | left => exact .inr (.inr ⟨rfl, rfl, _, rfl⟩)
  | entered => exact .inl ⟨⟨rfl, rfl, rfl, rfl⟩, rfl, nofun⟩
  | refused => exact .inl ⟨⟨rfl, rfl, rfl, rfl⟩, rfl, nofun⟩
  | admitted h => exact .inl ⟨⟨rfl, rfl, rfl, rfl⟩, rfl, fun _ => .inr h⟩
  | retiring h => exact .inl ⟨h.agenda, rfl, fun _ => .inl rfl⟩
  | retired h => exact .inl ⟨h.agenda, rfl, fun _ => .inl rfl⟩
  | @cleared c => exact .inl ⟨(kept_clearOrphans f c.command).agenda, rfl, fun _ => .inl rfl⟩
  | @madeWay c => exact .inl ⟨(kept_makeWay f c.command).agenda, rfl, fun _ => .inl rfl⟩
  | @noWay c => exact .inl ⟨(kept_makeWay f c.command).agenda.trans ⟨rfl, rfl, rfl, rfl⟩, rfl, fun _ => .inl rfl⟩
  | launched => exact .inl ⟨(accounts_interrupt f o _).toSameAgenda.trans ⟨rfl, rfl, rfl, rfl⟩, rfl, fun _ => .inl rfl⟩
  | @opened c n => exact .inl ⟨(kept_openHub f o c.command n).agenda, rfl, fun _ => .inl rfl⟩
  | @abandoned c n => exact .inl ⟨(kept_stopPump f n).agenda.trans ⟨rfl, rfl, rfl, rfl⟩, rfl, fun _ => .inl rfl⟩
  | restored => exact .inl ⟨(accounts_restoreLife f o _).toSameAgenda, rfl, fun _ => .inl rfl⟩
  | _ => exact .inl ⟨⟨rfl, rfl, rfl, rfl⟩, rfl, fun _ => .inl rfl⟩

theorem StartStep.jobs {id : Nat} {o : StartOrder} {p : StartPlace} {m : Move} {r : After StartPlace StartResult}
    (h : StartStep f id o p m g r) : g.jobs = f.jobs ∧ g.nextJob = f.nextJob := by
  rcases h.agenda with ⟨h, -⟩ | ⟨rfl, -⟩ | ⟨rfl, -⟩
  · exact ⟨h.jobs, h.nextJob⟩
  · exact ⟨rfl, rfl⟩
  · exact ⟨rfl, rfl⟩

theorem JobStep.jobs {id : Nat} {j j' : Job} {m : Move} (h : JobStep f id j m g j') :
    g.jobs = f.jobs ∧ g.nextJob = f.nextJob := by
  cases h with
  | start _ h => exact h.jobs
  | stop _ h => exact ⟨h.agenda.jobs, h.agenda.nextJob⟩
  | changing h => exact ⟨h.jobs, h.nextJob⟩
  | changed h => exact ⟨h.jobs, h.nextJob⟩
  | @lent holder source _ gate =>
    have h := agenda_lend { f with gate := gate } holder source
    exact ⟨h.jobs, h.nextJob⟩
  | @granted holder source _ gate =>
    have h := agenda_lend { f with gate := gate } holder source
    exact ⟨h.jobs, h.nextJob⟩
  | _ => exact ⟨rfl, rfl⟩

/-- A step changes what can be seen of its own job only. -/
theorem JobStep.start? {id : Nat} {j j' : Job} {m : Move} (h : JobStep f id j m g j') (k : Nat) :
    (g.putJob id j').start? k = if k = id then j'.start? else f.start? k := by
  rw [start?_putJob, Fleet.start?, h.jobs.1]; rfl

theorem JobStep.stop? {id : Nat} {j j' : Job} {m : Move} (h : JobStep f id j m g j') (k : Nat) :
    (g.putJob id j').stop? k = if k = id then j'.stop? else f.stop? k := by
  rw [stop?_putJob, Fleet.stop?, h.jobs.1]; rfl

theorem JobStep.waits {id : Nat} {j j' : Job} {m : Move} (h : JobStep f id j m g j') (k : Nat) :
    (g.putJob id j').waits k = if k = id then j'.waits else f.waits k := by
  rw [waits_putJob, Fleet.waits, h.jobs.1]; rfl

/-! ## Quiet deeds -/

theorem Quiet.bind {β : Type} {v : Job → Option β} (hv : ∀ a, v (.done a) = none) (h : f.Quiet g) (k : Nat) :
    (g.jobs.get? k).bind v = (f.jobs.get? k).bind v := by
  rcases h.jobs with h | ⟨id, a, ha, h⟩
  · rw [h]
  · rw [h, KeyMap.get?_erase]
    split
    · next hk => rw [hk, ha, Option.bind_some, hv, Option.bind_none]
    · rfl

theorem Quiet.start? (h : f.Quiet g) (k : Nat) : g.start? k = f.start? k := h.bind (fun _ => rfl) k

theorem Quiet.stop? (h : f.Quiet g) (k : Nat) : g.stop? k = f.stop? k := h.bind (fun _ => rfl) k

theorem Quiet.waits (h : f.Quiet g) (k : Nat) : g.waits k = f.waits k := by
  rcases h.jobs with h | ⟨id, a, ha, h⟩
  · rw [Fleet.waits, h]; rfl
  · rw [Fleet.waits, Fleet.waits, h, KeyMap.get?_erase]
    split
    · next hk => rw [hk, ha]; rfl
    · rfl

/-! ## Requests -/

theorem vacant_jobOf (f : Fleet) (r : Request) : (f.jobOf r).Vacant := by
  cases r with
  | startConfigured id restart manual =>
    simp only [jobOf]
    cases f.named id <;> exact ⟨rfl, rfl, rfl⟩
  | stop id manual => cases id <;> exact ⟨rfl, rfl, rfl⟩
  | _ => exact ⟨rfl, rfl, rfl⟩

/-- No job has a number that is still to be given. -/
def Numbered (f : Fleet) : Prop := ∀ id, f.nextJob ≤ id → f.jobs.get? id = none

theorem Numbered.get?_nextJob (h : f.Numbered) : f.jobs.get? f.nextJob = none := h _ (Nat.le_refl _)

/-- The jobs after a request was taken in. -/
theorem submit_jobs (f : Fleet) (r : Request) :
    (f.submit r).2.jobs = f.jobs.insert f.nextJob ((f.prepare r).jobOf r) ∧ (f.submit r).2.nextJob = f.nextJob + 1 := by
  have h : (f.prepare r).jobs = f.jobs ∧ (f.prepare r).nextJob = f.nextJob := by
    unfold prepare
    split <;> exact ⟨rfl, rfl⟩
  simp only [submit, h.1, h.2]
  exact ⟨trivial, trivial⟩

theorem Numbered.bind_submit {β : Type} {v : Job → Option β} (h : f.Numbered) {r : Request}
    (hv : v ((f.prepare r).jobOf r) = none) (k : Nat) :
    ((f.submit r).2.jobs.get? k).bind v = (f.jobs.get? k).bind v := by
  rw [(submit_jobs f r).1, KeyMap.get?_insert]
  split
  · next hk => rw [hk, h.get?_nextJob, Option.bind_some, hv]; rfl
  · rfl

theorem Numbered.start?_submit (h : f.Numbered) (r : Request) (k : Nat) : (f.submit r).2.start? k = f.start? k :=
  h.bind_submit (vacant_jobOf _ r).start? k

theorem Numbered.stop?_submit (h : f.Numbered) (r : Request) (k : Nat) : (f.submit r).2.stop? k = f.stop? k :=
  h.bind_submit (vacant_jobOf _ r).stop? k

theorem Numbered.waits_submit (h : f.Numbered) (r : Request) (k : Nat) : (f.submit r).2.waits k = f.waits k := by
  rw [waits, (submit_jobs f r).1, KeyMap.get?_insert, waits]
  split
  · next hk => rw [hk, h.get?_nextJob, Option.any_some, (vacant_jobOf _ r).waits]; rfl
  · rfl

/-- Where a job after a deed comes from: it was there before, it has made a step, or it was just taken in. -/
theorem Performed.job_cases {d : Deed} (h : Performed f d g) {id : Nat} {j' : Job} (hj' : g.jobs.get? id = some j') :
    f.jobs.get? id = some j' ∨
      (∃ j m g', d = .event (.job id m) ∧ f.jobs.get? id = some j ∧ JobStep f id j m g' j' ∧ g'.Framed g) ∨
      ∃ r, d = .submit r ∧ id = f.nextJob ∧ j' = (f.prepare r).jobOf r := by
  have same : g.jobs = f.jobs → f.jobs.get? id = some j' := fun hg => hg ▸ hj'
  cases h with
  | @job k m j j₁ g' hj h =>
    by_cases hk : id = k
    · subst hk
      refine .inr (.inl ⟨j, m, g', rfl, hj, ?_, framed_putJob _ _ _⟩)
      rcases jobs_putJob g' id j₁ with hp | ⟨-, hp⟩
      · rw [hp, KeyMap.get?_insert_self] at hj'
        rwa [← Option.some.inj hj']
      · rw [hp, KeyMap.get?_erase, if_pos rfl] at hj'
        cases hj'
    · refine .inl ?_
      rcases jobs_putJob g' k j₁ with hp | ⟨-, hp⟩
      · rwa [hp, KeyMap.get?_insert_of_ne _ _ hk, h.jobs.1] at hj'
      · rwa [hp, KeyMap.get?_erase, if_neg hk, h.jobs.1] at hj'
  | @submitted r =>
    rw [(submit_jobs f r).1, KeyMap.get?_insert] at hj'
    split at hj'
    · next hk => exact .inr (.inr ⟨r, rfl, hk, (Option.some.inj hj').symm⟩)
    · exact .inl hj'
  | @noticed _ generation key _ _ code => exact .inl (same (agenda_recordCrash f key generation code).jobs)
  | @borrowed holder source gate => exact .inl (same (agenda_lend { f with gate := gate } holder source).jobs)
  | @gaveBack holder => exact .inl (same (agenda_takeBack f holder).jobs)
  | quiet _ h =>
    rcases h.jobs with h | ⟨k, a, -, h⟩
    · exact .inl (same h)
    · rw [h, KeyMap.get?_erase] at hj'
      split at hj'
      · cases hj'
      · exact .inl hj'
  | _ => exact .inl (same rfl)

theorem Performed.nextJob_le {d : Deed} (h : Performed f d g) : f.nextJob ≤ g.nextJob := by
  have same : g.nextJob = f.nextJob → f.nextJob ≤ g.nextJob := fun h => Nat.le_of_eq h.symm
  cases h with
  | job _ h => exact same ((nextJob_putJob _ _ _).trans h.jobs.2)
  | @submitted r =>
    rw [(submit_jobs f r).2]
    exact Nat.le_succ _
  | @noticed _ generation key _ _ code => exact same (agenda_recordCrash f key generation code).nextJob
  | @borrowed holder source gate => exact same (agenda_lend { f with gate := gate } holder source).nextJob
  | @gaveBack holder => exact same (agenda_takeBack f holder).nextJob
  | quiet _ h => exact same h.nextJob
  | _ => exact same rfl

theorem Performed.numbered {d : Deed} (hf : f.Numbered) (h : Performed f d g) : g.Numbered := by
  intro id hid
  have hle := h.nextJob_le
  cases hj : g.jobs.get? id with
  | none => rfl
  | some j' =>
    rcases h.job_cases hj with hj | ⟨j, m, g', -, hj, -, -⟩ | ⟨r, rfl, rfl, -⟩
    · rw [hf id (Nat.le_trans hle hid)] at hj
      cases hj
    · rw [hf id (Nat.le_trans hle hid)] at hj
      cases hj
    · cases h with
      | submitted =>
        rw [(submit_jobs f r).2] at hid
        omega
      | quiet hd _ => cases hd

theorem Reachable.numbered (h : f.Reachable) : f.Numbered := by
  induction h with
  | fresh => exact fun _ _ => rfl
  | perform _ hd ih => exact (performed hd).numbered ih

end EncoderFleet.Fleet
