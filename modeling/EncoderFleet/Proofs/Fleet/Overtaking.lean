import EncoderFleet.Proofs.Fleet.Epochs

/-!
# A stop overtakes every earlier start

Each start of a job has a number in it (`Fleet.Begun`). Once a stop request has had its critical section at a source
(`Fleet.Stops`), all starts of that source that had begun are *spent*: as long as they go on, their epoch is behind
that of the source (`Spent.perform`), and who commits is not behind (`commits_cases`). The mark that a manual stop has
left goes away only with a commit or when it is taken off (`Worked.keeps_mark`). `stop_overtakes_starts` puts this
together.
-/

namespace EncoderFleet

/-- The keys of the sources that a job is yet to stop for a user. -/
def Job.manualKeys : Job → List String
  | sweep s => if s.manual then (s.current.map Prod.fst).toList ++ s.rest else []
  | _ => []

/-- A start of a batch is over, or it has begun and its epoch is behind this one. -/
def Batch.Behind (b : Batch) (n : Nat) (key : String) (epoch : Nat) : Prop :=
  n < b.reports.length ∨ b.reports.length = n ∧
    ∃ s p, b.current = some (s, p) ∧ (b.order s).key = key ∧ p ≠ .enter ∧ ∀ e, p.epoch? = some e → e < epoch

namespace Fleet

/-- The number of the start that a job is at. -/
def ordinal? (f : Fleet) (id : Nat) : Option Nat := (f.jobs.get? id).map Job.ordinal

/-- The start with this number in a job has begun, and its source has this key. -/
def Begun (f : Fleet) (key : String) (id n : Nat) : Prop :=
  f.ordinal? id = some n ∧ ∃ o p, f.start? id = some (o, p) ∧ o.key = key ∧ p ≠ .enter

/-- A deed contains the critical section of a stop request at a source: it is the step of the request that takes the
encoder away, or the request comes in during a launch. -/
inductive Stops (f : Fleet) : Deed → String → Bool → Prop
  | request {id : Nat} {m : Move} {key : String} {manual : Bool}
      (ht : f.stop? id = some (⟨key, manual, true⟩, .take)) : Stops f (.event (.job id m)) key manual
  | meanwhile {id : Nat} {m : Move} {o : StartOrder} {c : Course} {b : Behaviour} {manual : Bool}
      (hs : f.start? id = some (o, .launch c)) (hp : f.launcher.plan f.files c.command = .runs b)
      (hm : b.stopMeanwhile = some manual) : Stops f (.event (.job id m)) o.key manual

/-- From one fleet to the next an encoder comes to be tracked for a source. -/
def Commits (f g : Fleet) (key : String) : Prop := ∃ t, g.tracked? key = some t ∧ f.tracked? key ≠ some t

/-- A deed takes the mark off that a user stopped a source: a caller does, or a batch that a user asked for. -/
inductive Unmarks (f : Fleet) : Deed → String → Prop
  | caller {id : String} : Unmarks f (.mark id false) (Text.fold id)
  | batch {id : Nat} {m : Move} {b : Batch} {s : Source} (hj : f.jobs.get? id = some (.batch b))
      (hc : b.current = none) (hr : b.rest.head? = some s) (hb : b.rule = .clear) :
      Unmarks f (.event (.job id m)) (Text.fold s.id)

/-- A deed takes the mark off a source, or it commits a start that had not begun in fleet `x`. -/
def Lifts (x : Fleet) (key : String) (f : Fleet) (d : Deed) (g : Fleet) : Prop :=
  f.Unmarks d key ∨
    ∃ id m n, d = .event (.job id m) ∧ f.ordinal? id = some n ∧ ¬x.Begun key id n ∧ f.Commits g key

/-- Whether a source has the mark that a user stopped it. -/
def isMarked (f : Fleet) (key : String) : Bool := (f.state? key).any SourceState.manualStop

/-- Deeds lead from one fleet to the other, none of them of a kind. -/
abbrev LaterWithout (bad : Fleet → Deed → Fleet → Prop) : Fleet → Fleet → Prop :=
  Relation.ReflTransGen fun f g => ∃ d, f.perform? d = some g ∧ ¬bad f d g

/-- Deeds that have no business with the marks: an encoder ends and its end is dealt with, or a stop that no user asked
for, be it a request or a part of a start, comes in or goes on. -/
inductive Bystanding (f : Fleet) : Deed → Prop
  | exit {n : Nat} {code : ExitCode} : Bystanding f (.exit n code)
  | strike {n : Nat} : Bystanding f (.event (.strike n))
  | notice {n : Nat} : Bystanding f (.event (.notice n))
  | submit {id : Option String} : Bystanding f (.submit (.stop id false))
  | stop {id : Nat} {m : Move} {o : StopOrder} {p : StopPlace} (h : f.stop? id = some (o, p))
      (hm : o.manual = false) : Bystanding f (.event (.job id m))
  | meanwhile {id : Nat} {m : Move} {o : StartOrder} {c : Course} {b : Behaviour}
      (hs : f.start? id = some (o, .launch c)) (hp : f.launcher.plan f.files c.command = .runs b)
      (hm : b.stopMeanwhile = some false) : Bystanding f (.event (.job id m))

variable {f g : Fleet}

theorem isMarked_eq (f : Fleet) (key : String) : f.isMarked key = (f.memo key).marked := by
  unfold isMarked memo
  cases f.state? key <;> rfl

/-! ## Starts that are behind -/

theorem behind_mono {b : Batch} {n : Nat} {key : String} {e e' : Nat} (h : b.Behind n key e) (he : e ≤ e') :
    b.Behind n key e' := by
  rcases h with h | ⟨h, s, p, hc, hk, hp, hb⟩
  · exact .inl h
  · exact .inr ⟨h, s, p, hc, hk, hp, fun x hx => Nat.lt_of_lt_of_le (hb x hx) he⟩

/-- A step of a batch leaves a start behind that was behind before. -/
theorem JobStep.behind {id n : Nat} {b : Batch} {m : Move} {j : Job} {key : String} {e : Nat}
    (hb : b.Behind n key e) (h : JobStep f id (.batch b) m g j) :
    j.isDone = true ∨ ∃ b', j = .batch b' ∧ b'.Behind n key e := by
  have gone : b.current = none → n < b.reports.length := fun hc => by
    rcases hb with hb | ⟨-, s, p, hp, -⟩
    · exact hb
    · rw [hc] at hp; cases hp
  cases h with
  | @start _ s p _ _ r hc h =>
    refine .inr ⟨_, rfl, ?_⟩
    cases r with
    | done a =>
      refine .inl ?_
      rw [Batch.follow, List.length_append]
      rcases hb with hb | ⟨hb, -⟩
      · exact Nat.lt_of_lt_of_le hb (Nat.le_add_right _ _)
      · exact hb ▸ Nat.lt_succ_self _
    | «at» q =>
      rcases hb with hb | ⟨hb, s', p', hc', hk, hp, he⟩
      · exact .inl hb
      · rw [hc] at hc'
        cases hc'
        obtain ⟨hq, ⟨rfl, -⟩ | ⟨-, hqe⟩⟩ := h.epoch?
        · exact absurd rfl hp
        · exact .inr ⟨hb, s, q, rfl, hk, hq, fun x hx => he x (hqe x hx)⟩
  | begun hc => exact .inr ⟨_, rfl, .inl (gone hc)⟩
  | unmarked hc => exact .inr ⟨_, rfl, .inl (gone hc)⟩
  | skipped hc =>
    refine .inr ⟨_, rfl, .inl ?_⟩
    rw [List.length_append]
    exact Nat.lt_of_lt_of_le (gone hc) (Nat.le_add_right _ _)
  | started => exact .inl rfl

/-- A start that had begun is over, or the epoch of its source is ahead of it. -/
def Spent (f : Fleet) (key : String) (id n : Nat) : Prop :=
  id < f.nextJob ∧ ∀ j, f.jobs.get? id = some j →
    j.isDone = true ∨ ∃ b, j = .batch b ∧ b.Behind n key (f.memo key).epoch

theorem Spent.perform {key : String} {id n : Nat} {d : Deed} (h : f.Spent key id n) (hr : f.Reachable)
    (hd : f.perform? d = some g) : g.Spent key id n := by
  have hle := (hr.memo_le hd key).epoch
  refine ⟨Nat.lt_of_lt_of_le h.1 (performed hd).nextJob_le, fun j' hj' => ?_⟩
  rcases (performed hd).job_cases hj' with hj | ⟨j, m, g', rfl, hj, step, -⟩ | ⟨r, -, hid, -⟩
  · rcases h.2 j' hj with hdone | ⟨b, rfl, hb⟩
    · exact .inl hdone
    · exact .inr ⟨b, rfl, behind_mono hb hle⟩
  · rcases h.2 j hj with hdone | ⟨b, rfl, hb⟩
    · cases step <;> cases hdone
    · exact step.behind (behind_mono hb hle)
  · exact absurd h.1 (by omega)

theorem Spent.later {key : String} {id n : Nat} (h : f.Spent key id n) (hr : f.Reachable) (hg : f.Later g) :
    g.Spent key id n := by
  induction hg with
  | refl => exact h
  | tail hl hs ih =>
    obtain ⟨d, hd⟩ := hs
    exact ih.perform (hr.later hl) hd

/-! ## Commits -/

theorem batch_of_start? {id : Nat} {o : StartOrder} {p : StartPlace} (h : f.start? id = some (o, p)) :
    ∃ b s, f.jobs.get? id = some (.batch b) ∧ b.current = some (s, p) ∧ b.order s = o := by
  obtain ⟨j, hj, hs⟩ := Option.bind_eq_some_iff.mp h
  cases j with
  | batch b =>
    obtain ⟨⟨s, q⟩, hc, hsq⟩ := Option.map_eq_some_iff.mp hs
    cases hsq
    exact ⟨b, s, hj, hc, rfl⟩
  | _ => cases hs

/-- A spent start is behind its source as long as it is under way. -/
theorem Spent.behind {key : String} {id : Nat} {b : Batch} {s : Source} {p : StartPlace} {e : Nat}
    (h : f.Spent key id b.reports.length) (hj : f.jobs.get? id = some (.batch b)) (hc : b.current = some (s, p))
    (hp : p.epoch? = some e) : e < (f.memo key).epoch := by
  rcases h.2 _ hj with hdone | ⟨b', hb, hlt | ⟨-, s', p', hc', -, -, hlt⟩⟩
  · cases hdone
  · cases hb
    exact absurd hlt (Nat.lt_irrefl _)
  · cases hb
    rw [hc] at hc'
    cases hc'
    exact hlt e hp

/-- An encoder that a source tracks after a deed was tracked before, or a start of the source has committed it in the
epoch in which the start began. -/
theorem Reachable.tracked_cases {d : Deed} {key : String} {t : Tracked} (hr : f.Reachable) (hd : f.perform? d = some g)
    (ht : g.tracked? key = some t) : f.tracked? key = some t ∨
      ∃ id m o c n, d = .event (.job id m) ∧ f.start? id = some (o, .commit c n) ∧ o.key = key ∧
        (f.memo key).epoch = c.epoch ∧ t = ⟨n, f.pid? n, (f.life key).generation + 1, c.command⟩ := by
  rw [tracked?_eq] at ht
  rw [tracked?_eq]
  have same : (∀ k, g.life k = f.life k) → (f.life key).tracked = some t := fun hl => hl key ▸ ht
  cases hr.worked hd with
  | @start id o p m _ _ r hs _ step hf _ =>
    rw [life_of_states hf.states] at ht
    by_cases hk : key = o.key
    · subst hk
      rcases (hr.epochs.memoStep hr.records hs step).2 with hn | ⟨c, n, rfl, he⟩
      · exact .inl (hn t ht)
      · cases step with
        | abandoned ho => exact absurd he (overtaken_iff.mp ho)
        | committed =>
          rw [life_track, if_pos rfl] at ht
          cases ht
          exact .inr ⟨id, _, o, c, n, rfl, hs, rfl, he, rfl⟩
    · rw [(step.lifeStep (hr.records _).sound (hr.records.untracked hs)).2 key hk] at ht
      exact .inl ht
  | @stop id o p _ _ _ r _ _ _ step hf _ =>
    rw [life_of_states hf.states] at ht
    have hl := step.lifeStep (b := false) (c := false) fun _ h => h
    by_cases hk : key = o.key
    · subst hk
      exact .inl (hl.1.tracked rfl ht)
    · rw [hl.2 key hk] at ht
      exact .inl ht
  | @noticed n generation k _ _ code =>
    have hg : ((f.recordCrash k generation code).life key).tracked = some t := ht
    rcases life_recordCrash f k generation code with ⟨hl, -⟩ | ⟨-, hl, -⟩
    · exact .inl (hl key ▸ hg)
    · rw [hl] at hg
      split at hg
      · cases hg
      · exact .inl hg
  | begun _ _ hf _ => exact .inl (same (life_of_states hf.states))
  | unmarked _ _ _ _ _ _ hf _ =>
    exact .inl (same fun k => (life_of_states hf.states k).trans (life_setManualStop f _ _ k))
  | turned _ _ _ hf _ => exact .inl (same (life_of_states hf.states))
  | @submitted r _ hf _ => exact .inl (same fun k => (life_of_states hf.states k).trans (life_prepare f r k))
  | noted => exact .inl (same (life_ensure f _))
  | marked => exact .inl (same (life_setManualStop f _ _))
  | idle _ hs => exact .inl (same (life_of_states hs))
  | struck => exact .inl (same fun _ => rfl)
  | reaped => exact .inl (same fun _ => rfl)
  | exited => exact .inl (same fun _ => rfl)

/-- Whoever commits an encoder is a start that has begun and is not behind its source. -/
theorem commits_cases {d : Deed} {key : String} (hr : f.Reachable) (hd : f.perform? d = some g)
    (hc : f.Commits g key) : ∃ id m n, d = .event (.job id m) ∧ f.ordinal? id = some n ∧ ¬f.Spent key id n := by
  obtain ⟨t, ht, hne⟩ := hc
  rcases hr.tracked_cases hd ht with hold | ⟨id, m, o, c, n, rfl, hs, rfl, he, -⟩
  · exact absurd hold hne
  · obtain ⟨b, s, hj, hcur, -⟩ := batch_of_start? hs
    refine ⟨id, m, b.reports.length, rfl, by rw [ordinal?, hj]; rfl, fun hspent => ?_⟩
    have := hspent.behind hj hcur (e := c.epoch) rfl
    omega

/-! ## The critical section of a stop -/

/-- Whoever stops sources for a user knows them. -/
def Noted (f : Fleet) : Prop :=
  ∀ id j, f.jobs.get? id = some j → ∀ key ∈ j.manualKeys, (f.memo key).known = true

theorem JobStep.manualKeys {id : Nat} {j j' : Job} {m : Move} (h : JobStep f id j m g j') :
    j'.manualKeys ⊆ j.manualKeys := by
  cases h with
  | @stop s key p _ _ r hc h =>
    cases r with
    | «at» q => cases hm : s.manual <;> simp [Job.manualKeys, Sweep.follow, hc, hm]
    | done a => cases hm : s.manual <;> simp [Job.manualKeys, Sweep.follow, hc, hm]
  | @turned s key rest hc hr => simp [Job.manualKeys, hc, hr]
  | _ => exact List.nil_subset _

theorem known_of_mem_keys {key : String} (h : key ∈ f.keys) : (f.memo key).known = true := by
  rw [known_iff]
  exact KeyMap.contains_iff.mpr (List.mem_mergeSort.mp h)

theorem manualKeys_jobOf (f : Fleet) (r : Request) :
    ∀ key ∈ ((f.prepare r).jobOf r).manualKeys, ((f.prepare r).memo key).known = true := by
  intro key hkey
  cases r with
  | stop id manual =>
    cases manual with
    | false => cases id <;> simp [jobOf, Job.manualKeys] at hkey
    | true =>
      cases id with
      | none => exact known_of_mem_keys (by simpa [jobOf, Job.manualKeys] using hkey)
      | some id =>
        have hk : key = Text.fold id := by simpa [jobOf, Job.manualKeys] using hkey
        rw [hk, show (f.prepare (.stop (some id) true)) = f.ensure id from rfl, remembers_ensure, if_pos rfl]
        rfl
  | startConfigured id restart manual =>
    simp only [jobOf] at hkey
    cases hn : (f.prepare (.startConfigured id restart manual)).named id <;> rw [hn] at hkey <;> cases hkey
  | _ => cases hkey

theorem Reachable.noted (h : f.Reachable) : f.Noted := by
  induction h with
  | fresh => exact fun _ _ hj => nomatch hj
  | @perform f g d hr hd ih =>
    intro id j' hj' key hkey
    have hle := fun k => (hr.memo_le hd k).known
    rcases (performed hd).job_cases hj' with hj | ⟨j, m, g', -, hj, step, -⟩ | ⟨r, rfl, -, rfl⟩
    · exact hle key (ih id j' hj key hkey)
    · exact hle key (ih id j hj key (step.manualKeys hkey))
    · cases hd
      rw [memo_of_states (framed_submit f r).states]
      exact manualKeys_jobOf f r key hkey

theorem StopStep.tracked {o : StopOrder} {m : Move} {r : After StopPlace (Option String)}
    (h : StopStep f o .take m g r) : (g.life o.key).tracked = none := by
  cases h with
  | unknown hs => rw [life, hs]; rfl
  | @nothing s hs ht => rw [life_putState, if_pos rfl]; exact ht
  | taken hs ht => exact congrArg Life.tracked ((life_putState f o.key _ o.key).trans (if_pos rfl))

/-- After the critical section of a stop request no encoder is tracked for the source, and all starts of it that have
begun are behind. -/
theorem Stops.effect {d : Deed} {key : String} {manual : Bool} (hr : f.Reachable) (hd : f.perform? d = some g)
    (h : f.Stops d key manual) :
    ((f.memo key).known = true → g.memo key = (f.memo key).overtaken manual) ∧ (g.life key).tracked = none := by
  cases h with
  | request ht =>
    cases hr.worked hd with
    | start _ ht' =>
      rw [ht] at ht'
      obtain ⟨q, -, hq⟩ := Option.map_eq_some_iff.mp ht'.symm
      cases hq
    | stop _ ht' _ step hf _ =>
      rw [ht] at ht'
      cases ht'
      rw [memo_of_states hf.states, life_of_states hf.states]
      refine ⟨fun hk => ?_, step.tracked⟩
      rcases step.remembers with ⟨-, hn⟩ | ⟨-, -, hg⟩
      · rw [hn rfl] at hk; cases hk
      · exact (hg key).trans (if_pos rfl)
    | begun _ ht' => rw [ht] at ht'; cases ht'
    | unmarked _ ht' => rw [ht] at ht'; cases ht'
    | turned _ ht' => rw [ht] at ht'; cases ht'
    | idle hi => rw [(hi _ _ rfl).2] at ht; cases ht
  | @meanwhile id m o c b _ hs hp hm =>
    have hcl := hr.records.untracked hs rfl
    cases hr.worked hd with
    | start hs' _ step hf _ =>
      rw [hs] at hs'
      cases hs'
      rw [memo_of_states hf.states, life_of_states hf.states]
      cases step with
      | launched hp' =>
        rw [hp] at hp'
        cases hp'
        refine ⟨fun hk => ?_, ?_⟩
        · exact (remembers_interrupt hk hm o.key).trans (if_pos rfl)
        · exact (congrArg Life.tracked (life_interrupt hcl b o.key)).trans hcl
      | failed hp' => rw [hp] at hp'; cases hp'
    | stop hs' => rw [hs] at hs'; cases hs'
    | begun hs' => rw [hs] at hs'; cases hs'
    | unmarked hs' => rw [hs] at hs'; cases hs'
    | turned hs' => rw [hs] at hs'; cases hs'
    | idle hi => rw [(hi _ _ rfl).1] at hs; cases hs

/-- The epoch of a source changes in the critical section of a stop request, and at no other time. -/
theorem Reachable.epoch_cases {d : Deed} (hr : f.Reachable) (hd : f.perform? d = some g) (key : String) :
    (g.memo key).epoch = (f.memo key).epoch ∨ ∃ manual, f.Stops d key manual := by
  have keep : ∀ {a k change}, f.Remembers a k change → (change (f.memo k)).epoch = (f.memo k).epoch →
      (a.memo key).epoch = (f.memo key).epoch := fun ha hc => ha.keeps hc key
  cases hr.worked hd with
  | @start id o p _ _ _ _ hs _ step hf _ =>
    obtain ⟨⟨change, hms, hg⟩, -⟩ := hr.epochs.memoStep hr.records hs step
    rw [memo_of_states hf.states]
    cases hms with
    | overtaken hp hm =>
      by_cases hk : o.key = key
      · subst hk
        exact .inr ⟨_, .meanwhile hs hp hm⟩
      · rw [hg, if_neg fun h => hk h.symm]
        exact .inl rfl
    | _ => exact .inl (keep hg rfl)
  | @stop id o p _ _ _ _ _ ht ho step hf _ =>
    rw [memo_of_states hf.states]
    rcases step.remembers with ⟨hg, -⟩ | ⟨rfl, -, hg⟩
    · exact .inl (by rw [hg])
    · obtain ⟨k, manual, overtakes⟩ := o
      obtain rfl : overtakes = true := ho
      by_cases hk : k = key
      · subst hk
        exact .inr ⟨manual, .request ht⟩
      · rw [hg, if_neg fun h => hk h.symm]
        exact .inl rfl
  | @noticed n generation k _ _ code => exact .inl (congrArg Memo.epoch (memo_recordCrash f k generation code key))
  | unmarked _ _ _ _ _ _ hf _ =>
    rw [memo_of_states hf.states]
    exact .inl (keep (remembers_setManualStop f _ false) rfl)
  | @submitted r _ hf _ =>
    rw [memo_of_states hf.states]
    unfold prepare
    split
    · exact .inl (keep (remembers_ensure f _) rfl)
    · exact .inl rfl
  | begun _ _ hf _ => exact .inl (by rw [memo_of_states hf.states])
  | turned _ _ _ hf _ => exact .inl (by rw [memo_of_states hf.states])
  | idle _ hs => exact .inl (by rw [memo_of_states hs])
  | noted => exact .inl (keep (remembers_ensure f _) rfl)
  | marked => exact .inl (keep (remembers_setManualStop f _ _) rfl)
  | struck => exact .inl rfl
  | reaped => exact .inl rfl
  | exited => exact .inl rfl

/-- A source that is stopped for a user is known. -/
theorem Stops.known {d : Deed} {key : String} (hr : f.Reachable) (h : f.Stops d key true) :
    (f.memo key).known = true := by
  cases h with
  | @request id m _ _ ht =>
    obtain ⟨j, hj, hjt⟩ := Option.bind_eq_some_iff.mp ht
    cases j with
    | sweep s =>
      obtain ⟨⟨k, p⟩, hc, hcp⟩ := Option.map_eq_some_iff.mp hjt
      cases hm : s.manual with
      | true =>
        simp only [Sweep.order, Prod.mk.injEq, StopOrder.mk.injEq] at hcp
        refine hr.noted id _ hj key ?_
        simp [Job.manualKeys, hm, hc, hcp.1.1]
      | false => simp [Sweep.order, hm] at hcp
    | batch b =>
      obtain ⟨c, -, hq⟩ := Option.bind_eq_some_iff.mp hjt
      obtain ⟨q, -, hq⟩ := Option.map_eq_some_iff.mp hq
      cases hq
    | _ => cases hjt
  | meanwhile hs => exact (hr.epochs _ _ _ hs nofun).1

/-- A stop request leaves all starts of its source spent that had begun. -/
theorem Stops.spent {d : Deed} {key : String} {manual : Bool} {id n : Nat} (hr : f.Reachable)
    (hd : f.perform? d = some g) (h : f.Stops d key manual) (hb : f.Begun key id n) : g.Spent key id n := by
  obtain ⟨hn, o, p, hs, rfl, hp⟩ := hb
  obtain ⟨b, s, hj, hc, rfl⟩ := batch_of_start? hs
  obtain ⟨hk, he⟩ := hr.epochs _ _ _ hs hp
  rw [ordinal?, hj, Option.map_some, Option.some.injEq] at hn
  have hid : id < f.nextJob := Nat.lt_of_not_le fun hle => by
    rw [hr.numbered id hle] at hj
    cases hj
  have hg : (g.memo (b.order s).key).epoch = (f.memo (b.order s).key).epoch + 1 :=
    congrArg Memo.epoch ((h.effect hr hd).1 hk)
  have hbehind : b.Behind n (b.order s).key (g.memo (b.order s).key).epoch :=
    .inr ⟨hn, s, p, hc, rfl, hp, fun e hpe => by rw [hg]; exact Nat.lt_succ_of_le (he e hpe)⟩
  refine ⟨Nat.lt_of_lt_of_le hid (performed hd).nextJob_le, fun j' hj' => ?_⟩
  rcases (performed hd).job_cases hj' with hj'' | ⟨j, m, g', -, hj'', step, -⟩ | ⟨r, -, hid', -⟩
  · rw [hj] at hj''
    cases hj''
    exact .inr ⟨b, rfl, hbehind⟩
  · rw [hj] at hj''
    cases hj''
    exact step.behind hbehind
  · omega

/-! ## Marks -/

/-- A mark stays, as long as no encoder is tracked before and after, unless it is taken off. -/
theorem Worked.keeps_mark {d : Deed} {key : String} (hr : f.Reachable) (h : Worked f d g)
    (hm : (f.memo key).marked = true) (ht : (f.life key).tracked = none) (ht' : (g.life key).tracked = none) :
    (g.memo key).marked = true ∨ f.Unmarks d key := by
  have keep : ∀ {a k change}, f.Remembers a k change → ((change (f.memo k)).marked = true ∨ k ≠ key ∨
      (f.memo k).marked = (change (f.memo k)).marked) → (a.memo key).marked = true := by
    intro a k change hg hc
    rw [hg]
    split
    · next hk =>
      subst hk
      rcases hc with hc | hc | hc
      · exact hc
      · exact absurd rfl hc
      · rw [← hc]; exact hm
    · exact hm
  cases h with
  | @start id o p _ _ _ _ hs _ step hf _ =>
    obtain ⟨⟨change, hms, hg⟩, -⟩ := hr.epochs.memoStep hr.records hs step
    rw [memo_of_states hf.states]
    refine .inl (keep hg ?_)
    cases hms with
    | same => exact .inr (.inr rfl)
    | noted => exact .inr (.inr rfl)
    | found htr =>
      refine .inr (.inl fun hk => ?_)
      rw [hk, ht] at htr
      cases htr
    | committed he =>
      refine .inr (.inl fun hk => ?_)
      rw [life_of_states hf.states, ← hk] at ht'
      cases step with
      | abandoned ho => exact overtaken_iff.mp ho he
      | committed => rw [life_track, if_pos rfl] at ht'; cases ht'
    | overtaken =>
      by_cases hk : o.key = key
      · exact .inl (by rw [hk]; simp [Memo.overtaken, hm])
      · exact .inr (.inl hk)
  | @stop id o p _ _ _ r _ _ _ step hf _ =>
    rw [memo_of_states hf.states]
    rcases step.remembers with ⟨hg, -⟩ | ⟨-, -, hg⟩
    · exact .inl (by rw [hg]; exact hm)
    · refine .inl (keep hg ?_)
      by_cases hk : o.key = key
      · exact .inl (by rw [hk]; simp [StopOrder.noteMemo, hm])
      · exact .inr (.inl hk)
  | @unmarked id o _ _ b _ _ hj hc hrest hb hf _ =>
    by_cases hk : Text.fold o.source.id = key
    · subst hk
      exact .inr (.batch hj hc hrest hb)
    · rw [memo_of_states hf.states]
      exact .inl (keep (remembers_setManualStop f _ false) (.inr (.inl hk)))
  | @marked id value =>
    by_cases hk : Text.fold id = key
    · subst hk
      cases value with
      | false => exact .inr .caller
      | true => exact .inl (keep (remembers_setManualStop f id true) (.inl rfl))
    · exact .inl (keep (remembers_setManualStop f id value) (.inr (.inl hk)))
  | begun _ _ hf _ => exact .inl (by rw [memo_of_states hf.states]; exact hm)
  | turned _ _ _ hf _ => exact .inl (by rw [memo_of_states hf.states]; exact hm)
  | @submitted r _ hf _ =>
    rw [memo_of_states hf.states]
    unfold prepare
    split
    · exact .inl (keep (remembers_ensure f _) (.inr (.inr rfl)))
    · exact .inl hm
  | noted => exact .inl (keep (remembers_ensure f _) (.inr (.inr rfl)))
  | idle _ hs => exact .inl (by rw [memo_of_states hs]; exact hm)
  | @noticed n generation k _ _ code =>
    exact .inl ((congrArg Memo.marked (memo_recordCrash f k generation code key)).trans hm)
  | struck => exact .inl hm
  | reaped => exact .inl hm
  | exited => exact .inl hm

/-- Deeds that have no business with the marks leave all of them alone. -/
theorem Bystanding.marked {d : Deed} (hr : f.Reachable) (hd : f.perform? d = some g) (h : f.Bystanding d)
    (key : String) : (g.memo key).marked = (f.memo key).marked := by
  have keep : ∀ {a k change}, f.Remembers a k change → (change (f.memo k)).marked = (f.memo k).marked →
      (a.memo key).marked = (f.memo key).marked := fun hg hc => hg.keeps hc key
  cases h with
  | exit => cases hd; rfl
  | @submit id => cases hd; cases id <;> rfl
  | strike =>
    cases hr.worked hd with
    | struck => rfl
    | idle _ hs => rw [memo_of_states hs]
  | notice =>
    cases hr.worked hd with
    | reaped => rfl
    | @noticed n generation k _ _ code => exact congrArg Memo.marked (memo_recordCrash f k generation code key)
    | idle _ hs => rw [memo_of_states hs]
  | @stop id m o p ht hm =>
    cases hr.worked hd with
    | @start id o' p' _ _ _ _ hs ht' step hf _ =>
      obtain ⟨⟨change, hms, hg⟩, -⟩ := hr.epochs.memoStep hr.records hs step
      rw [memo_of_states hf.states]
      refine keep hg ?_
      rw [ht] at ht'
      obtain ⟨q, hq, -⟩ := Option.map_eq_some_iff.mp ht'.symm
      cases hms with
      | same => rfl
      | noted => rfl
      | found => cases hq
      | committed => cases hq
      | overtaken => cases hq
    | stop _ ht' _ step hf _ =>
      rw [ht] at ht'
      cases ht'
      rw [memo_of_states hf.states]
      rcases step.remembers with ⟨hg, -⟩ | ⟨-, -, hg⟩
      · rw [hg]
      · exact keep hg (by simp [StopOrder.noteMemo, hm])
    | begun _ ht' => rw [ht] at ht'; cases ht'
    | unmarked _ ht' => rw [ht] at ht'; cases ht'
    | turned _ ht' => rw [ht] at ht'; cases ht'
    | idle _ hs => rw [memo_of_states hs]
  | @meanwhile id m o c b hs hp hm =>
    cases hr.worked hd with
    | start hs' _ step hf _ =>
      rw [hs] at hs'
      cases hs'
      obtain ⟨⟨change, hms, hg⟩, -⟩ := hr.epochs.memoStep hr.records hs step
      rw [memo_of_states hf.states]
      refine keep hg ?_
      cases hms with
      | same => rfl
      | noted => rfl
      | overtaken hp' hm' =>
        rw [hp] at hp'
        cases hp'
        rw [hm] at hm'
        cases hm'
        simp [Memo.overtaken]
    | stop hs' => rw [hs] at hs'; cases hs'
    | begun hs' => rw [hs] at hs'; cases hs'
    | unmarked hs' => rw [hs] at hs'; cases hs'
    | turned hs' => rw [hs] at hs'; cases hs'
    | idle _ hs' => rw [memo_of_states hs']

/-! ## The law of stops -/

theorem LaterWithout.later {bad : Fleet → Deed → Fleet → Prop} (h : LaterWithout bad f g) : f.Later g :=
  Relation.ReflTransGen.mono (fun _ _ ⟨d, hd, _⟩ => ⟨d, hd⟩) _ _ h

/-- Let a deed contain the critical section of a stop request at a source. No start of that source that had begun before
it commits an encoder after it. If a user asked for the stop, then the mark that the source has from then on stays until
a start commits that had not begun, or until it is taken off. Encoders that end, and stops that no user asked for, leave
all marks alone. -/
theorem stop_overtakes_starts (h : f.Reachable) :
    (∀ d g key manual, f.perform? d = some g → f.Stops d key manual →
      (∀ id n, f.Begun key id n → ∀ a m b, g.Later a → a.perform? (.event (.job id m)) = some b →
        a.ordinal? id = some n → ¬a.Commits b key) ∧
      (manual = true → ∀ a, LaterWithout (Lifts f key) g a → a.isMarked key = true)) ∧
    (∀ d g, f.perform? d = some g → f.Bystanding d → ∀ key, g.isMarked key = f.isMarked key) := by
  refine ⟨fun d g key manual hd hx => ?_, fun d g hd hb key => ?_⟩
  · have hg := h.perform hd
    have hspent : ∀ {id n a}, f.Begun key id n → g.Later a → a.Spent key id n := fun hb ha =>
      (hx.spent h hd hb).later hg ha
    refine ⟨fun id n hb a m b ha hs hn hc => ?_, ?_⟩
    · obtain ⟨id', m', n', he, hn', hns⟩ := commits_cases (hg.later ha) hs hc
      cases he
      rw [hn] at hn'
      cases hn'
      exact hns (hspent hb ha)
    · rintro rfl a ha
      rw [isMarked_eq]
      -- Until a start commits no encoder is tracked, so no start finds one and takes the mark off.
      suffices (a.memo key).marked = true ∧ (a.life key).tracked = none from this.1
      induction ha with
      | refl =>
        obtain ⟨hmemo, ht⟩ := hx.effect h hd
        refine ⟨?_, ht⟩
        rw [hmemo (hx.known h)]
        exact Bool.or_true _
      | @tail a b ha hs ih =>
        obtain ⟨e, he, hbad⟩ := hs
        have hr := hg.later (LaterWithout.later ha)
        have ht : (b.life key).tracked = none := by
          cases ht : (b.life key).tracked with
          | none => rfl
          | some t =>
            have hc : a.Commits b key := ⟨t, by rw [tracked?_eq]; exact ht, by rw [tracked?_eq, ih.2]; nofun⟩
            obtain ⟨id, m, n, rfl, hn, hns⟩ := commits_cases hr he hc
            refine absurd (.inr ⟨id, m, n, rfl, hn, fun hb => hns ?_, hc⟩) hbad
            exact hspent hb (LaterWithout.later ha)
        rcases (hr.worked he).keeps_mark hr ih.1 ih.2 ht with hm | hm
        · exact ⟨hm, ht⟩
        · exact absurd (.inl hm) hbad
  · rw [isMarked_eq, isMarked_eq]
    exact hb.marked h hd key

/-- A start of a camera has launched its encoder and is about to commit it when a user stops the camera. It never does,
and the mark is there. -/
theorem stop_overtakes_commit : ∃ f g : Fleet, ∃ d, f.Reachable ∧ f.perform? d = some g ∧ f.Stops d "cam" true ∧
    f.Begun "cam" 0 0 ∧ (f.start? 0).any (fun s => s.2.encoder? == some 0) = true ∧
    (∀ a m b, g.Later a → a.perform? (.event (.job 0 m)) = some b → a.ordinal? 0 = some 0 → ¬a.Commits b "cam") ∧
    g.isMarked "cam" = true := by
  obtain ⟨f, hf, h⟩ := exists_of_run
    (p := fun f => (f.perform? (.event (.job 1 .proceed))).isSome &&
      decide (f.stop? 1 = some (⟨"cam", true, true⟩, .take)) && decide (f.ordinal? 0 = some 0) &&
      (f.start? 0).any (fun s => s.1.key == "cam" && s.2 != .enter && s.2.encoder? == some 0))
    ([.submit (.start camera), .submit (.stop (some "cam") true)] ++ goesOn 0 11 ++ goesOn 1 1) (by decide +kernel)
  simp only [Bool.and_eq_true, decide_eq_true_eq] at h
  obtain ⟨⟨⟨hd, ht⟩, hn⟩, hs⟩ := h
  obtain ⟨g, hd⟩ := Option.isSome_iff_exists.mp hd
  obtain ⟨⟨o, p⟩, hs, hp⟩ := (Option.any_eq_true _ _).mp hs
  simp only [Bool.and_eq_true, beq_iff_eq, bne_iff_ne] at hp
  obtain ⟨⟨hk, hne⟩, he⟩ := hp
  have hb : f.Begun "cam" 0 0 := ⟨hn, o, p, hs, hk, hne⟩
  obtain ⟨h₁, h₂⟩ := (stop_overtakes_starts hf).1 _ g "cam" true hd (.request ht)
  exact ⟨f, g, _, hf, hd, .request ht, hb, by simp [hs, he], h₁ 0 0 hb, h₂ rfl g .refl⟩

end Fleet

end EncoderFleet
