import EncoderFleet.Proofs.Fleet.Jobs

/-!
# Starts and stops under way

What sources, encoders and lines go through depends on a job only through the start and the stop that are under way in
it. `Worked` is one deed as these see it: a step of a start or a stop, the beginning of one, or something that touches
neither (`Performed.worked`). Whatever a deed does, at most the start and the stop of one job change (`Passed`).
-/

namespace EncoderFleet

/-- The stop of the old encoder as a part of a start. -/
def StartOrder.stop? (o : StartOrder) (p : StartPlace) : Option (StopOrder × StopPlace) :=
  p.stop?.map fun q => (⟨o.key, false, false⟩, q)

namespace Job

theorem start?_batch {b : Batch} {s : Source} {p : StartPlace} (h : b.current = some (s, p)) :
    (batch b).start? = some (b.order s, p) := by simp [start?, h]

theorem stop?_batch {b : Batch} {s : Source} {p : StartPlace} (h : b.current = some (s, p)) :
    (batch b).stop? = (b.order s).stop? p := by simp [stop?, h, StartOrder.stop?]

theorem start?_follow (b : Batch) (s : Source) (r : Fleet.After StartPlace StartResult) :
    (batch (b.follow s r)).start? = r.place?.map fun p => (b.order s, p) := by cases r <;> rfl

theorem stop?_follow (b : Batch) (s : Source) (r : Fleet.After StartPlace StartResult) :
    (batch (b.follow s r)).stop? = r.place?.bind (b.order s).stop? := by cases r <;> rfl

theorem stop?_sweep {s : Sweep} {key : String} {p : StopPlace} (h : s.current = some (key, p)) :
    (sweep s).stop? = some (s.order key, p) := by simp [stop?, h]

theorem stop?_sweep_follow (s : Sweep) (key : String) (r : Fleet.After StopPlace (Option String)) :
    (sweep (s.follow key r)).stop? = r.place?.map fun p => (s.order key, p) := by cases r <;> rfl

end Job

namespace Fleet

/-- At most the start and the stop of one job have changed; these are what is under way in it now. -/
structure Passed (f g : Fleet) (id : Nat) (s : Option (StartOrder × StartPlace)) (t : Option (StopOrder × StopPlace)) :
    Prop where
  start? (k : Nat) : g.start? k = if k = id then s else f.start? k
  stop? (k : Nat) : g.stop? k = if k = id then t else f.stop? k

/-- The same starts and stops are under way, and stand where they stood. -/
structure Unmoved (f g : Fleet) : Prop where
  start? (k : Nat) : g.start? k = f.start? k
  stop? (k : Nat) : g.stop? k = f.stop? k

/-- One deed, as sources, encoders and lines see it. -/
inductive Worked (f : Fleet) : Deed → Fleet → Prop
  | start {id : Nat} {o : StartOrder} {p : StartPlace} {m : Move} {g h : Fleet} {r : After StartPlace StartResult}
      (hs : f.start? id = some (o, p)) (ht : f.stop? id = o.stop? p) (step : StartStep f id o p m g r)
      (hf : g.Framed h) (hp : f.Passed h id (r.place?.map fun p => (o, p)) (r.place?.bind o.stop?)) :
      Worked f (.event (.job id m)) h
  | stop {id : Nat} {o : StopOrder} {p : StopPlace} {m : Move} {g h : Fleet} {r : After StopPlace (Option String)}
      (hs : f.start? id = none) (ht : f.stop? id = some (o, p)) (ho : o.overtakes = true) (step : StopStep f o p m g r)
      (hf : g.Framed h) (hp : f.Passed h id none (r.place?.map fun p => (o, p))) :
      Worked f (.event (.job id m)) h
  | begun {id : Nat} {o : StartOrder} {m : Move} {h : Fleet} (hs : f.start? id = none) (ht : f.stop? id = none)
      (hf : f.Framed h) (hp : f.Passed h id (some (o, .enter)) none) : Worked f (.event (.job id m)) h
  | unmarked {id : Nat} {o : StartOrder} {m : Move} {h : Fleet} {b : Batch} (hs : f.start? id = none)
      (ht : f.stop? id = none) (hj : f.jobs.get? id = some (.batch b)) (hc : b.current = none)
      (hr : b.rest.head? = some o.source) (hb : b.rule = .clear)
      (hf : (f.setManualStop o.source.id false).Framed h) (hp : f.Passed h id (some (o, .enter)) none) :
      Worked f (.event (.job id m)) h
  | turned {id : Nat} {o : StopOrder} {m : Move} {h : Fleet} (hs : f.start? id = none) (ht : f.stop? id = none)
      (ho : o.overtakes = true) (hf : f.Framed h) (hp : f.Passed h id none (some (o, .take))) :
      Worked f (.event (.job id m)) h
  | struck {n generation : Nat} {key : String} {e : Encoder} (he : f.encoder? n = some e)
      (hk : e.keeper = .watcher key generation true false) :
      Worked f (.event (.strike n))
        (f.modifyEncoder n fun e => { e.kill with keeper := .watcher key generation true true })
  | reaped {n generation : Nat} {key : String} {asked : Bool} {e : Encoder} {code : ExitCode}
      (he : f.encoder? n = some e) (hk : e.keeper = .watcher key generation asked true) (hc : e.ended = some code) :
      Worked f (.event (.notice n)) (f.modifyEncoder n fun e => { e with keeper := .gone code })
  | noticed {n generation : Nat} {key : String} {asked : Bool} {e : Encoder} {code : ExitCode}
      (he : f.encoder? n = some e) (hk : e.keeper = .watcher key generation asked false) (hc : e.ended = some code) :
      Worked f (.event (.notice n))
        ((f.recordCrash key generation code).modifyEncoder n fun e => { e with keeper := .gone code })
  | submitted {r : Request} {h : Fleet} (hf : (f.prepare r).Framed h) (hu : f.Unmoved h) : Worked f (.submit r) h
  | noted {id : String} : Worked f (.note id) (f.ensure id)
  | marked {id : String} {value : Bool} : Worked f (.mark id value) (f.setManualStop id value)
  | exited {n : Nat} {code : ExitCode} : Worked f (.exit n code) (f.exit n code)
  | idle {d : Deed} {h : Fleet} (hd : ∀ id m, d = .event (.job id m) → f.start? id = none ∧ f.stop? id = none)
      (hs : h.states = f.states) (hl : h.lines = f.lines) (he : h.standings = f.standings) (hu : f.Unmoved h)
      (hn : ∀ n, d ≠ .event (.notice n)) : Worked f d h

variable {f g : Fleet}

theorem SameAgenda.unmoved (h : f.SameAgenda g) : f.Unmoved g where
  start? k := by rw [Fleet.start?, h.jobs]; rfl
  stop? k := by rw [Fleet.stop?, h.jobs]; rfl

theorem Quiet.unmoved (h : f.Quiet g) : f.Unmoved g := ⟨h.start?, h.stop?⟩

theorem start?_of_get? {id : Nat} {j : Job} (h : f.jobs.get? id = some j) : f.start? id = j.start? := by
  rw [start?, h, Option.bind_some]

theorem stop?_of_get? {id : Nat} {j : Job} (h : f.jobs.get? id = some j) : f.stop? id = j.stop? := by
  rw [stop?, h, Option.bind_some]

/-- A step passes from what is under way in its job to what the step leaves under way. -/
theorem JobStep.passed {id : Nat} {j j' : Job} {m : Move} (h : JobStep f id j m g j') :
    f.Passed (g.putJob id j') id j'.start? j'.stop? := ⟨h.start?, h.stop?⟩

/-- A step that leaves under way what was under way moves nothing. -/
theorem JobStep.unmoved {id : Nat} {j j' : Job} {m : Move} (hj : f.jobs.get? id = some j) (h : JobStep f id j m g j')
    (hs : j'.start? = j.start?) (ht : j'.stop? = j.stop?) : f.Unmoved (g.putJob id j') where
  start? k := by
    rw [h.start?, hs]
    split
    · next hk => rw [hk, start?_of_get? hj]
    · rfl
  stop? k := by
    rw [h.stop?, ht]
    split
    · next hk => rw [hk, stop?_of_get? hj]
    · rfl

theorem lend_scene (f : Fleet) (holder source : String) :
    (f.lend holder source).states = f.states ∧ (f.lend holder source).standings = f.standings := by
  unfold lend
  dsimp only
  split <;> exact ⟨rfl, rfl⟩

theorem JobStep.worked {id : Nat} {j j' : Job} {m : Move} (hj : f.jobs.get? id = some j) (h : JobStep f id j m g j') :
    Worked f (.event (.job id m)) (g.putJob id j') := by
  have hs := start?_of_get? hj
  have ht := stop?_of_get? hj
  have hf := framed_putJob g id j'
  have hp := h.passed
  have hu := h.unmoved hj
  have hidle : j.start? = none → j.stop? = none → ∀ i n, Deed.event (.job id m) = .event (.job i n) →
      f.start? i = none ∧ f.stop? i = none := by
    rintro h₁ h₂ i n ⟨⟩
    exact ⟨hs.trans h₁, ht.trans h₂⟩
  cases h with
  | @start b s p _ _ r hc h =>
    rw [Job.start?_batch hc] at hs
    rw [Job.stop?_batch hc] at ht
    rw [Job.start?_follow, Job.stop?_follow] at hp
    exact .start hs ht h hf hp
  | @stop s key p _ _ r hc h =>
    rw [Job.stop?_sweep hc] at ht
    rw [Job.stop?_sweep_follow] at hp
    exact .stop hs ht rfl h hf hp
  | @begun b s rest hc hr hb =>
    refine .begun (o := b.order s) ?_ ?_ hf hp
    · rw [hs]; simp [Job.start?, hc]
    · rw [ht]; simp [Job.stop?, hc]
  | @unmarked b s rest hc hr hb =>
    refine .unmarked (o := b.order s) ?_ ?_ hj hc (by rw [hr]; rfl) hb hf hp
    · rw [hs]; simp [Job.start?, hc]
    · rw [ht]; simp [Job.stop?, hc]
  | @turned s key rest hc hr =>
    refine .turned (o := s.order key) hs ?_ rfl hf hp
    rw [ht]; simp [Job.stop?, hc]
  | skipped hc hr hb hm =>
    refine .idle (hidle ?_ ?_) hf.states hf.lines hf.standings (hu rfl rfl) nofun
    · simp [Job.start?, hc]
    · simp [Job.stop?, hc]
  | @started b hc hr =>
    have h₁ : (Job.batch b).start? = none := by simp [Job.start?, hc]
    have h₂ : (Job.batch b).stop? = none := by simp [Job.stop?, hc]
    exact .idle (hidle h₁ h₂) hf.states hf.lines hf.standings (hu h₁.symm h₂.symm) nofun
  | @swept s hc hr =>
    have h₂ : (Job.sweep s).stop? = none := by simp [Job.stop?, hc]
    exact .idle (hidle rfl h₂) hf.states hf.lines hf.standings (hu rfl h₂.symm) nofun
  | changing hk =>
    have hf := hk.toFramed.trans hf
    exact .idle (hidle rfl rfl) hf.states hf.lines hf.standings (hu rfl rfl) nofun
  | changed hk _ =>
    have hf := hk.toFramed.trans hf
    exact .idle (hidle rfl rfl) hf.states hf.lines hf.standings (hu rfl rfl) nofun
  | @lent holder source _ gate hg =>
    have hl := lend_scene { f with gate := gate } holder source
    have ha := agenda_lend { f with gate := gate } holder source
    exact .idle (hidle rfl rfl) (hf.states.trans hl.1) (hf.lines.trans ha.lines) (hf.standings.trans hl.2) (hu rfl rfl)
      nofun
  | @granted holder source _ gate hg =>
    have hl := lend_scene { f with gate := gate } holder source
    have ha := agenda_lend { f with gate := gate } holder source
    exact .idle (hidle rfl rfl) (hf.states.trans hl.1) (hf.lines.trans ha.lines) (hf.standings.trans hl.2) (hu rfl rfl)
      nofun
  | called hg => exact .idle (hidle rfl rfl) hf.states hf.lines hf.standings (hu rfl rfl) nofun
  | late hd => exact .idle (hidle rfl rfl) hf.states hf.lines hf.standings (hu rfl rfl) nofun

/-- A step of a job in which a start is under way is a step of that start. -/
theorem startStep_of_stepJob {id : Nat} {m : Move} {o : StartOrder} {p : StartPlace} (hd : f.stepJob id m = some g)
    (hs : f.start? id = some (o, p)) : ∃ g' r j, StartStep f id o p m g' r ∧ g = g'.putJob id j ∧
      g.start? id = r.place?.map fun p => (o, p) := by
  obtain ⟨j, g', j', hj, step, rfl⟩ := jobStep_of_stepJob hd
  have hp := step.passed.start? id
  rw [if_pos rfl] at hp
  rw [start?_of_get? hj] at hs
  cases step with
  | @start b s q _ _ r hc step =>
    rw [Job.start?_batch hc] at hs
    cases hs
    rw [Job.start?_follow] at hp
    exact ⟨g', r, _, step, rfl, hp⟩
  | begun hc => simp [Job.start?, hc] at hs
  | unmarked hc => simp [Job.start?, hc] at hs
  | skipped hc => simp [Job.start?, hc] at hs
  | started hc => simp [Job.start?, hc] at hs
  | _ => cases hs

theorem framed_submit (f : Fleet) (r : Request) : (f.prepare r).Framed (f.submit r).2 :=
  ⟨rfl, rfl, rfl, rfl, rfl, rfl⟩

theorem Performed.worked {d : Deed} (hn : f.Numbered) (h : Performed f d g) : Worked f d g := by
  cases h with
  | job hj h => exact h.worked hj
  | struck he hk => exact .struck he hk
  | reaped he hk hc => exact .reaped he hk hc
  | noticed he hk hc => exact .noticed he hk hc
  | @submitted r => exact .submitted (framed_submit f r) ⟨hn.start?_submit r, hn.stop?_submit r⟩
  | noted => exact .noted
  | marked => exact .marked
  | @borrowed holder source gate hg =>
    have hl := lend_scene { f with gate := gate } holder source
    have ha := agenda_lend { f with gate := gate } holder source
    exact .idle nofun hl.1 ha.lines hl.2 (SameAgenda.unmoved ⟨ha.settings, ha.lines, ha.jobs, ha.nextJob⟩)
      nofun
  | @gaveBack holder =>
    have ha := agenda_takeBack f holder
    refine .idle nofun ?_ ha.lines ?_ ha.unmoved nofun
    · unfold takeBack; split <;> rfl
    · unfold takeBack; split <;> rfl
  | exited => exact .exited
  | quiet hd h =>
    refine .idle (fun id m hm => ?_) h.states h.lines h.standings h.unmoved fun n hm => ?_
    · rw [hm] at hd; cases hd
    · rw [hm] at hd; cases hd

/-- What is under way as a start in a job stays as it is, or has just begun, or takes a step of its own. -/
theorem Worked.start?_change {d : Deed} (h : Worked f d g) (k : Nat) :
    g.start? k = f.start? k ∨ (f.start? k = none ∧ ∃ o, g.start? k = some (o, .enter)) ∨
      ∃ m o p g' r, d = .event (.job k m) ∧ f.start? k = some (o, p) ∧ StartStep f k o p m g' r ∧ g'.Framed g ∧
        g.start? k = r.place?.map fun p => (o, p) := by
  -- What is under way in the job of the deed after it, and in any other job.
  have passed : ∀ {id : Nat} {s : Option (StartOrder × StartPlace)} {t : Option (StopOrder × StopPlace)},
      f.Passed g id s t → (k = id ∧ g.start? k = s) ∨ g.start? k = f.start? k := by
    intro id s t hp
    rw [hp.start?]
    split
    · next hk => exact .inl ⟨hk, rfl⟩
    · exact .inr rfl
  have begins : ∀ {id : Nat} {o : StartOrder} {t : Option (StopOrder × StopPlace)}, f.start? id = none →
      f.Passed g id (some (o, .enter)) t →
      g.start? k = f.start? k ∨ f.start? k = none ∧ ∃ o, g.start? k = some (o, .enter) := by
    intro id o t hs hp
    rcases passed hp with ⟨rfl, hg⟩ | hg
    · exact .inr ⟨hs, o, hg⟩
    · exact .inl hg
  have vacant : ∀ {id : Nat} {t : Option (StopOrder × StopPlace)}, f.start? id = none → f.Passed g id none t →
      g.start? k = f.start? k := by
    intro id t hs hp
    rcases passed hp with ⟨rfl, hg⟩ | hg
    · exact hg.trans hs.symm
    · exact hg
  cases h with
  | @start id o p m g' _ r hs _ step hf hp =>
    rcases passed hp with ⟨rfl, hg⟩ | hg
    · exact .inr (.inr ⟨m, o, p, g', r, rfl, hs, step, hf, hg⟩)
    · exact .inl hg
  | stop hs _ _ _ _ hp => exact .inl (vacant hs hp)
  | turned hs _ _ _ hp => exact .inl (vacant hs hp)
  | begun hs _ _ hp => exact (begins hs hp).imp_right .inl
  | unmarked hs _ _ _ _ _ _ hp => exact (begins hs hp).imp_right .inl
  | @noticed n generation key _ _ code => exact .inl ((agenda_noticed f key generation n code).unmoved.start? k)
  | submitted _ hu => exact .inl (hu.start? k)
  | idle _ _ _ _ hu _ => exact .inl (hu.start? k)
  | struck => exact .inl rfl
  | reaped => exact .inl rfl
  | noted => exact .inl rfl
  | marked => exact .inl rfl
  | exited => exact .inl rfl

/-- What is under way as a stop in a job stays as it is, and then the deed is no step of it, or has just begun, or takes
a step of its own. -/
theorem Worked.stop?_change {d : Deed} (h : Worked f d g) (k : Nat) :
    (g.stop? k = f.stop? k ∧ ∀ m, d = .event (.job k m) → f.stop? k = none) ∨
    (f.stop? k = none ∧ ∃ o, g.stop? k = some (o, .take)) ∨
    ∃ m o p g' r, d = .event (.job k m) ∧ f.stop? k = some (o, p) ∧ StopStep f o p m g' r ∧ g'.Framed g ∧
      g.stop? k = r.place?.map fun p => (o, p) := by
  -- What is under way in the job of the deed after it, and in any other job.
  have passed : ∀ {id : Nat} {m : Move} {s : Option (StartOrder × StartPlace)} {t : Option (StopOrder × StopPlace)},
      d = .event (.job id m) → f.Passed g id s t →
      (k = id ∧ g.stop? k = t) ∨ (g.stop? k = f.stop? k ∧ ∀ m, d = .event (.job k m) → f.stop? k = none) := by
    rintro id m s t rfl hp
    rw [hp.stop?]
    split
    · next hk => exact .inl ⟨hk, rfl⟩
    · next hk =>
      refine .inr ⟨rfl, fun m' hm => ?_⟩
      cases hm
      exact absurd rfl hk
  cases h with
  | @start id o p m g' _ r hs ht step hf hp =>
    rcases passed rfl hp with ⟨rfl, hg⟩ | hg
    · cases step with
      | retiring step => exact .inr (.inr ⟨m, _, _, g', _, rfl, ht, step, hf, hg⟩)
      | retired step => exact .inr (.inr ⟨m, _, _, g', _, rfl, ht, step, hf, hg⟩)
      | replacing => exact .inr (.inl ⟨ht, _, hg⟩)
      | _ => exact .inl ⟨hg.trans ht.symm, fun _ _ => ht⟩
    · exact .inl hg
  | @stop id o p m g' _ r _ ht _ step hf hp =>
    rcases passed rfl hp with ⟨rfl, hg⟩ | hg
    · exact .inr (.inr ⟨m, o, p, g', r, rfl, ht, step, hf, hg⟩)
    · exact .inl hg
  | begun _ ht _ hp =>
    rcases passed rfl hp with ⟨rfl, hg⟩ | hg
    · exact .inl ⟨hg.trans ht.symm, fun _ _ => ht⟩
    · exact .inl hg
  | unmarked _ ht _ _ _ _ _ hp =>
    rcases passed rfl hp with ⟨rfl, hg⟩ | hg
    · exact .inl ⟨hg.trans ht.symm, fun _ _ => ht⟩
    · exact .inl hg
  | turned _ ht _ _ hp =>
    rcases passed rfl hp with ⟨rfl, hg⟩ | hg
    · exact .inr (.inl ⟨ht, _, hg⟩)
    · exact .inl hg
  | @noticed n generation key _ _ code =>
    exact .inl ⟨(agenda_noticed f key generation n code).unmoved.stop? k, nofun⟩
  | submitted _ hu => exact .inl ⟨hu.stop? k, nofun⟩
  | idle hd _ _ _ hu _ => exact .inl ⟨hu.stop? k, fun m hm => (hd k m hm).2⟩
  | struck => exact .inl ⟨rfl, nofun⟩
  | reaped => exact .inl ⟨rfl, nofun⟩
  | noted => exact .inl ⟨rfl, nofun⟩
  | marked => exact .inl ⟨rfl, nofun⟩
  | exited => exact .inl ⟨rfl, nofun⟩

/-- The stop in a job in which a start is under way is that of the start. -/
theorem stop?_of_start? {id : Nat} {o : StartOrder} {p : StartPlace} (hs : f.start? id = some (o, p)) :
    f.stop? id = o.stop? p := by
  obtain ⟨j, hj, hs⟩ := Option.bind_eq_some_iff.mp hs
  rw [stop?_of_get? hj]
  cases j with
  | batch b =>
    obtain ⟨c, hc, hs⟩ := Option.map_eq_some_iff.mp hs
    cases hs
    exact Job.stop?_batch hc
  | _ => cases hs

/-- A start under way after a deed stood where it stands, or has just begun, or got there by a step of its own. -/
theorem Worked.start?_cases {d : Deed} {k : Nat} {o : StartOrder} {q : StartPlace} (h : Worked f d g)
    (hg : g.start? k = some (o, q)) : f.start? k = some (o, q) ∨ q = .enter ∨
      ∃ m p g', d = .event (.job k m) ∧ f.start? k = some (o, p) ∧ StartStep f k o p m g' (.at q) ∧ g'.Framed g := by
  rcases h.start?_change k with hk | ⟨-, o', hk⟩ | ⟨m, o', p, g', r, rfl, hs, step, hf, hk⟩
  · exact .inl (hk.symm.trans hg)
  · rw [hg] at hk
    cases hk
    exact .inr (.inl rfl)
  · rw [hg] at hk
    cases r with
    | «at» p' =>
      cases hk
      exact .inr (.inr ⟨m, p, g', rfl, hs, step, hf⟩)
    | done => cases hk

end Fleet

end EncoderFleet
