import EncoderFleet.Proofs.Fleet.Fates
import EncoderFleet.Proofs.Fleet.Overtaking

/-!
# The encoder that serves a source

An encoder *serves* a source when the source tracks it, or when a start of the source answers for it
(`Fleet.Serves`). A deed *disturbs* the source when a stop of it is made or when such an encoder ends
(`Fleet.Disturbs`). Every other deed leaves a source served that is served by an encoder which goes on
(`Serves.undisturbed`), and then no start of the source launches another; as long as none has launched, none comes to be
tracked (`NoneLaunched.perform`).

For this the ends of encoders are traced back to what brings them about (`Reachable.ended_cases`), and what takes an
encoder away from a source to a stop or to an end (`Reachable.tracked_undisturbed`).
-/

namespace EncoderFleet

namespace Fleet

/-- An encoder serves a source: the source tracks it, or a start of the source answers for it. -/
inductive Serves (f : Fleet) (key : String) (n : Nat) : Prop
  | tracked {t : Tracked} (ht : f.tracked? key = some t) (hn : t.encoder = n) : Serves f key n
  | owned {id : Nat} {o : StartOrder} {p : StartPlace} (hs : f.start? id = some (o, p)) (hk : o.key = key)
      (hp : p.encoder? = some n) : Serves f key n

/-- A deed disturbs a source: it makes a stop of it, be it a request or a part of a start that is told to replace the
encoder, or an encoder ends that serves it. -/
inductive Disturbs (f : Fleet) (key : String) : Deed → Prop
  | stopped {d : Deed} {manual : Bool} (h : f.Stops d key manual) : Disturbs f key d
  | replaced {id e : Nat} {m : Move} {o : StartOrder} (hs : f.start? id = some (o, .retire e .take))
      (hk : o.key = key) (ho : o.replaces = true) : Disturbs f key (.event (.job id m))
  | ended {n : Nat} {code : ExitCode} (h : f.Serves key n) : Disturbs f key (.exit n code)

/-- The encoder that a start of a source launches in a deed. -/
def launchOf? (f : Fleet) (key : String) : Deed → Option Nat
  | .event (.job id _) =>
    match f.start? id with
    | some (o, .launch c) =>
      match f.launcher.plan f.files c.command with
      | .runs _ => if o.key = key then some f.encoders.length else none
      | .fails _ => none
    | _ => none
  | _ => none

/-- No start of a source is overtaken. -/
def Punctual (f : Fleet) (key : String) : Prop :=
  ∀ id o p e, f.start? id = some (o, p) → o.key = key → p.epoch? = some e → (f.memo key).epoch = e

/-- No start of a source that is under way has launched an encoder. -/
def NoneLaunched (f : Fleet) (key : String) : Prop :=
  ∀ id o p, f.start? id = some (o, p) → o.key = key → p.encoder? = none

variable {f g : Fleet} {d : Deed} {key : String} {n : Nat}

/-! ## Launches -/

theorem launchOf?_eq_some (h : f.launchOf? key d = some n) :
    ∃ id m o c b, d = .event (.job id m) ∧ f.start? id = some (o, .launch c) ∧ o.key = key ∧
      f.launcher.plan f.files c.command = .runs b ∧ n = f.encoders.length := by
  unfold launchOf? at h
  split at h
  · next id m =>
    split at h
    · next o c hs =>
      split at h
      · next b hp =>
        split at h
        · next hk =>
          cases h
          exact ⟨id, m, o, c, b, rfl, hs, hk, hp, rfl⟩
        · cases h
      · cases h
    · cases h
  · cases h

theorem launchOf?_of_launch {id : Nat} {m : Move} {o : StartOrder} {c : Course} {b : Behaviour}
    (hs : f.start? id = some (o, .launch c)) (hk : o.key = key) (hp : f.launcher.plan f.files c.command = .runs b) :
    f.launchOf? key (.event (.job id m)) = some f.encoders.length := by
  simp [launchOf?, hs, hk, hp]

/-! ## Ends -/

theorem ended_iff : f.Ended n ↔ ∃ s, f.standings[n]? = some s ∧ s.ended.isSome = true := by
  rw [standings_getElem?]
  simp [Ended, Encoder.standing]

theorem Ended.of_standings (hg : g.Ended n) (h : g.standings = f.standings) : f.Ended n := by
  rw [ended_iff] at hg ⊢
  rwa [h] at hg

/-- An encoder has ended that ended before, if it is not the one changed, or if the change has no part in that. -/
theorem Ended.of_modify {m : Nat} {change : Encoder → Encoder} (h : (f.modifyEncoder m change).Ended n)
    (hc : n = m → ∀ e, (change e).ended = e.ended) : f.Ended n := by
  obtain ⟨e, he, hend⟩ := h
  rw [encoder?_modifyEncoder] at he
  split at he
  · next hn =>
    obtain ⟨e', he', rfl⟩ := Option.map_eq_some_iff.mp he
    rw [hc hn] at hend
    exact ⟨e', hn ▸ he', hend⟩
  · exact ⟨e, he, hend⟩

theorem ended_askKill (e : Encoder) : e.askKill.ended = e.ended := by
  unfold Encoder.askKill
  split <;> rfl

theorem StopStep.ended {o : StopOrder} {p : StopPlace} {m : Move} {r : After StopPlace (Option String)}
    (step : StopStep f o p m g r) (h : g.Ended n) : f.Ended n := by
  cases step with
  | @taken s t hs ht => exact Ended.of_modify (f := f.putState _ _) h fun _ e => ended_askKill e
  | @released t => exact h.of_standings (standings_letGo f t)
  | dropped => exact h.of_standings (by split <;> rfl)
  | @recorded t code => exact h.of_standings (standings_recordStop f o.key t code)
  | _ => exact h

/-- A start ends an encoder only when it gives it up. -/
theorem StartStep.ended {id : Nat} {o : StartOrder} {p : StartPlace} {m : Move} {r : After StartPlace StartResult}
    (hcl : p.cleared = true → (f.life o.key).tracked = none) (step : StartStep f id o p m g r) (h : g.Ended n) :
    f.Ended n ∨ ∃ c, p = .commit c n ∧ f.overtaken o c.epoch = true := by
  cases step with
  | retiring step => exact .inl (step.ended h)
  | retired step => exact .inl (step.ended h)
  | @cleared c => exact .inl (h.of_standings (kept_clearOrphans f c.command).standings)
  | @madeWay c => exact .inl (h.of_standings (kept_makeWay f c.command).standings)
  | @noWay c => exact .inl (h.of_standings (kept_makeWay f c.command).standings)
  | @opened c k => exact .inl (h.of_standings (kept_openHub f o c.command k).standings)
  | @launched c b =>
    obtain ⟨e, he, hend⟩ := h
    rw [encoder?, encoders_interrupt (hcl rfl) b, List.getElem?_append] at he
    split at he
    · exact .inl ⟨e, he, hend⟩
    · rw [List.mem_singleton.mp (List.mem_of_getElem? he)] at hend
      cases hend
  | @abandoned c k ho =>
    by_cases hk : n = k
    · subst hk
      exact .inr ⟨c, rfl, ho⟩
    · have hp : (f.stopPump k).Ended n := Ended.of_modify h fun hn => absurd hn hk
      exact .inl (hp.of_standings (kept_stopPump f k).standings)
  | @committed c k => exact .inl (Ended.of_modify (f := f.putState _ _) h fun _ _ => rfl)
  | @restored c => exact .inl (h.of_standings (standings_restoreLife f o c.prior))
  | _ => exact .inl h

/-- An encoder that has ended after a deed had ended before, or ends by itself, or its watcher kills it, or the start
that launched it gives it up. -/
theorem Reachable.ended_cases (hr : f.Reachable) (hd : f.perform? d = some g) (h : g.Ended n) :
    f.Ended n ∨ (∃ code, d = .exit n code) ∨
      (∃ k generation, f.keeper? n = some (.watcher k generation true false)) ∨
      ∃ id o c, f.start? id = some (o, .commit c n) ∧ f.overtaken o c.epoch = true := by
  cases hr.worked hd with
  | @start id o p _ _ _ _ hs _ step hf _ =>
    rcases step.ended (hr.records.untracked hs) (h.of_standings hf.standings) with h | ⟨c, rfl, ho⟩
    · exact .inl h
    · exact .inr (.inr (.inr ⟨id, o, c, hs, ho⟩))
  | stop _ _ _ step hf _ => exact .inl (step.ended (h.of_standings hf.standings))
  | begun _ _ hf _ => exact .inl (h.of_standings hf.standings)
  | unmarked _ _ _ _ _ _ hf _ => exact .inl (h.of_standings hf.standings)
  | turned _ _ _ hf _ => exact .inl (h.of_standings hf.standings)
  | @struck m generation k e he hk =>
    by_cases hn : n = m
    · subst hn
      exact .inr (.inr (.inl ⟨k, generation, by rw [keeper?_of_encoder? he, hk]⟩))
    · exact .inl (h.of_modify fun hm => absurd hm hn)
  | reaped => exact .inl (h.of_modify fun _ _ => rfl)
  | @noticed m generation k _ e code =>
    have hc : (f.recordCrash k generation code).Ended n := h.of_modify fun _ _ => rfl
    exact .inl (hc.of_standings (by rw [standings, encoders_recordCrash]; rfl))
  | @submitted r _ hf _ => exact .inl (h.of_standings (hf.standings.trans (standings_prepare f r)))
  | noted => exact .inl h
  | marked => exact .inl h
  | @exited m code =>
    by_cases hn : n = m
    · subst hn
      exact .inr (.inl ⟨code, rfl⟩)
    · exact .inl (h.of_modify fun hm => absurd hm hn)
  | idle _ _ _ he _ _ => exact .inl (h.of_standings he)

/-! ## Stops and crashes -/

/-- A stop that is not a part of a start is a request, and overtakes starts under way. -/
theorem overtakes_of_stop? {id : Nat} {o : StopOrder} {p : StopPlace} (hs : f.start? id = none)
    (ht : f.stop? id = some (o, p)) : o.overtakes = true := by
  obtain ⟨j, hj, hjt⟩ := Option.bind_eq_some_iff.mp ht
  rw [start?_of_get? hj] at hs
  cases j with
  | batch b =>
    have hc : b.current = none := Option.map_eq_none_iff.mp hs
    simp [Job.stop?, hc] at hjt
  | sweep s =>
    obtain ⟨c, -, hc⟩ := Option.map_eq_some_iff.mp hjt
    cases hc
    rfl
  | _ => cases hjt

theorem happeningOfStop_eq_taken {id i generation : Nat} {o : StopOrder} {p : StopPlace}
    (h : f.happeningOfStop id o p = some (.taken n key generation i)) : p = .take ∧ o.key = key := by
  rcases happeningOfStop_eq h with ⟨rfl, t, -, ha⟩ | ⟨_, _, -, ha⟩
  · cases ha
    exact ⟨rfl, rfl⟩
  · cases ha

/-- Only a start that is told to replace the encoder of its source stops it. -/
theorem Reachable.replaces_of_retire {id e : Nat} {o : StartOrder} {q : StopPlace} (hr : f.Reachable)
    (hs : f.start? id = some (o, .retire e q)) : o.replaces = true := by
  induction hr generalizing q with
  | fresh => cases hs
  | perform hr hd ih =>
    rcases (hr.worked hd).start?_cases hs with hold | hq | ⟨_, _, _, -, hs', step, -⟩
    · exact ih hold
    · cases hq
    · cases step with
      | replacing ho => exact ho
      | retiring => exact ih hs'

/-- Whoever takes an encoder away from a source disturbs the source. -/
theorem Reachable.disturbs_of_taken {id generation : Nat} (hr : f.Reachable)
    (h : f.happening? d = some (.taken n key generation id)) : f.Disturbs key d := by
  unfold happening? at h
  split at h
  · next i m =>
    split at h
    · next o p hs =>
      unfold happeningOfStart at h
      split at h
      · next e q =>
        obtain ⟨rfl, hk⟩ := happeningOfStop_eq_taken h
        exact .replaced hs hk (hr.replaces_of_retire hs)
      · split at h <;> cases h
      · split at h <;> cases h
      · cases h
    · next hs =>
      obtain ⟨⟨⟨k, manual, overtakes⟩, p⟩, ht, h⟩ := Option.bind_eq_some_iff.mp h
      obtain ⟨rfl, rfl⟩ := happeningOfStop_eq_taken h
      obtain rfl : overtakes = true := overtakes_of_stop? hs ht
      exact .stopped (.request ht)
  · unfold happeningOfEnd at h
    split at h
    · split at h <;> cases h
    · cases h
  · cases h

/-- A source loses an encoder to a crash only when that has ended. -/
theorem Reachable.ended_of_crashed {generation : Nat} {t : Tracked} (hr : f.Reachable) (hd : f.perform? d = some g)
    (h : f.happening? d = some (.crashed n key generation)) (ht : f.tracked? key = some t) : f.Ended t.encoder := by
  obtain ⟨rfl, ⟨asked, hk⟩, hany⟩ := crashed_cases h
  have hgen : generation = (f.life key).generation := by
    rw [ht, Option.any_some, beq_iff_eq] at hany
    rw [tracked?_eq] at ht
    exact hany.symm.trans ((hr.records key).sound.generation ht)
  subst hgen
  obtain ⟨log, hlog⟩ := hr.chronicle
  obtain rfl : t.encoder = n := hlog.agrees.watched hk (has_source.mpr ⟨t, ht, rfl⟩)
  cases hr.worked hd with
  | reaped he _ hc => exact ⟨_, he, by rw [hc]; rfl⟩
  | noticed he _ hc => exact ⟨_, he, by rw [hc]; rfl⟩
  | idle _ _ _ _ _ hn => exact absurd rfl (hn _)

/-- Whatever does not disturb a source leaves it the encoder that it tracks, unless that has ended. -/
theorem Reachable.tracked_undisturbed {t : Tracked} (hr : f.Reachable) (hd : f.perform? d = some g)
    (hn : ¬f.Disturbs key d) (ht : f.tracked? key = some t) (he : ¬f.Ended t.encoder) : g.tracked? key = some t := by
  by_cases hg : g.Tracks key t.generation
  · obtain ⟨t', ht', -⟩ := hg
    rcases hr.tracked_cases hd ht' with hold | ⟨id, m, o, c, k, -, hs, rfl, -⟩
    · rw [ht', ← hold, ht]
    · -- A start that is about to commit has seen to it that no encoder is tracked.
      have huntracked := hr.records.untracked hs rfl
      rw [tracked?_eq, huntracked] at ht
      cases ht
  · obtain ⟨a, ha, hdep⟩ := (Option.any_eq_true _ _).mp ((hr.departs_iff hd key _).mp ⟨⟨t, ht, rfl⟩, hg⟩)
    cases a with
    | taken m k generation id =>
      obtain ⟨rfl, -⟩ : k = key ∧ generation = t.generation := by simpa [Happening.departs] using hdep
      exact absurd (hr.disturbs_of_taken ha) hn
    | crashed m k generation =>
      obtain ⟨rfl, -⟩ : k = key ∧ generation = t.generation := by simpa [Happening.departs] using hdep
      exact absurd (hr.ended_of_crashed hd ha ht) he
    | _ => cases hdep

/-! ## Starts that are not overtaken -/

theorem Punctual.not_overtaken {id e : Nat} {o : StartOrder} {p : StartPlace} (h : f.Punctual key)
    (hs : f.start? id = some (o, p)) (hk : o.key = key) (hp : p.epoch? = some e) : f.overtaken o e = false := by
  rw [Bool.eq_false_iff]
  intro ho
  rw [overtaken_iff, hk] at ho
  exact ho (h id o p e hs hk hp)

theorem Punctual.perform (h : f.Punctual key) (hr : f.Reachable) (hd : f.perform? d = some g)
    (hn : ¬f.Disturbs key d) : g.Punctual key := by
  intro id o q e hs hk hq
  have hepoch : (g.memo key).epoch = (f.memo key).epoch := by
    rcases hr.epoch_cases hd key with he | ⟨manual, hstop⟩
    · exact he
    · exact absurd (.stopped hstop) hn
  rw [hepoch]
  rcases (hr.worked hd).start?_cases hs with hold | rfl | ⟨m, p, g', -, hs', step, -⟩
  · exact h id o q e hold hk hq
  · cases hq
  · rcases step.epoch?.2 with ⟨-, -, hnew⟩ | ⟨-, hkeep⟩
    · rw [hq, hk] at hnew
      exact (Option.some.inj hnew).symm
    · exact h id o p e hs' hk (hkeep e hq)

/-! ## Who serves a source -/

theorem Serves.keeper (h : f.Serves key n) (hr : f.Reachable) :
    f.keeper? n = some .launch ∨ ∃ generation, f.keeper? n = some (.watcher key generation false false) := by
  obtain ⟨log, hlog⟩ := hr.chronicle
  have hacc : f.custody.Accounted n (f.keeper? n) (story log n) := hlog.agrees.accounted n
  cases h with
  | tracked ht hn =>
    obtain ⟨hk, -⟩ := hacc.of_source (has_source.mpr ⟨_, ht, hn⟩)
    exact .inr ⟨_, hk⟩
  | owned hs _ hp =>
    obtain ⟨hk, -⟩ := hacc.of_start ((owned?_of_start? hs).trans hp)
    exact .inl hk

/-- The start that answers for an encoder which serves a source is one of that source. -/
theorem Serves.key_eq {id : Nat} {o : StartOrder} {p : StartPlace} (h : f.Serves key n) (hr : f.Reachable)
    (hs : f.start? id = some (o, p)) (hp : p.encoder? = some n) : o.key = key := by
  have howned := (owned?_of_start? hs).trans hp
  cases h with
  | tracked ht hn =>
    obtain ⟨log, hlog⟩ := hr.chronicle
    obtain ⟨-, -, hall⟩ := (hlog.agrees.accounted n).of_start howned
    cases (hall _).mp (has_source.mpr ⟨_, ht, hn⟩)
  | owned hs' hk hp' =>
    obtain ⟨rfl, -⟩ := hr.owner_unique howned ((owned?_of_start? hs').trans hp')
    rw [hs] at hs'
    cases hs'
    exact hk

/-- As long as a source is served, no start of it is about to launch. -/
theorem Serves.not_launching {id : Nat} {o : StartOrder} {c : Course} (h : f.Serves key n) (hr : f.Reachable)
    (hs : f.start? id = some (o, .launch c)) : o.key ≠ key := by
  rintro rfl
  cases h with
  | tracked ht =>
    rw [tracked?_eq, hr.records.untracked hs rfl] at ht
    cases ht
  | @owned j o' p hs' hk hp =>
    have hcl := StartPlace.cleared_of_encoder hp
    obtain rfl := hr.turns.cleared_alone (stake_cleared.mpr ⟨_, _, hs, rfl, rfl⟩) (stake_cleared.mpr ⟨_, _, hs', hk, hcl⟩)
    rw [hs] at hs'
    cases hs'
    cases hp

/-- An encoder that serves a source and has not ended goes on, unless the source is disturbed. -/
theorem Serves.not_ended (h : f.Serves key n) (hr : f.Reachable) (hp : f.Punctual key) (hd : f.perform? d = some g)
    (hn : ¬f.Disturbs key d) (he : ¬f.Ended n) : ¬g.Ended n := by
  intro hg
  rcases hr.ended_cases hd hg with hf | ⟨code, rfl⟩ | ⟨k, generation, hk⟩ | ⟨id, o, c, hs, ho⟩
  · exact he hf
  · exact hn (.ended h)
  · rcases h.keeper hr with hl | ⟨_, hw⟩
    · rw [hk] at hl
      cases hl
    · rw [hk] at hw
      cases hw
  · have hnot := hp.not_overtaken hs (h.key_eq hr hs rfl) rfl
    rw [ho] at hnot
    cases hnot

/-- After a commit the source tracks the encoder that the start has launched. -/
theorem tracked?_of_track {o : StartOrder} {c : Command} (hf : (f.track o c n).1.Framed g) :
    g.tracked? o.key = some ⟨n, f.pid? n, (f.life o.key).generation + 1, c⟩ := by
  rw [tracked?_eq, life_of_states hf.states, life_track, if_pos rfl]
  rfl

/-- The encoder that a start of a source answers for goes on to serve the source, since the start is not overtaken. -/
theorem Reachable.served_undisturbed {id : Nat} {o : StartOrder} {p : StartPlace} (hr : f.Reachable)
    (hp : f.Punctual key) (hd : f.perform? d = some g) (hs : f.start? id = some (o, p)) (hk : o.key = key)
    (he : p.encoder? = some n) : g.Serves key n := by
  rcases (hr.worked hd).start?_change id with hg | ⟨hnone, -⟩ | ⟨m, o', p', g', r, rfl, hs', step, hf, hg⟩
  · exact .owned (hg.trans hs) hk he
  · rw [hs] at hnone
    cases hnone
  · rw [hs] at hs'
    cases hs'
    cases step with
    | opened => exact .owned hg hk he
    | abandoned ho =>
      rw [hp.not_overtaken hs hk rfl] at ho
      cases ho
    | @committed c k =>
      cases he
      subst hk
      exact .tracked (tracked?_of_track hf) rfl
    | _ => cases he

/-- Whatever does not disturb a source that is served by an encoder which has not ended leaves it served by this encoder,
which goes on, and no start of the source launches another. -/
theorem Serves.undisturbed (h : f.Serves key n) (hr : f.Reachable) (hp : f.Punctual key) (hd : f.perform? d = some g)
    (hn : ¬f.Disturbs key d) (he : ¬f.Ended n) : g.Serves key n ∧ ¬g.Ended n ∧ f.launchOf? key d = none := by
  refine ⟨?_, h.not_ended hr hp hd hn he, ?_⟩
  · cases h with
    | tracked ht htn =>
      subst htn
      exact .tracked (hr.tracked_undisturbed hd hn ht he) rfl
    | owned hs hk hpn => exact hr.served_undisturbed hp hd hs hk hpn
  · rw [Option.eq_none_iff_forall_ne_some]
    intro m hl
    obtain ⟨id, _, o, c, b, -, hs, hk, -⟩ := launchOf?_eq_some hl
    exact h.not_launching hr hs hk

/-- An encoder that a start of a source launches in a deed serves the source from then on, and has not ended. -/
theorem Reachable.serves_of_launch (hr : f.Reachable) (hd : f.perform? d = some g) (h : f.launchOf? key d = some n) :
    g.Serves key n ∧ ¬g.Ended n := by
  obtain ⟨id, m, o, c, b, rfl, hs, rfl, hplan, rfl⟩ := launchOf?_eq_some h
  obtain ⟨g', r, j, step, rfl, hg⟩ := startStep_of_stepJob hd hs
  cases step with
  | @launched _ b =>
    have hsame := encoders_interrupt (hr.records.untracked hs rfl) b
    refine ⟨.owned hg rfl (by rw [hsame]; rfl), fun hend => ?_⟩
    obtain ⟨e, he, hsome⟩ := hend.of_standings (framed_putJob _ id j).standings
    rw [encoder?, hsame, List.getElem?_concat_length] at he
    cases he
    cases hsome
  | failed hfails =>
    rw [hplan] at hfails
    cases hfails

/-- Unless a start of a source launches an encoder in a deed, none that is under way has launched one after it if none
had before, and no encoder comes to be tracked. -/
theorem NoneLaunched.perform (h : f.NoneLaunched key) (hr : f.Reachable) (hd : f.perform? d = some g)
    (hl : f.launchOf? key d = none) : g.NoneLaunched key ∧ ∀ t, g.tracked? key = some t → f.tracked? key = some t := by
  refine ⟨fun id o q hs hk => ?_, fun t ht => ?_⟩
  · rcases (hr.worked hd).start?_cases hs with hold | rfl | ⟨m, p, g', rfl, hs', step, -⟩
    · exact h id o q hold hk
    · rfl
    · have hp := h id o p hs' hk
      cases step with
      | launched hplan =>
        rw [launchOf?_of_launch hs' hk hplan] at hl
        cases hl
      | opened => cases hp
      | _ => rfl
  · rcases hr.tracked_cases hd ht with hold | ⟨id, m, o, c, k, -, hs, hk, -⟩
    · exact hold
    · cases h id o _ hs hk

/-- A source that tracks an encoder is served by no other. -/
theorem Serves.encoder_eq {t : Tracked} (h : f.Serves key n) (hr : f.Reachable) (ht : f.tracked? key = some t) :
    t.encoder = n := by
  cases h with
  | tracked ht' hn =>
    rw [ht] at ht'
    cases ht'
    exact hn
  | @owned _ _ p hs hk hp =>
    rw [tracked?_eq, ← hk, hr.records.untracked hs (StartPlace.cleared_of_encoder hp)] at ht
    cases ht

end Fleet

end EncoderFleet
