import EncoderFleet.Proofs.Fleet.Records
import EncoderFleet.Proofs.Fleet.Streams

/-!
# Honest standings

What the standing of an encoder says is borne out by the encoder: one that was seen to end has ended that way, and one
that nobody answers for was killed (`Standing.Honest`). Each deed keeps this (`Reachable.honest`). Few steps touch the
standings at all; which ones leave all encoders, or all standings, as they are is said first.
-/

namespace EncoderFleet

theorem Encoder.standing_finish (e : Encoder) (code : ExitCode) :
    (e.finish code).standing = e.standing.finish code := by
  unfold Encoder.finish Encoder.standing Standing.finish
  cases h : e.ended <;> simp [h]

theorem Encoder.kills_kill (e : Encoder) : e.kill.kills = e.kills + 1 := by
  unfold Encoder.kill Encoder.finish
  cases h : e.behaviour.onKill with
  | none => simp [h]
  | some code => cases e.ended <;> simp [h]

/-- An encoder that was seen to end has ended that way, and one that nobody answers for was killed. -/
structure Standing.Honest (s : Standing) : Prop where
  gone {code : ExitCode} (h : s.keeper = .gone code) : s.ended = some code
  nobody (h : s.keeper = .nobody) : 0 < s.kills

namespace Fleet

variable {f g : Fleet}

/-! ## Encoders and standings after an operation -/

theorem encoder?_modifyEncoder (f : Fleet) (n k : Nat) (change : Encoder → Encoder) :
    (f.modifyEncoder n change).encoder? k = if k = n then (f.encoder? n).map change else f.encoder? k := by
  show (f.encoders.modify n change)[k]? = _
  rw [List.getElem?_modify]
  by_cases hk : k = n
  · subst hk; simp [encoder?]
  · have : ¬n = k := fun h => hk h.symm
    simp [encoder?, hk, this]

theorem encoders_takeEncoder {o : StopOrder} (h : (f.life o.key).tracked = none) :
    (f.takeEncoder o).1.encoders = f.encoders := by
  have ht := takeEncoder_cases f o
  generalize (f.takeEncoder o).1 = g at ht ⊢
  generalize (f.takeEncoder o).2 = r at ht
  cases ht with
  | unknown => rfl
  | nothing => rfl
  | taken hs ht => rw [life_of_state? hs] at h; rw [SourceState.life, ht] at h; cases h

/-- A stop that comes in during a launch changes no encoder. -/
theorem encoders_interrupt {o : StartOrder} (h : (f.life o.key).tracked = none) (b : Behaviour) :
    (f.interrupt o b).encoders = f.encoders := by
  unfold interrupt
  split
  · rfl
  · next manual _ =>
    cases manual with
    | false => exact encoders_takeEncoder h
    | true =>
      refine encoders_takeEncoder (f := f.ensure o.source.id) ?_
      exact (congrArg Life.tracked (life_ensure f _ _)).trans h

theorem standings_letGo (f : Fleet) (t : Taken) : (f.letGo t).standings = f.standings := by
  have h := (kept_stopPump f t.tracked.encoder).standings
  unfold letGo
  dsimp only
  split <;> exact h

theorem standings_recordStop (f : Fleet) (key : String) (t : Taken) (code : ExitCode) :
    (f.recordStop key t code).standings = f.standings :=
  (sameStreams_recordStop f key t code).standings

theorem standings_restoreLife (f : Fleet) (o : StartOrder) (prior : Lifecycle) :
    (f.restoreLife o prior).standings = f.standings :=
  (sameStreams_restoreLife f o prior).standings

theorem encoders_recordCrash (f : Fleet) (key : String) (generation : Nat) (code : ExitCode) :
    (f.recordCrash key generation code).encoders = f.encoders :=
  (sameStreams_recordCrash f key generation code).encoders

theorem standings_prepare (f : Fleet) (r : Request) : (f.prepare r).standings = f.standings := by
  unfold prepare
  split <;> rfl

/-! ## Steps and deeds -/

/-- The standings of all encoders are honest. -/
def Honest (f : Fleet) : Prop := ∀ s ∈ f.standings, s.Honest

theorem Honest.of_standings (hf : f.Honest) (h : g.standings = f.standings) : g.Honest := by
  intro s hs
  rw [h] at hs
  exact hf s hs

theorem Honest.modify (hf : f.Honest) {n : Nat} {change : Encoder → Encoder}
    (hc : ∀ e, f.encoder? n = some e → e.standing.Honest → (change e).standing.Honest) :
    (f.modifyEncoder n change).Honest := by
  intro s hs
  obtain ⟨k, hk⟩ := List.getElem?_of_mem hs
  rw [standings_getElem?, encoder?_modifyEncoder] at hk
  split at hk
  · obtain ⟨e', he', rfl⟩ := Option.map_eq_some_iff.mp hk
    obtain ⟨e, he, rfl⟩ := Option.map_eq_some_iff.mp he'
    refine hc e he (hf _ ?_)
    exact List.mem_map_of_mem (List.mem_of_getElem? he)
  · rw [← standings_getElem?] at hk
    exact hf s (List.mem_of_getElem? hk)

theorem honest_of_watcher {s : Standing} {key : String} {generation : Nat} {asked struck : Bool}
    (h : s.keeper = .watcher key generation asked struck) : s.Honest :=
  ⟨fun hg => (nomatch h.symm.trans hg), fun hg => (nomatch h.symm.trans hg)⟩

theorem honest_askKill {e : Encoder} (h : e.standing.Honest) : e.askKill.standing.Honest := by
  unfold Encoder.askKill
  split
  · exact honest_of_watcher rfl
  · exact h

theorem StopStep.honest {o : StopOrder} {p : StopPlace} {m : Move} {r : After StopPlace (Option String)}
    (hf : f.Honest) (step : StopStep f o p m g r) : g.Honest := by
  cases step with
  | @taken s t hs ht => exact Honest.modify (f := f.putState _ _) hf fun e _ he => honest_askKill he
  | @released t => exact hf.of_standings (standings_letGo f t)
  | dropped => exact hf.of_standings (by split <;> rfl)
  | @recorded t code => exact hf.of_standings (standings_recordStop f o.key t code)
  | _ => exact hf.of_standings rfl

theorem StartStep.honest {id : Nat} {o : StartOrder} {p : StartPlace} {m : Move} {r : After StartPlace StartResult}
    (hcl : p.cleared = true → (f.life o.key).tracked = none) (hf : f.Honest) (step : StartStep f id o p m g r) :
    g.Honest := by
  cases step with
  | retiring step => exact step.honest hf
  | retired step => exact step.honest hf
  | @cleared c => exact hf.of_standings (kept_clearOrphans f c.command).standings
  | @madeWay c => exact hf.of_standings (kept_makeWay f c.command).standings
  | @noWay c => exact hf.of_standings (kept_makeWay f c.command).standings
  | @opened c n => exact hf.of_standings (kept_openHub f o c.command n).standings
  | @launched c b =>
    intro s hs
    have he := encoders_interrupt (hcl rfl) b
    rw [standings, he, List.map_append, List.mem_append] at hs
    rcases hs with hs | hs
    · exact hf s hs
    · rw [List.mem_singleton.mp hs]
      exact ⟨nofun, nofun⟩
  | @abandoned c n =>
    have hp : (f.stopPump n).Honest := hf.of_standings (kept_stopPump f n).standings
    refine hp.modify fun e _ _ => ⟨nofun, fun _ => ?_⟩
    show 0 < e.kill.kills
    rw [e.kills_kill]
    omega
  | @committed c n => exact Honest.modify (f := f.putState _ _) hf fun e _ _ => honest_of_watcher rfl
  | @restored c => exact hf.of_standings (standings_restoreLife f o c.prior)
  | _ => exact hf.of_standings rfl

theorem Worked.honest {d : Deed} (hr : f.Records) (hf : f.Honest) (h : Worked f d g) : g.Honest := by
  cases h with
  | start hs _ step hg _ =>
    exact (step.honest (hr.untracked hs) hf).of_standings hg.standings
  | stop _ _ _ step hg _ => exact (step.honest hf).of_standings hg.standings
  | begun _ _ hg _ => exact hf.of_standings hg.standings
  | unmarked _ _ _ _ _ _ hg _ => exact hf.of_standings hg.standings
  | turned _ _ _ hg _ => exact hf.of_standings hg.standings
  | struck => exact hf.modify fun e _ _ => honest_of_watcher rfl
  | @reaped n _ _ _ e code he _ hc =>
    refine hf.modify fun e' he' _ => ⟨fun hg => ?_, nofun⟩
    rw [he] at he'
    cases he'
    cases hg
    exact hc
  | @noticed n generation key _ e code he _ hc =>
    have hcrash := encoders_recordCrash f key generation code
    have hf' : (f.recordCrash key generation code).Honest := hf.of_standings (by rw [standings, hcrash]; rfl)
    refine hf'.modify fun e' he' _ => ⟨fun hg => ?_, nofun⟩
    rw [encoder?, hcrash, ← encoder?, he] at he'
    cases he'
    cases hg
    exact hc
  | @submitted r _ hg _ => exact hf.of_standings (hg.standings.trans (standings_prepare f r))
  | noted => exact hf.of_standings rfl
  | marked => exact hf.of_standings rfl
  | exited =>
    refine hf.modify fun e _ he => ?_
    rw [e.standing_finish]
    refine ⟨fun hg => ?_, he.nobody⟩
    have hended : e.ended = some _ := he.gone hg
    simp [Standing.finish, Encoder.standing, hended]
  | idle _ _ _ he _ _ => exact hf.of_standings he

theorem Reachable.honest (h : f.Reachable) : f.Honest := by
  induction h with
  | fresh => exact nofun
  | perform hr hd ih => exact (hr.worked hd).honest hr.records ih

end Fleet

end EncoderFleet
