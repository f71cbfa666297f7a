import EncoderFleet.Proofs.Fleet.Streams
import EncoderFleet.Proofs.Fleet.Turns

/-!
# What deeds do to the register of hubs

`RegisterMove` lists it: a start opens a new hub for its source; a stop drops the hub of its source, whichever it is;
somebody joins the live stream of a source that has no hub, which makes one; every other deed leaves the register as it
is (`perform_register`). What is published, and viewers who join, ask and leave, change hubs but not the register.
-/

namespace EncoderFleet

/-- The same hubs are registered, out of as many. -/
structure Hubs.SameRegister (hs hs' : Hubs) : Prop where
  registered : hs'.registered = hs.registered
  count : hs'.all.length = hs.all.length

namespace Hubs

variable {hs hs' hs'' : Hubs}

theorem SameRegister.refl (hs : Hubs) : hs.SameRegister hs := ⟨rfl, rfl⟩

theorem SameRegister.trans (h : hs.SameRegister hs') (h' : hs'.SameRegister hs'') : hs.SameRegister hs'' :=
  ⟨h'.registered.trans h.registered, h'.count.trans h.count⟩

theorem sameRegister_put (hs : Hubs) (n : Nat) (h : Hub) : hs.SameRegister (hs.put n h) :=
  ⟨rfl, List.length_set⟩

theorem sameRegister_publishAll (hs : Hubs) (n : Nat) (us : List StreamUnit) :
    hs.SameRegister (Fleet.publishAll hs n us) := by
  induction us generalizing hs with
  | nil => exact .refl hs
  | cons u us ih => exact (sameRegister_put hs n _).trans (ih _)

end Hubs

namespace Fleet

/-- A deed drops the hub of a source: it is that step of a stop, after the end of an encoder whose output was piped. -/
inductive Drops (f : Fleet) (key : String) : Deed → Prop
  | stop {id : Nat} {m : Move} {o : StopOrder} {t : Taken} {code : ExitCode}
      (hs : f.stop? id = some (o, .dropHub t code)) (hm : t.tracked.command.mode.piped = true)
      (hk : Text.fold t.source = key) : Drops f key (.event (.job id m))

/-- What a deed does to the register of hubs. -/
inductive RegisterMove (f : Fleet) : Deed → Fleet → Prop
  | same {d : Deed} {g : Fleet} (h : f.hubs.SameRegister g.hubs) : RegisterMove f d g
  /-- A start opens the hub of its encoder. -/
  | opened {id n : Nat} {m : Move} {o : StartOrder} {c : Course} {g : Fleet}
      (hs : f.start? id = some (o, .openHub c n)) (h : (f.hubs.reset o.source.id).2.SameRegister g.hubs) :
      RegisterMove f (.event (.job id m)) g
  | dropped {d : Deed} {source : String} {g : Fleet} (hd : f.Drops (Text.fold source) d)
      (h : (f.hubs.remove source).SameRegister g.hubs) : RegisterMove f d g
  /-- Somebody joins the live stream of a source that has no hub. -/
  | asked {source id : String} {g : Fleet} (hn : f.hubs.get? source = none)
      (h : (f.hubs.reset source).2.SameRegister g.hubs) : RegisterMove f (.subscribe id) g

variable {f g : Fleet} {d : Deed} {key : String} {n : Nat}

/-! ## Hubs after an operation -/

theorem SameStreams.sameRegister (h : f.SameStreams g) : f.hubs.SameRegister g.hubs := by
  rw [h.hubs]
  exact .refl _

theorem sameRegister_stopPump (f : Fleet) (n : Nat) : f.hubs.SameRegister (f.stopPump n).hubs := by
  unfold stopPump
  split
  · exact .refl _
  · exact ⟨rfl, rfl⟩

theorem hubs_takeEncoder (f : Fleet) (o : StopOrder) : (f.takeEncoder o).1.hubs = f.hubs := by
  have h := takeEncoder_cases f o
  generalize (f.takeEncoder o).1 = g at h ⊢
  generalize (f.takeEncoder o).2 = r at h
  cases h <;> rfl

theorem hubs_interrupt (f : Fleet) (o : StartOrder) (b : Behaviour) : (f.interrupt o b).hubs = f.hubs := by
  unfold interrupt
  split
  · rfl
  · next manual _ => cases manual <;> exact hubs_takeEncoder _ _

/-- Only where it drops a hub does a stop change the register. -/
theorem StopStep.register {o : StopOrder} {p : StopPlace} {m : Move} {r : After StopPlace (Option String)}
    (step : StopStep f o p m g r) : f.hubs.SameRegister g.hubs ∨ ∃ t code, p = .dropHub t code ∧
      t.tracked.command.mode.piped = true ∧ (f.hubs.remove t.source).SameRegister g.hubs := by
  cases step with
  | @released t =>
    refine .inl ((sameRegister_stopPump f t.tracked.encoder).trans ?_)
    unfold letGo
    dsimp only
    split <;> exact .refl _
  | @dropped t code =>
    split
    · next hm => exact .inr ⟨t, code, rfl, hm, .refl _⟩
    · exact .inl (.refl _)
  | recorded => exact .inl (sameStreams_recordStop ..).sameRegister
  | _ => exact .inl (.refl _)

/-- Only where it opens a hub, or its stop of the old encoder drops one, does a start change the register. -/
theorem StartStep.register {id : Nat} {o : StartOrder} {p : StartPlace} {m : Move} {r : After StartPlace StartResult}
    (step : StartStep f id o p m g r) : f.hubs.SameRegister g.hubs ∨
      (∃ c n, p = .openHub c n ∧ (f.hubs.reset o.source.id).2.SameRegister g.hubs) ∨
      ∃ e t code, p = .retire e (.dropHub t code) ∧ t.tracked.command.mode.piped = true ∧
        (f.hubs.remove t.source).SameRegister g.hubs := by
  have ofStop : ∀ {e q r}, StopStep f ⟨o.key, false, false⟩ q m g r → f.hubs.SameRegister g.hubs ∨
      ∃ e' t code, StartPlace.retire e q = .retire e' (.dropHub t code) ∧ t.tracked.command.mode.piped = true ∧
        (f.hubs.remove t.source).SameRegister g.hubs := by
    intro e q r step
    rcases step.register with hsame | ⟨t, code, rfl, hm, hg⟩
    · exact .inl hsame
    · exact .inr ⟨e, t, code, rfl, hm, hg⟩
  cases step with
  | retiring step => exact (ofStop step).imp_right .inr
  | retired step => exact (ofStop step).imp_right .inr
  | cleared => exact .inl (sameStreams_clearOrphans ..).sameRegister
  | madeWay => exact .inl (sameStreams_makeWay ..).sameRegister
  | @noWay c => exact .inl (sameStreams_makeWay f c.command).sameRegister
  | @launched c b =>
    refine .inl ?_
    show f.hubs.SameRegister (f.interrupt o b).hubs
    rw [hubs_interrupt]
    exact .refl _
  | @opened c n =>
    unfold openHub
    split
    · refine .inr (.inl ⟨c, n, rfl, ?_⟩)
      dsimp only
      split
      · exact ⟨rfl, rfl⟩
      · exact .refl _
    · exact .inl (.refl _)
  | @abandoned c n => exact .inl (sameRegister_stopPump f n)
  | restored => exact .inl (sameStreams_restoreLife ..).sameRegister
  | _ => exact .inl (.refl _)

/-! ## Deeds -/

theorem RegisterMove.putJob {id : Nat} {m : Move} (h : RegisterMove f (.event (.job id m)) g) (j : Job) :
    RegisterMove f (.event (.job id m)) (g.putJob id j) := by
  have hj : (g.putJob id j).hubs = g.hubs := (sameStreams_putJob g id j).hubs
  cases h with
  | same h => exact .same (hj ▸ h)
  | opened hs h => exact .opened hs (hj ▸ h)
  | dropped hd h => exact .dropped hd (hj ▸ h)

theorem StartStep.registerMove {id : Nat} {o : StartOrder} {p : StartPlace} {m : Move}
    {r : After StartPlace StartResult} (hs : f.start? id = some (o, p)) (ht : f.stop? id = o.stop? p)
    (step : StartStep f id o p m g r) : RegisterMove f (.event (.job id m)) g := by
  rcases step.register with h | ⟨c, n, rfl, h⟩ | ⟨e, t, code, rfl, hm, h⟩
  · exact .same h
  · exact .opened hs h
  · exact .dropped (.stop ht hm rfl) h

theorem StopStep.registerMove {id : Nat} {o : StopOrder} {p : StopPlace} {m : Move}
    {r : After StopPlace (Option String)} (ht : f.stop? id = some (o, p)) (step : StopStep f o p m g r) :
    RegisterMove f (.event (.job id m)) g := by
  rcases step.register with h | ⟨t, code, rfl, hm, h⟩
  · exact .same h
  · exact .dropped (.stop ht hm rfl) h

theorem registerMove_of_stepJob {id : Nat} {m : Move} (hd : f.stepJob id m = some g) :
    RegisterMove f (.event (.job id m)) g := by
  unfold stepJob at hd
  obtain ⟨⟨g', j'⟩, hn, rfl⟩ := Option.map_eq_some_iff.mp hd
  refine RegisterMove.putJob ?_ j'
  split at hn
  · cases hn
  · cases hn
  · next b hj =>
    cases jobStep_of_stepBatch hn with
    | start hc step =>
      refine step.registerMove ?_ ?_
      · rw [start?_of_get? hj, Job.start?_batch hc]
      · rw [stop?_of_get? hj, Job.stop?_batch hc]
    | _ => exact .same (.refl _)
  · next s hj =>
    have hw : JobStep _ id _ _ _ _ := jobStep_of_stepSweep hn
    cases hw with
    | stop hc step => exact step.registerMove (by rw [stop?_of_get? hj, Job.stop?_sweep hc])
    | _ => exact .same (.refl _)
  · exact .same (sameStreams_stepChange hn).sameRegister
  · exact .same (sameStreams_stepPermit hn).sameRegister

theorem sameRegister_pumpOnce (hd : f.pumpOnce n = some g) : f.hubs.SameRegister g.hubs := by
  unfold pumpOnce at hd
  split at hd
  · cases hd
  · split at hd
    · cases hd
    · split at hd
      · split at hd
        · cases hd
          exact sameRegister_stopPump f n
        · cases hd
      · cases hd
        exact Hubs.sameRegister_publishAll ..

theorem registerMove_subscribe {id : String} (hd : f.perform? (.subscribe id) = some g) :
    RegisterMove f (.subscribe id) g := by
  simp only [perform?, subscribe] at hd
  cases hs : f.sources.get? id with
  | none => rw [hs] at hd; cases hd
  | some s =>
    rw [hs] at hd
    cases hd
    cases hn : f.hubs.get? s.id with
    | some n =>
      refine .same ?_
      simp only [Hubs.subscribe, Hubs.getOrCreate, hn]
      exact Hubs.sameRegister_put ..
    | none =>
      refine .asked hn ?_
      simp only [Hubs.subscribe, Hubs.getOrCreate, hn]
      exact Hubs.sameRegister_put ..

theorem perform_register (hd : f.perform? d = some g) : RegisterMove f d g := by
  cases d with
  | event e =>
    cases e with
    | job id m => exact registerMove_of_stepJob hd
    | strike k =>
      have hd : f.strike k = some g := hd
      unfold strike at hd
      split at hd
      · cases hd
        exact .same (.refl _)
      · cases hd
    | notice k =>
      cases performed_of_notice hd with
      | reaped => exact .same (.refl _)
      | @noticed _ generation key _ _ code => exact .same (sameStreams_recordCrash f key generation code).sameRegister
      | quiet hq => cases hq
    | pump k => exact .same (sameRegister_pumpOnce hd)
    | pass ms => exact .same (perform_sameStreams hd rfl).sameRegister
  | subscribe id => exact registerMove_subscribe hd
  | receive s => cases hd; exact .same (Hubs.sameRegister_put ..)
  | unsubscribe s => cases hd; exact .same (Hubs.sameRegister_put ..)
  | exit | feed | breakPipe | closePipe => cases hd; exact .same (.refl _)
  | _ => exact .same (perform_sameStreams hd rfl).sameRegister

theorem RegisterMove.count_le (h : RegisterMove f d g) : f.hubs.all.length ≤ g.hubs.all.length := by
  cases h with
  | same h => exact Nat.le_of_eq h.count.symm
  | opened _ h => rw [h.count]; simp [Hubs.reset]
  | dropped _ h => exact Nat.le_of_eq h.count.symm
  | asked _ h => rw [h.count]; simp [Hubs.reset]

/-! ## Drops -/

/-- A step of a job in which a stop is under way is a step of that stop. -/
theorem stopStep_of_stepJob {id : Nat} {m : Move} {o : StopOrder} {p : StopPlace} (hd : f.stepJob id m = some g)
    (ht : f.stop? id = some (o, p)) : ∃ g' r j, StopStep f o p m g' r ∧ g = g'.putJob id j := by
  obtain ⟨j, g', j', hj, step, rfl⟩ := jobStep_of_stepJob hd
  rw [stop?_of_get? hj] at ht
  cases step with
  | start hc step =>
    rw [Job.stop?_batch hc] at ht
    obtain ⟨q, hq, ht⟩ := Option.map_eq_some_iff.mp ht
    cases ht
    cases step with
    | retiring step => cases hq; exact ⟨g', _, _, step, rfl⟩
    | retired step => cases hq; exact ⟨g', _, _, step, rfl⟩
    | _ => cases hq
  | stop hc step =>
    rw [Job.stop?_sweep hc] at ht
    cases ht
    exact ⟨g', _, _, step, rfl⟩
  | begun hc => simp [Job.stop?, hc] at ht
  | unmarked hc => simp [Job.stop?, hc] at ht
  | skipped hc => simp [Job.stop?, hc] at ht
  | started hc => simp [Job.stop?, hc] at ht
  | turned hc => simp [Job.stop?, hc] at ht
  | swept hc => simp [Job.stop?, hc] at ht
  | _ => cases ht

/-- After a drop the source has no hub. -/
theorem Drops.registered_eq_none (h : f.Drops key d) (hd : f.perform? d = some g) :
    g.hubs.registered.get? key = none := by
  cases h with
  | stop hs hm hk =>
    obtain ⟨g', r, j, step, rfl⟩ := stopStep_of_stepJob hd hs
    rw [(sameStreams_putJob ..).hubs]
    cases step with
    | dropped =>
      rw [if_pos hm]
      show (f.hubs.registered.erase _).get? key = none
      rw [KeyMap.get?_erase, hk, if_pos rfl]

end Fleet

end EncoderFleet
