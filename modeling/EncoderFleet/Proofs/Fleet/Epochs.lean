import EncoderFleet.Proofs.Fleet.Records

/-!
# Epochs and marks

What is remembered about a source for the sake of starts and stops is its `Memo`: whether it is known at all, its epoch,
and the mark that a user stopped it. A source once known stays known, and epochs never go back (`Reachable.memo_le`), so
a start that has begun is never ahead of its source (`Reachable.epochs`). `MemoStep` lists what a step of a start can do
to the memo of its source; the one that clears the mark at a commit is made in the epoch in which the start began.
-/

namespace EncoderFleet

/-- What is remembered about a source for the sake of starts and stops. -/
structure Memo where
  known : Bool := false
  epoch : Nat := 0
  marked : Bool := false

/-- The part of what is known about a source that concerns starts and stops to come. -/
def SourceState.memo (s : SourceState) : Memo := ⟨true, s.epoch, s.manualStop⟩

namespace Memo

/-- The source is taken note of. -/
def noted (m : Memo) : Memo := { m with known := true }

/-- The mark is set or cleared. -/
def mark (m : Memo) (value : Bool) : Memo := ⟨true, m.epoch, value⟩

/-- A stop overtakes all starts that have begun. -/
def overtaken (m : Memo) (manual : Bool) : Memo := ⟨true, m.epoch + 1, m.marked || manual⟩

/-- Nothing known is forgotten, and the epoch does not go back. -/
structure Le (m n : Memo) : Prop where
  known (h : m.known = true) : n.known = true
  epoch : m.epoch ≤ n.epoch

theorem Le.refl (m : Memo) : m.Le m := ⟨fun h => h, Nat.le_refl _⟩

theorem le_noted (m : Memo) : m.Le m.noted := ⟨fun _ => rfl, Nat.le_refl _⟩

theorem le_mark (m : Memo) (value : Bool) : m.Le (m.mark value) := ⟨fun _ => rfl, Nat.le_refl _⟩

theorem le_overtaken (m : Memo) (manual : Bool) : m.Le (m.overtaken manual) := ⟨fun _ => rfl, Nat.le_succ _⟩

theorem noted_of_known {m : Memo} (h : m.known = true) : m.noted = m := by
  cases m
  cases h
  rfl

end Memo

/-- What a stop does to the memo of a source that is known. -/
def StopOrder.noteMemo (o : StopOrder) (m : Memo) : Memo :=
  ⟨true, if o.overtakes then m.epoch + 1 else m.epoch, m.marked || o.manual⟩

namespace Fleet

/-- What is remembered about a source. -/
def memo (f : Fleet) (key : String) : Memo := ((f.state? key).map SourceState.memo).getD {}

/-- The memo of one source changes, that of no other does. -/
def Remembers (f g : Fleet) (key : String) (change : Memo → Memo) : Prop :=
  ∀ k, g.memo k = if k = key then change (f.memo key) else f.memo k

/-- What a step of a start can do to the memo of its source. -/
inductive MemoStep (f : Fleet) (o : StartOrder) : StartPlace → (Memo → Memo) → Prop
  | same {p : StartPlace} : MemoStep f o p id
  | noted {p : StartPlace} : MemoStep f o p Memo.noted
  /-- An encoder runs already. -/
  | found {e : Nat} {t : Tracked} (h : (f.life o.key).tracked = some t) : MemoStep f o (.look e) fun m => m.mark false
  | committed {c : Course} {n : Nat} (h : (f.memo o.key).epoch = c.epoch) :
      MemoStep f o (.commit c n) fun m => m.mark false
  /-- A stop comes in during the launch. -/
  | overtaken {c : Course} {b : Behaviour} {manual : Bool} (h : f.launcher.plan f.files c.command = .runs b)
      (hm : b.stopMeanwhile = some manual) : MemoStep f o (.launch c) fun m => m.overtaken manual

variable {f g h : Fleet}

/-! ## Memos after an operation -/

theorem memo_of_states (h : g.states = f.states) (k : String) : g.memo k = f.memo k := by
  rw [memo, state?, h]; rfl

theorem memo_of_state? {key : String} {s : SourceState} (h : f.state? key = some s) : f.memo key = s.memo := by
  rw [memo, h]; rfl

theorem known_iff {key : String} : (f.memo key).known = true ↔ (f.state? key).isSome = true := by
  unfold memo
  cases f.state? key <;> simp [SourceState.memo]

theorem memo_putState (f : Fleet) (key : String) (s : SourceState) (k : String) :
    (f.putState key s).memo k = if k = key then s.memo else f.memo k := by
  unfold memo
  rw [state?_putState]
  split <;> rfl

theorem memo_stateOrNew (f : Fleet) (id : String) : (f.stateOrNew id).memo = (f.memo (Text.fold id)).noted := by
  unfold stateOrNew memo
  cases f.state? (Text.fold id) <;> rfl

theorem overtaken_iff {o : StartOrder} {epoch : Nat} :
    f.overtaken o epoch = true ↔ (f.memo o.key).epoch ≠ epoch := by
  have h : (f.stateOrNew o.source.id).epoch = (f.memo o.key).epoch :=
    congrArg Memo.epoch (memo_stateOrNew f o.source.id)
  rw [overtaken, bne_iff_ne, h]

theorem remembers_of_memo (key : String) (h : ∀ k, g.memo k = f.memo k) : f.Remembers g key id := fun k => by
  rw [h]
  split
  · next hk => rw [hk]; rfl
  · rfl

theorem remembers_ensure (f : Fleet) (id : String) : f.Remembers (f.ensure id) (Text.fold id) Memo.noted := fun k => by
  rw [ensure, memo_putState, memo_stateOrNew]

theorem remembers_setManualStop (f : Fleet) (id : String) (value : Bool) :
    f.Remembers (f.setManualStop id value) (Text.fold id) fun m => m.mark value := fun k => by
  have h := memo_stateOrNew f id
  rw [setManualStop, memo_putState]
  split
  · exact congrArg (fun m => Memo.mark m value) h
  · rfl

theorem remembers_takeEncoder {o : StopOrder} (hk : (f.memo o.key).known = true) :
    f.Remembers (f.takeEncoder o).1 o.key o.noteMemo := fun k => by
  have h := takeEncoder_cases f o
  generalize (f.takeEncoder o).1 = g at h ⊢
  generalize (f.takeEncoder o).2 = r at h
  cases h with
  | unknown hs => rw [known_iff, hs] at hk; cases hk
  | nothing hs => rw [memo_of_state? hs]; exact memo_putState f o.key _ k
  | taken hs => rw [memo_of_state? hs]; exact memo_putState f o.key _ k

/-- A stop that comes in during a launch overtakes the start, as any other does. -/
theorem remembers_interrupt {o : StartOrder} {b : Behaviour} {manual : Bool} (hk : (f.memo o.key).known = true)
    (hm : b.stopMeanwhile = some manual) : f.Remembers (f.interrupt o b) o.key fun m => m.overtaken manual := by
  unfold interrupt
  rw [hm]
  cases manual with
  | false => exact remembers_takeEncoder (o := ⟨o.key, false, true⟩) hk
  | true =>
    have he : ∀ k, (f.ensure o.source.id).memo k = f.memo k := fun k => by
      rw [remembers_ensure]
      split
      · next h => rw [h]; exact Memo.noted_of_known hk
      · rfl
    have ht := remembers_takeEncoder (f := f.ensure o.source.id) (o := ⟨o.key, true, true⟩) (by rw [he]; exact hk)
    intro k
    refine (ht k).trans ?_
    rw [he, he]
    rfl

/-- A stop changes the memo of its source at its first step, if the source is known. -/
theorem StopStep.remembers {o : StopOrder} {p : StopPlace} {m : Move} {r : After StopPlace (Option String)}
    (h : StopStep f o p m g r) :
    (∀ k, g.memo k = f.memo k) ∧ (p = .take → (f.memo o.key).known = false) ∨
      p = .take ∧ (f.memo o.key).known = true ∧ f.Remembers g o.key o.noteMemo := by
  cases h with
  | unknown hs =>
    refine .inl ⟨fun _ => rfl, fun _ => ?_⟩
    rw [Bool.eq_false_iff, Ne, known_iff, hs]
    exact nofun
  | nothing hs =>
    refine .inr ⟨rfl, known_iff.mpr (by rw [hs]; rfl), fun k => ?_⟩
    rw [memo_of_state? hs]
    exact memo_putState f o.key _ k
  | taken hs =>
    refine .inr ⟨rfl, known_iff.mpr (by rw [hs]; rfl), fun k => ?_⟩
    rw [memo_of_state? hs]
    exact memo_putState f o.key _ k
  | seen => exact .inl ⟨fun _ => rfl, nofun⟩
  | late => exact .inl ⟨fun _ => rfl, nofun⟩
  | released => exact .inl ⟨memo_of_states (states_letGo f _), nofun⟩
  | dropped => exact .inl ⟨memo_of_states (by split <;> rfl), nofun⟩
  | @recorded t code =>
    refine .inl ⟨fun k => ?_, nofun⟩
    unfold recordStop
    cases hs : f.state? o.key with
    | none => rfl
    | some s =>
      dsimp only
      rw [memo_putState]
      split
      · next hk =>
        rw [hk, memo_of_state? hs]
        split <;> rfl
      · rfl

/-- A stop that is a part of a start neither overtakes nor marks, so it changes no memo. -/
theorem StopStep.remembers_part {key : String} {p : StopPlace} {m : Move} {r : After StopPlace (Option String)}
    (h : StopStep f ⟨key, false, false⟩ p m g r) : f.Remembers g key id := by
  rcases h.remembers with ⟨h, -⟩ | ⟨-, hk, h⟩
  · exact remembers_of_memo _ h
  · intro k
    rw [h k]
    split
    · have hnoted := Memo.noted_of_known hk
      simpa [StopOrder.noteMemo, Memo.noted] using hnoted
    · rfl

theorem memo_restoreLife (f : Fleet) (o : StartOrder) (prior : Lifecycle) (k : String) :
    (f.restoreLife o prior).memo k = f.memo k := by
  unfold restoreLife
  split
  · rfl
  · next s hs =>
    split
    · rw [memo_putState]
      split
      · next hk => rw [hk, memo_of_state? hs]; rfl
      · rfl
    · rfl

/-! ## Steps of starts -/

/-- A step in a life that leads to a tracked encoder without a course found it tracked. -/
theorem LifeStep.tracked {l l' : Life} {e e' : Stake} (h : LifeStep l e l' e') (hc : e.course? = none) {t : Tracked}
    (ht : l'.tracked = some t) : l.tracked = some t := by
  cases h with
  | still => exact ht
  | declared => exact ht
  | committed => cases hc
  | restored => cases hc
  | spared => cases hc
  | taken => cases ht
  | stopped => exact ht
  | outdated => exact ht

/-- A step of a start changes the memo of its source in one of the ways listed, and leads to a tracked encoder only at a
commit in the epoch in which the start began. -/
theorem StartStep.memoStep {id : Nat} {o : StartOrder} {p : StartPlace} {m : Move} {r : After StartPlace StartResult}
    (hk : p ≠ .enter → (f.memo o.key).known = true) (hl : (f.life o.key).Sound)
    (hc : p.cleared = true → (f.life o.key).tracked = none) (h : StartStep f id o p m g r) :
    (∃ change, MemoStep f o p change ∧ f.Remembers g o.key change) ∧
      ((∀ t, (g.life o.key).tracked = some t → (f.life o.key).tracked = some t) ∨
        ∃ c n, p = .commit c n ∧ (f.memo o.key).epoch = c.epoch) := by
  have still : g.states = f.states → (∃ change, MemoStep f o p change ∧ f.Remembers g o.key change) ∧
      ((∀ t, (g.life o.key).tracked = some t → (f.life o.key).tracked = some t) ∨
        ∃ c n, p = .commit c n ∧ (f.memo o.key).epoch = c.epoch) := fun hs =>
    ⟨⟨_, .same, remembers_of_memo _ (memo_of_states hs)⟩, .inl fun t ht => by rwa [life_of_states hs] at ht⟩
  have hlife := h.lifeStep hl hc
  cases h with
  | entered =>
    refine ⟨⟨_, .noted, remembers_ensure f _⟩, .inl fun t ht => ?_⟩
    rwa [life_ensure] at ht
  | @found e s t hs ht =>
    have hlk := life_putState_same (s := { s with manualStop := false }) (life_of_state? hs).symm o.key
    refine ⟨⟨_, .found (t := t) (by rw [life_of_state? hs]; exact ht), fun k => ?_⟩,
      .inl fun t ht => by rwa [hlk] at ht⟩
    rw [memo_putState, memo_of_state? hs]
    rfl
  | retiring h => exact ⟨⟨_, .same, h.remembers_part⟩, .inl fun t ht => hlife.1.tracked rfl ht⟩
  | retired h => exact ⟨⟨_, .same, h.remembers_part⟩, .inl fun t ht => hlife.1.tracked rfl ht⟩
  | declared =>
    refine ⟨⟨_, .noted, fun k => ?_⟩, .inl fun t ht => hlife.1.tracked rfl ht⟩
    have hm := memo_stateOrNew f o.source.id
    rw [memo_putState]
    split
    · exact hm
    · rfl
  | @launched c b hp =>
    have hlk := life_interrupt (hc rfl) b o.key
    refine ⟨?_, .inl fun t ht => by rw [← hlk]; exact ht⟩
    cases hm : b.stopMeanwhile with
    | none =>
      refine ⟨_, .same, remembers_of_memo _ (memo_of_states ?_)⟩
      show (f.interrupt o b).states = f.states
      unfold interrupt
      rw [hm]
    | some manual => exact ⟨_, .overtaken hp hm, remembers_interrupt (hk nofun) hm⟩
  | @committed c n ho =>
    have he : (f.memo o.key).epoch = c.epoch := by
      by_contra hne
      rw [overtaken_iff.mpr hne] at ho
      cases ho
    refine ⟨⟨_, .committed he, fun k => ?_⟩, .inr ⟨c, n, rfl, he⟩⟩
    refine (memo_putState f o.key _ k).trans ?_
    have hm := memo_stateOrNew f o.source.id
    split
    · exact congrArg (fun m => Memo.mark m false) hm
    · rfl
  | @restored c failure =>
    refine ⟨⟨_, .same, remembers_of_memo _ (memo_restoreLife f o c.prior)⟩, .inl fun t ht => ?_⟩
    rw [life_restoreLife] at ht
    split at ht
    · exact ht
    · exact ht
  | @cleared c => exact still (kept_clearOrphans f c.command).states
  | @madeWay c => exact still (kept_makeWay f c.command).states
  | @noWay c => exact still (kept_makeWay f c.command).states
  | @opened c n => exact still (kept_openHub f o c.command n).states
  | @abandoned c n => exact still (kept_stopPump f n).states
  | _ => exact still rfl

theorem MemoStep.le {o : StartOrder} {p : StartPlace} {change : Memo → Memo} (h : MemoStep f o p change) (m : Memo) :
    m.Le (change m) := by
  cases h with
  | same => exact .refl m
  | noted => exact m.le_noted
  | found => exact m.le_mark false
  | committed => exact m.le_mark false
  | overtaken => exact m.le_overtaken _

theorem Remembers.le {key : String} {change : Memo → Memo} (h : f.Remembers g key change)
    (hc : (f.memo key).Le (change (f.memo key))) (k : String) : (f.memo k).Le (g.memo k) := by
  rw [h]
  split
  · next hk => rw [hk]; exact hc
  · exact .refl _

/-- What the change leaves as it is of the memo of one source stays as it is in all memos. -/
theorem Remembers.keeps {β : Type} {key : String} {change : Memo → Memo} {v : Memo → β} (h : f.Remembers g key change)
    (hc : v (change (f.memo key)) = v (f.memo key)) (k : String) : v (g.memo k) = v (f.memo k) := by
  rw [h]
  split
  · next hk => rw [hc, hk]
  · rfl

/-- A start that has begun remembers the epoch of its source at that time, and forgets it only when it is of no account
any more. -/
theorem StartStep.epoch? {id : Nat} {o : StartOrder} {p q : StartPlace} {m : Move}
    (h : StartStep f id o p m g (.at q)) :
    q ≠ .enter ∧ (p = .enter ∧ g = f.ensure o.source.id ∧ q.epoch? = some (f.memo o.key).epoch ∨
      p ≠ .enter ∧ ∀ e, q.epoch? = some e → p.epoch? = some e) := by
  cases h with
  | entered =>
    have he : (f.stateOrNew o.source.id).epoch = (f.memo o.key).epoch :=
      congrArg Memo.epoch (memo_stateOrNew f o.source.id)
    exact ⟨nofun, .inl ⟨rfl, rfl, congrArg some he⟩⟩
  | _ => exact ⟨nofun, .inr ⟨nofun, fun e he => by first | exact he | cases he⟩⟩

/-! ## Deeds -/

/-- A source of which a start has begun is known, and the start is not ahead of it. -/
def Epochs (f : Fleet) : Prop := ∀ id o p, f.start? id = some (o, p) → p ≠ .enter →
  (f.memo o.key).known = true ∧ ∀ e, p.epoch? = some e → e ≤ (f.memo o.key).epoch

theorem memo_recordCrash (f : Fleet) (key : String) (generation : Nat) (code : ExitCode) (k : String) :
    (f.recordCrash key generation code).memo k = f.memo k := by
  unfold recordCrash
  cases hs : f.state? key with
  | none => rfl
  | some s =>
    dsimp only
    split
    · refine (memo_putState _ key _ k).trans ?_
      split
      · next hk => rw [hk, memo_of_state? hs]; rfl
      · exact memo_of_states (by split <;> rfl) k
    · rfl

/-- The conditions under which a start takes its steps hold for each one that is under way. -/
theorem Epochs.memoStep {id : Nat} {o : StartOrder} {p : StartPlace} {m : Move} {r : After StartPlace StartResult}
    (he : f.Epochs) (hr : f.Records) (hs : f.start? id = some (o, p)) (step : StartStep f id o p m g r) :
    (∃ change, MemoStep f o p change ∧ f.Remembers g o.key change) ∧
      ((∀ t, (g.life o.key).tracked = some t → (f.life o.key).tracked = some t) ∨
        ∃ c n, p = .commit c n ∧ (f.memo o.key).epoch = c.epoch) :=
  step.memoStep (fun hp => (he _ _ _ hs hp).1) (hr o.key).sound (hr.untracked hs)

theorem StopStep.memo_le {o : StopOrder} {p : StopPlace} {m : Move} {r : After StopPlace (Option String)}
    (h : StopStep f o p m g r) (k : String) : (f.memo k).Le (g.memo k) := by
  rcases h.remembers with ⟨h, -⟩ | ⟨-, hk, h⟩
  · rw [h]
    exact .refl _
  · refine h.le ⟨fun _ => rfl, ?_⟩ k
    unfold StopOrder.noteMemo
    cases o.overtakes
    · exact Nat.le_refl _
    · exact Nat.le_succ _

theorem memo_prepare_le (f : Fleet) (r : Request) (k : String) : (f.memo k).Le ((f.prepare r).memo k) := by
  unfold prepare
  split
  · exact (remembers_ensure f _).le (Memo.le_noted _) k
  · exact .refl _

theorem Worked.memo_le {d : Deed} (he : f.Epochs) (hr : f.Records) (h : Worked f d g) (k : String) :
    (f.memo k).Le (g.memo k) := by
  have framed : ∀ {a : Fleet}, a.Framed g → (f.memo k).Le (a.memo k) → (f.memo k).Le (g.memo k) := fun hf h => by
    rw [memo_of_states hf.states]
    exact h
  cases h with
  | @start id o p _ _ _ _ hs _ step hf _ =>
    obtain ⟨⟨change, hm, hg⟩, -⟩ := he.memoStep hr hs step
    exact framed hf (hg.le (hm.le _) k)
  | stop _ _ _ step hf _ => exact framed hf (step.memo_le k)
  | begun _ _ hf _ => exact framed hf (.refl _)
  | unmarked _ _ _ _ _ _ hf _ => exact framed hf ((remembers_setManualStop f _ false).le (Memo.le_mark _ _) k)
  | turned _ _ _ hf _ => exact framed hf (.refl _)
  | submitted hf _ => exact framed hf (memo_prepare_le f _ k)
  | noted => exact (remembers_ensure f _).le (Memo.le_noted _) k
  | marked => exact (remembers_setManualStop f _ _).le (Memo.le_mark _ _) k
  | @noticed n generation key _ _ code =>
    rw [show ((f.recordCrash key generation code).modifyEncoder n _).memo k = (f.recordCrash key generation code).memo k
      from rfl, memo_recordCrash]
    exact .refl _
  | idle _ hs => rw [memo_of_states hs]; exact .refl _
  | struck => exact .refl _
  | reaped => exact .refl _
  | exited => exact .refl _

theorem Worked.epochs {d : Deed} (he : f.Epochs) (hr : f.Records) (h : Worked f d g) : g.Epochs := by
  have hle := h.memo_le he hr
  have keep : ∀ {id o p}, f.start? id = some (o, p) → p ≠ .enter →
      (g.memo o.key).known = true ∧ ∀ e, p.epoch? = some e → e ≤ (g.memo o.key).epoch := fun hs hp =>
    ⟨(hle _).known (he _ _ _ hs hp).1, fun e hpe => Nat.le_trans ((he _ _ _ hs hp).2 e hpe) (hle _).epoch⟩
  have same : f.Unmoved g → g.Epochs := fun hu id o p hs hp => keep (hu.start? id ▸ hs) hp
  have passed : ∀ {id s t}, f.Passed g id s t → (∀ o p, s = some (o, p) → p = .enter) → g.Epochs := by
    intro id s t hp hs k o q hq hne
    rw [hp.start?] at hq
    split at hq
    · exact absurd (hs o q hq) hne
    · exact keep hq hne
  cases h with
  | @start id o p _ _ _ r hs _ step hf hp =>
    intro k o' q hq hne
    rw [hp.start?] at hq
    split at hq
    · cases r with
      | done => cases hq
      | «at» q' =>
        cases hq
        rcases step.epoch?.2 with ⟨rfl, rfl, hqe⟩ | ⟨hpe, hqe⟩
        · have hg : g.memo o.key = (f.memo o.key).noted := by
            rw [memo_of_states hf.states, remembers_ensure f o.source.id o.key]
            exact if_pos rfl
          rw [hg]
          refine ⟨rfl, fun e hee => ?_⟩
          rw [hqe] at hee
          cases hee
          exact Nat.le_refl _
        · exact ⟨(keep hs hpe).1, fun e hee => (keep hs hpe).2 e (hqe e hee)⟩
    · exact keep hq hne
  | stop _ _ _ _ _ hp => exact passed hp fun _ _ h => nomatch h
  | begun _ _ _ hp => exact passed hp fun _ _ h => by cases h; rfl
  | unmarked _ _ _ _ _ _ _ hp => exact passed hp fun _ _ h => by cases h; rfl
  | turned _ _ _ _ hp => exact passed hp fun _ _ h => nomatch h
  | submitted _ hu => exact same hu
  | idle _ _ _ _ hu => exact same hu
  | @noticed n generation key _ _ code => exact same (agenda_noticed f key generation n code).unmoved
  | noted => exact same (SameAgenda.unmoved ⟨rfl, rfl, rfl, rfl⟩)
  | marked => exact same (SameAgenda.unmoved ⟨rfl, rfl, rfl, rfl⟩)
  | struck => exact same (SameAgenda.unmoved ⟨rfl, rfl, rfl, rfl⟩)
  | reaped => exact same (SameAgenda.unmoved ⟨rfl, rfl, rfl, rfl⟩)
  | exited => exact same (SameAgenda.unmoved ⟨rfl, rfl, rfl, rfl⟩)

theorem Reachable.epochs (h : f.Reachable) : f.Epochs := by
  induction h with
  | fresh => exact fun _ _ _ hs => nomatch hs
  | perform hr hd ih => exact (hr.worked hd).epochs ih hr.records

theorem Reachable.memo_le {d : Deed} (h : f.Reachable) (hd : f.perform? d = some g) (k : String) :
    (f.memo k).Le (g.memo k) :=
  (h.worked hd).memo_le h.epochs h.records k

end Fleet

end EncoderFleet
