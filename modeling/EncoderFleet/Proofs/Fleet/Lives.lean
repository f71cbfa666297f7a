import EncoderFleet.Proofs.Fleet.Turns

/-!
# The lives of sources

Of what is known about a source, its `Life` is what tells whether it has an encoder: the lifecycle, the encoder that is
tracked, the permit and the generation. A source never heard of has the life of one that was never started. What a job
has under way for a source is its `Stake`.

`LifeStep` lists all that a step can do to the life of one source, together with the stake of the job that makes the
step. `LifeMove` is what a deed does to all lives: nothing, one such step, or a crash (`Worked.lifeMove`).
-/

namespace EncoderFleet

/-- What tells whether a source has an encoder. -/
structure Life where
  lifecycle : Lifecycle := .notStarted
  tracked : Option Tracked := none
  permit : Bool := false
  generation : Nat := 0

/-- The part of what is known about a source that tells whether it has an encoder. -/
def SourceState.life (s : SourceState) : Life := ⟨s.lifecycle, s.tracked, s.permit, s.generation⟩

/-- A source holds a permit and counts as running exactly while an encoder is tracked, which is that of the latest
generation. -/
structure Life.Sound (l : Life) : Prop where
  permit : l.permit = l.tracked.isSome
  running : l.lifecycle = .running ↔ l.tracked.isSome = true
  generation {t : Tracked} (h : l.tracked = some t) : t.generation = l.generation

namespace Life

/-- The encoder is taken away. -/
def emptied (l : Life) : Life := { l with lifecycle := .stopping, tracked := none, permit := false }

/-- The encoder ended by itself. -/
def crashed (l : Life) : Life := { l with lifecycle := .crashed, tracked := none, permit := false }

/-- An encoder comes to be tracked. -/
def renewed (l : Life) (encoder : Nat) (pid : Option UInt32) (c : Command) : Life :=
  ⟨.running, some ⟨encoder, pid, l.generation + 1, c⟩, true, l.generation + 1⟩

end Life

/-- What a job has under way for a source: the course of its start, whether the start has seen to it that no encoder is
tracked, and what its stop has taken away. -/
structure Stake where
  course? : Option Course := none
  cleared : Bool := false
  taken? : Option Taken := none

/-- What a start has under way for its source. -/
def StartPlace.stake (p : StartPlace) : Stake := ⟨p.course?, p.cleared, p.stop?.bind StopPlace.taken?⟩

namespace Fleet

/-- The life of a source. -/
def life (f : Fleet) (key : String) : Life := ((f.state? key).map SourceState.life).getD {}

/-- What a start and a stop have under way for a source. -/
def stakeOf (s : Option (StartOrder × StartPlace)) (t : Option (StopOrder × StopPlace)) (key : String) : Stake where
  course? := s.bind fun s => if s.1.key = key then s.2.course? else none
  cleared := s.any fun s => s.1.key == key && s.2.cleared
  taken? := t.bind fun t => if t.1.key = key then t.2.taken? else none

/-- What a job has under way for a source. -/
def stake (f : Fleet) (key : String) (id : Nat) : Stake := stakeOf (f.start? id) (f.stop? id) key

/-- What a step does to the life of a source, and to what its job has under way for it. -/
inductive LifeStep : Life → Stake → Life → Stake → Prop
  | still {l : Life} {e e' : Stake} (hc : e'.course? = e.course?) (ht : e'.taken? = e.taken?)
      (hn : e'.cleared = true → e.cleared = true ∨ l.tracked = none) : LifeStep l e l e'
  | declared {l : Life} {epoch : Nat} {c : Command} :
      LifeStep l { cleared := true } { l with lifecycle := .starting }
        { course? := some ⟨epoch, l.lifecycle, c⟩, cleared := true }
  | committed {l : Life} {c : Course} {n : Nat} {pid : Option UInt32} :
      LifeStep l { course? := some c, cleared := true } (l.renewed n pid c.command) {}
  | restored {l : Life} {c : Course} (h : l.lifecycle = .starting) :
      LifeStep l { course? := some c, cleared := true } { l with lifecycle := c.prior } {}
  | spared {l : Life} {c : Course} (h : l.lifecycle ≠ .starting) :
      LifeStep l { course? := some c, cleared := true } l {}
  | taken {l : Life} {t : Tracked} {source : String} {b b' : Bool} (h : l.tracked = some t) :
      LifeStep l { cleared := b } l.emptied { cleared := b', taken? := some ⟨source, t, l.permit⟩ }
  | stopped {l : Life} {t : Taken} {b b' : Bool} (h : l.tracked = none) (hg : t.tracked.generation = l.generation)
      (hb : b' = true → b = true) :
      LifeStep l { cleared := b, taken? := some t } { l with lifecycle := .stopped } { cleared := b' }
  | outdated {l : Life} {t : Taken} {b b' : Bool}
      (h : l.tracked = none → t.tracked.generation = l.generation → l.lifecycle = .notStarted)
      (hb : b' = true → b = true) :
      LifeStep l { cleared := b, taken? := some t } l { cleared := b' }

/-- What a deed does to the lives of all sources, and to what all jobs have under way for them. -/
inductive LifeMove (f g : Fleet) : Prop
  | same (hl : ∀ k, g.life k = f.life k) (he : ∀ k i, g.stake k i = f.stake k i)
  | step (key : String) (id : Nat) (hl : ∀ k, k ≠ key → g.life k = f.life k)
      (he : ∀ k i, ¬(k = key ∧ i = id) → g.stake k i = f.stake k i)
      (h : LifeStep (f.life key) (f.stake key id) (g.life key) (g.stake key id))
  | crashed (key : String) (hl : ∀ k, k ≠ key → g.life k = f.life k) (he : ∀ k i, g.stake k i = f.stake k i)
      (ht : (f.life key).tracked.isSome = true) (h : g.life key = (f.life key).crashed)

variable {f g : Fleet}

/-! ## The life of a source after an operation -/

theorem life_of_state? {key : String} {s : SourceState} (h : f.state? key = some s) : f.life key = s.life := by
  rw [life, h]; rfl

theorem tracked?_eq (f : Fleet) (key : String) : f.tracked? key = (f.life key).tracked := by
  unfold tracked? life
  cases f.state? key <;> rfl

theorem life_of_states (h : g.states = f.states) (k : String) : g.life k = f.life k := by
  rw [life, state?, h]; rfl

theorem life_stateOrNew (f : Fleet) (id : String) : (f.stateOrNew id).life = f.life (Text.fold id) := by
  unfold stateOrNew life
  cases f.state? (Text.fold id) <;> rfl

theorem state?_putState (f : Fleet) (key : String) (s : SourceState) (k : String) :
    (f.putState key s).state? k = if k = key then some s else f.state? k := KeyMap.get?_insert _ _ _ _

theorem life_putState (f : Fleet) (key : String) (s : SourceState) (k : String) :
    (f.putState key s).life k = if k = key then s.life else f.life k := by
  unfold life
  rw [state?_putState]
  split <;> rfl

/-- Keeping something about a source that does not concern its life changes no life. -/
theorem life_putState_same {key : String} {s : SourceState} (h : s.life = f.life key) (k : String) :
    (f.putState key s).life k = f.life k := by
  rw [life_putState]
  split
  · next hk => rw [h, hk]
  · rfl

theorem life_ensure (f : Fleet) (id : String) (k : String) : (f.ensure id).life k = f.life k :=
  life_putState_same (life_stateOrNew f id) k

theorem life_setManualStop (f : Fleet) (id : String) (value : Bool) (k : String) :
    (f.setManualStop id value).life k = f.life k :=
  life_putState_same (s := { f.stateOrNew id with manualStop := value }) (life_stateOrNew f id) k

theorem life_takeEncoder {o : StopOrder} (h : (f.life o.key).tracked = none) (k : String) :
    (f.takeEncoder o).1.life k = f.life k := by
  have ht := takeEncoder_cases f o
  generalize (f.takeEncoder o).1 = g at ht ⊢
  generalize (f.takeEncoder o).2 = r at ht
  cases ht with
  | unknown => rfl
  | @nothing s hs => exact life_putState_same (s := o.note s) (life_of_state? hs).symm k
  | taken hs ht => rw [life_of_state? hs] at h; rw [SourceState.life, ht] at h; cases h

/-- A stop that comes in during a launch finds no encoder to take away. -/
theorem life_interrupt {o : StartOrder} (h : (f.life o.key).tracked = none) (b : Behaviour) (k : String) :
    (f.interrupt o b).life k = f.life k := by
  unfold interrupt
  split
  · rfl
  · next manual _ =>
    cases manual with
    | false => exact life_takeEncoder (o := ⟨o.key, false, true⟩) h k
    | true =>
      have hnone : ((f.ensure o.source.id).life o.key).tracked = none := by rw [life_ensure]; exact h
      exact (life_takeEncoder (o := ⟨o.key, true, true⟩) hnone k).trans (life_ensure f o.source.id k)

theorem life_track (f : Fleet) (o : StartOrder) (c : Command) (n : Nat) (k : String) :
    (f.track o c n).1.life k = if k = o.key then (f.life o.key).renewed n (f.pid? n) c else f.life k := by
  refine (life_putState f o.key _ k).trans ?_
  rw [show f.life o.key = _ from (life_stateOrNew f o.source.id).symm]
  rfl

/-- The old life of a source is put back as long as its start is under way. -/
theorem life_restoreLife (f : Fleet) (o : StartOrder) (prior : Lifecycle) (k : String) :
    (f.restoreLife o prior).life k = if k = o.key ∧ (f.life o.key).lifecycle = .starting then
      { f.life o.key with lifecycle := prior } else f.life k := by
  unfold restoreLife
  cases hs : f.state? o.key with
  | none =>
    rw [if_neg]
    rintro ⟨-, h⟩
    rw [life, hs] at h
    cases h
  | some s =>
    rw [life_of_state? hs]
    dsimp only
    split
    · next h =>
      have hstart : s.life.lifecycle = .starting := h
      rw [life_putState]
      simp only [hstart, and_true]
      rfl
    · next h =>
      have hstart : s.life.lifecycle ≠ .starting := h
      rw [if_neg fun hk => hstart hk.2]

theorem states_letGo (f : Fleet) (t : Taken) : (f.letGo t).states = f.states := by
  have h := (kept_stopPump f t.tracked.encoder).states
  unfold letGo
  dsimp only
  split <;> exact h

/-! ## Steps -/

/-- A stop does what it does to its source whether it is a job of its own or a part of a start; `b` and `c` say whether
that start has seen to it that no encoder is tracked. -/
theorem StopStep.lifeStep {o : StopOrder} {p : StopPlace} {m : Move} {r : After StopPlace (Option String)} {b c : Bool}
    (hb : p.taken?.isSome = true → c = true → b = true) (h : StopStep f o p m g r) :
    LifeStep (f.life o.key) { cleared := b, taken? := p.taken? } (g.life o.key)
      { cleared := c, taken? := r.place?.bind StopPlace.taken? } ∧ ∀ k, k ≠ o.key → g.life k = f.life k := by
  cases h with
  | unknown hs => exact ⟨.still rfl rfl fun _ => .inr (by rw [life, hs]; rfl), fun _ _ => rfl⟩
  | @nothing s hs ht =>
    have hl := life_putState_same (f := f) (s := o.note s) (life_of_state? hs).symm
    rw [hl]
    exact ⟨.still rfl rfl fun _ => .inr (by rw [life_of_state? hs]; exact ht), fun k _ => hl k⟩
  | @taken s t hs ht =>
    have hl := life_putState f o.key (o.note s).emptied
    constructor
    · have hk := (hl o.key).trans (if_pos rfl)
      rw [life_of_state? hs]
      exact hk ▸ LifeStep.taken (l := s.life) (t := t) ht
    · exact fun k hk => (hl k).trans (if_neg hk)
  | seen => exact ⟨.still rfl rfl fun h => .inl (hb rfl h), fun _ _ => rfl⟩
  | late => exact ⟨.still rfl rfl fun h => .inl (hb rfl h), fun _ _ => rfl⟩
  | @released t =>
    have hl := life_of_states (states_letGo f t)
    rw [hl]
    exact ⟨.still rfl rfl fun h => .inl (hb rfl h), fun k _ => hl k⟩
  | @dropped t =>
    have hl : ∀ k, (if t.tracked.command.mode.piped = true then { f with hubs := f.hubs.remove t.source }
        else f).life k = f.life k := life_of_states (by split <;> rfl)
    rw [hl]
    exact ⟨.still rfl rfl fun h => .inl (hb rfl h), fun k _ => hl k⟩
  | @recorded t code =>
    unfold recordStop
    cases hs : f.state? o.key with
    | none =>
      refine ⟨.outdated (fun _ _ => ?_) (hb rfl), fun _ _ => rfl⟩
      rw [life, hs]; rfl
    | some s =>
      rw [life_of_state? hs]
      dsimp only
      split
      · next h =>
        have hl := life_putState f o.key { s.recordExit f.now code with lifecycle := .stopped }
        refine ⟨?_, fun k hk => (hl k).trans (if_neg hk)⟩
        rw [(hl o.key).trans (if_pos rfl)]
        exact .stopped (l := s.life) (Option.isNone_iff_eq_none.mp h.1) h.2.symm (hb rfl)
      · next h =>
        have hl := life_putState_same (f := f) (s := s.recordExit f.now code) (life_of_state? hs).symm
        refine ⟨?_, fun k _ => hl k⟩
        rw [hl, life_of_state? hs]
        refine .outdated (fun hn hg => absurd ⟨?_, hg.symm⟩ h) (hb rfl)
        exact Option.isNone_iff_eq_none.mpr hn

/-- A start changes the life of its source when it declares the start, when it commits its encoder and when it puts the
old life back; while it replaces an encoder, its stop does. -/
theorem StartStep.lifeStep {id : Nat} {o : StartOrder} {p : StartPlace} {m : Move} {r : After StartPlace StartResult}
    (hl : (f.life o.key).Sound) (hc : p.cleared = true → (f.life o.key).tracked = none) (h : StartStep f id o p m g r) :
    LifeStep (f.life o.key) p.stake (g.life o.key) ((r.place?.map StartPlace.stake).getD {}) ∧
      ∀ k, k ≠ o.key → g.life k = f.life k := by
  have still : ∀ {g : Fleet} {e' : Stake}, (∀ k, g.life k = f.life k) → e'.course? = p.stake.course? →
      e'.taken? = p.stake.taken? → (e'.cleared = true → p.stake.cleared = true ∨ (f.life o.key).tracked = none) →
      LifeStep (f.life o.key) p.stake (g.life o.key) e' ∧ ∀ k, k ≠ o.key → g.life k = f.life k := by
    intro g e' hg h₁ h₂ h₃
    rw [hg]
    exact ⟨.still h₁ h₂ h₃, fun k _ => hg k⟩
  have uncleared : ∀ {P : Prop}, false = true → P := fun h => absurd h Bool.false_ne_true
  cases h with
  | entered => exact still (life_ensure f _) rfl rfl uncleared
  | @found e s t hs =>
    exact still (life_putState_same (s := { s with manualStop := false }) (life_of_state? hs).symm) rfl rfl uncleared
  | replacing => exact still (fun _ => rfl) rfl rfl uncleared
  | missing h =>
    refine still (fun _ => rfl) rfl rfl fun _ => .inr ?_
    cases hs : f.state? o.key with
    | none => rw [life, hs]; rfl
    | some s =>
      rw [life_of_state? hs] at hl ⊢
      have hn := h s hs
      cases ht : s.tracked with
      | none => exact ht
      | some t =>
        have hr : s.lifecycle = .running := hl.running.mpr (by simp [SourceState.life, ht])
        simp [SourceState.isRunning, ht, hr] at hn
  | @retiring e q q' _ _ h =>
    have hs := h.lifeStep (b := q.taken?.isSome) (c := q'.taken?.isSome) fun h _ => h
    exact hs
  | @retired e q _ _ a h =>
    have hs := h.lifeStep (b := q.taken?.isSome) (c := true) fun h _ => h
    exact hs
  | declared =>
    have hg := life_putState f o.key { f.stateOrNew o.source.id with lifecycle := .starting }
    refine ⟨?_, fun k hk => (hg k).trans (if_neg hk)⟩
    rw [(hg o.key).trans (if_pos rfl), show f.life o.key = _ from (life_stateOrNew f o.source.id).symm]
    exact .declared
  | @cleared c => exact still (life_of_states (kept_clearOrphans f c.command).states) rfl rfl fun _ => .inl rfl
  | @madeWay c => exact still (life_of_states (kept_makeWay f c.command).states) rfl rfl fun _ => .inl rfl
  | @noWay c => exact still (life_of_states (kept_makeWay f c.command).states) rfl rfl fun _ => .inl rfl
  | @launched c b => exact still (life_interrupt (hc rfl) b) rfl rfl fun _ => .inl rfl
  | @opened c n => exact still (life_of_states (kept_openHub f o c.command n).states) rfl rfl fun _ => .inl rfl
  | @abandoned c n => exact still (life_of_states (kept_stopPump f n).states) rfl rfl fun _ => .inl rfl
  | @committed c n =>
    have hg := life_track f o c.command n
    refine ⟨?_, fun k hk => (hg k).trans (if_neg hk)⟩
    rw [(hg o.key).trans (if_pos rfl)]
    exact .committed
  | @restored c =>
    have hg := life_restoreLife f o c.prior
    refine ⟨?_, fun k hk => (hg k).trans (if_neg fun h => hk h.1)⟩
    by_cases hstart : (f.life o.key).lifecycle = .starting
    · rw [hg, if_pos ⟨rfl, hstart⟩]
      exact .restored hstart
    · rw [hg, if_neg fun h => hstart h.2]
      exact .spared hstart
  | refused => exact still (fun _ => rfl) rfl rfl uncleared
  | queued => exact still (fun _ => rfl) rfl rfl uncleared
  | admitted => exact still (fun _ => rfl) rfl rfl uncleared
  | leftLine => exact still (fun _ => rfl) rfl rfl uncleared
  | left => exact still (fun _ => rfl) rfl rfl uncleared
  | acquired => exact still (fun _ => rfl) rfl rfl fun _ => .inl rfl
  | waiting => exact still (fun _ => rfl) rfl rfl fun _ => .inl rfl
  | gaveUp => exact still (fun _ => rfl) rfl rfl fun _ => .inl rfl
  | granted => exact still (fun _ => rfl) rfl rfl fun _ => .inl rfl
  | withdrew => exact still (fun _ => rfl) rfl rfl fun _ => .inl rfl
  | late => exact still (fun _ => rfl) rfl rfl fun _ => .inl rfl
  | failed => exact still (fun _ => rfl) rfl rfl fun _ => .inl rfl

/-! ## Deeds -/

theorem stakeOf_start (o : StartOrder) (p : Option StartPlace) (key : String) :
    stakeOf (p.map fun p => (o, p)) (p.bind o.stop?) key =
      if key = o.key then (p.map StartPlace.stake).getD {} else {} := by
  unfold stakeOf
  by_cases h : key = o.key
  · subst h
    cases p with
    | none => simp
    | some p => cases hq : p.stop? <;> simp [StartPlace.stake, StartOrder.stop?, hq]
  · have h' : ¬o.key = key := Ne.symm h
    cases p with
    | none => simp
    | some p => cases hq : p.stop? <;> simp [StartOrder.stop?, hq, h, h']

theorem stakeOf_stop (o : StopOrder) (p : Option StopPlace) (key : String) :
    stakeOf none (p.map fun p => (o, p)) key =
      if key = o.key then { taken? := p.bind StopPlace.taken? } else {} := by
  unfold stakeOf
  by_cases h : key = o.key
  · subst h; cases p <;> simp
  · have h' : ¬o.key = key := Ne.symm h
    cases p <;> simp [h, h']

theorem Unmoved.stake (h : f.Unmoved g) (k : String) (i : Nat) : g.stake k i = f.stake k i := by
  rw [Fleet.stake, h.start?, h.stop?]; rfl

theorem Passed.stake {id : Nat} {s : Option (StartOrder × StartPlace)} {t : Option (StopOrder × StopPlace)}
    (h : f.Passed g id s t) (k : String) (i : Nat) : g.stake k i = if i = id then stakeOf s t k else f.stake k i := by
  rw [Fleet.stake, h.start?, h.stop?]
  split <;> rfl

/-- A job that had and has at most one source's life under way makes a step in that life. -/
theorem Passed.lifeMove {id : Nat} {s : Option (StartOrder × StartPlace)} {t : Option (StopOrder × StopPlace)}
    {key : String} {e e' : Stake} (hp : f.Passed g id s t) (hf : ∀ k, f.stake k id = if k = key then e else {})
    (hg : ∀ k, stakeOf s t k = if k = key then e' else {})
    (h : LifeStep (f.life key) e (g.life key) e' ∧ ∀ k, k ≠ key → g.life k = f.life k) : LifeMove f g := by
  refine .step key id h.2 (fun k i hn => ?_) ?_
  · rw [hp.stake]
    split
    · next hi =>
      have hk : k ≠ key := fun hk => hn ⟨hk, hi⟩
      rw [hi, hg, hf, if_neg hk, if_neg hk]
    · rfl
  · rw [hp.stake, if_pos rfl, hf, hg, if_pos rfl, if_pos rfl]
    exact h.1

/-- A job in which nothing of account begins changes no life. -/
theorem Passed.lifeMove_same {id : Nat} {s : Option (StartOrder × StartPlace)}
    {t : Option (StopOrder × StopPlace)} (hp : f.Passed g id s t) (hl : ∀ k, g.life k = f.life k)
    (hs : f.start? id = none) (ht : f.stop? id = none) (h : ∀ k, stakeOf s t k = {}) : LifeMove f g := by
  refine .same hl fun k i => ?_
  rw [hp.stake]
  split
  · next hi => rw [hi, h, Fleet.stake, hs, ht]; rfl
  · rfl

/-- A crash is not recorded of an encoder that its source does not track. -/
theorem recordCrash_eq_self {key : String} {generation : Nat}
    (h : (f.tracked? key).any (fun t => t.generation == generation) = false) (code : ExitCode) :
    f.recordCrash key generation code = f := by
  unfold recordCrash
  cases hs : f.state? key with
  | none => rfl
  | some s =>
    rw [tracked?, hs, Option.bind_some] at h
    simp only [h, Bool.false_eq_true, if_false]

/-- A crash that is recorded takes the tracked encoder away from its source and gives the permit back. -/
theorem life_recordCrash_of_tracked {key : String} {generation : Nat}
    (h : (f.tracked? key).any (fun t => t.generation == generation) = true) (code : ExitCode) :
    (∀ k, (f.recordCrash key generation code).life k = if k = key then (f.life key).crashed else f.life k) ∧
      (f.recordCrash key generation code).gate = if (f.life key).permit then f.gate.release else f.gate := by
  unfold recordCrash
  cases hs : f.state? key with
  | none =>
    rw [tracked?, hs] at h
    cases h
  | some s =>
    rw [tracked?, hs, Option.bind_some] at h
    rw [life_of_state? hs]
    simp only [h, if_true]
    refine ⟨fun k => (life_putState _ key _ k).trans ?_, ?_⟩
    · have hp : (if s.permit = true then f.releasePermit else f).life k = f.life k :=
        life_of_states (by split <;> rfl) k
      rw [hp]
      rfl
    · show (if s.permit = true then f.releasePermit else f).gate = _
      rw [apply_ite Fleet.gate]
      rfl

/-- Recording a crash does nothing, or takes the tracked encoder away from its source and gives the permit back. -/
theorem life_recordCrash (f : Fleet) (key : String) (generation : Nat) (code : ExitCode) :
    (∀ k, (f.recordCrash key generation code).life k = f.life k) ∧ (f.recordCrash key generation code).gate = f.gate ∨
      (f.life key).tracked.isSome = true ∧
        (∀ k, (f.recordCrash key generation code).life k = if k = key then (f.life key).crashed else f.life k) ∧
        (f.recordCrash key generation code).gate = if (f.life key).permit then f.gate.release else f.gate := by
  cases h : (f.tracked? key).any (fun t => t.generation == generation) with
  | false =>
    rw [recordCrash_eq_self h]
    exact .inl ⟨fun _ => rfl, rfl⟩
  | true =>
    have hsome := Option.isSome_of_any h
    rw [tracked?_eq] at hsome
    exact .inr ⟨hsome, life_recordCrash_of_tracked h code⟩

theorem life_prepare (f : Fleet) (r : Request) (k : String) : (f.prepare r).life k = f.life k := by
  unfold prepare
  split
  · exact life_ensure f _ k
  · rfl

/-- What a deed does to the lives of all sources, where they are sound and no start that has seen to it that no encoder
is tracked is mistaken. -/
theorem Worked.lifeMove {d : Deed} (hl : ∀ k, (f.life k).Sound)
    (hc : ∀ k i, (f.stake k i).cleared = true → (f.life k).tracked = none) (h : Worked f d g) : LifeMove f g := by
  cases h with
  | @start id o p _ _ _ r hs ht step hf hp =>
    have he : ∀ k, f.stake k id = if k = o.key then p.stake else {} := fun k => by
      rw [stake, hs, ht]; exact stakeOf_start o (some p) k
    refine hp.lifeMove he (stakeOf_start o r.place?) ?_
    have hstep := step.lifeStep (hl o.key) fun h => hc o.key id (by rw [he, if_pos rfl]; exact h)
    rw [life_of_states hf.states]
    exact ⟨hstep.1, fun k hk => (life_of_states hf.states k).trans (hstep.2 k hk)⟩
  | @stop id o p _ _ _ r hs ht _ step hf hp =>
    have he : ∀ k, f.stake k id = if k = o.key then { taken? := p.taken? } else {} := fun k => by
      rw [stake, hs, ht]; exact stakeOf_stop o (some p) k
    refine hp.lifeMove he (stakeOf_stop o r.place?) ?_
    have hstep := step.lifeStep (b := false) (c := false) fun _ h => h
    rw [life_of_states hf.states]
    exact ⟨hstep.1, fun k hk => (life_of_states hf.states k).trans (hstep.2 k hk)⟩
  | @begun id o _ _ hs ht hf hp =>
    refine hp.lifeMove_same (life_of_states hf.states) hs ht fun k => ?_
    exact (stakeOf_start o (some .enter) k).trans (ite_self _)
  | @unmarked id o _ _ _ hs ht _ _ _ _ hf hp =>
    refine hp.lifeMove_same (fun k => ?_) hs ht fun k => ?_
    · exact (life_of_states hf.states k).trans (life_setManualStop f _ _ k)
    · exact (stakeOf_start o (some .enter) k).trans (ite_self _)
  | @turned id o _ _ hs ht _ hf hp =>
    refine hp.lifeMove_same (life_of_states hf.states) hs ht fun k => ?_
    exact (stakeOf_stop o (some .take) k).trans (ite_self _)
  | @noticed n generation key _ _ code =>
    have hu := (agenda_noticed f key generation n code).unmoved.stake
    have hg : ∀ k,
        ((f.recordCrash key generation code).modifyEncoder n fun e => { e with keeper := .gone code }).life k =
          (f.recordCrash key generation code).life k := fun _ => rfl
    rcases life_recordCrash f key generation code with ⟨h, -⟩ | ⟨ht, h, -⟩
    · exact .same (fun k => (hg k).trans (h k)) hu
    · refine .crashed key (fun k hk => ?_) hu ht ?_
      · rw [hg, h, if_neg hk]
      · rw [hg, h, if_pos rfl]
  | @submitted r _ hf hu => exact .same (fun k => (life_of_states hf.states k).trans (life_prepare f r k)) hu.stake
  | idle _ hs _ _ hu => exact .same (life_of_states hs) hu.stake
  | struck => exact .same (fun _ => rfl) fun _ _ => rfl
  | reaped => exact .same (fun _ => rfl) fun _ _ => rfl
  | noted => exact .same (life_ensure f _) fun _ _ => rfl
  | marked => exact .same (life_setManualStop f _ _) fun _ _ => rfl
  | exited => exact .same (fun _ => rfl) fun _ _ => rfl

end Fleet

end EncoderFleet
