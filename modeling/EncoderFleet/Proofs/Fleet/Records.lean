import EncoderFleet.Proofs.Fleet.Lives

/-!
# What the records of sources say

`Records f` says that what is known about each source agrees with what is under way for it: each life is sound, a source
that is starting has a start under way that declared it, a source that is stopping has a stop under way that took its
latest encoder away, and a start puts back a life that can be put back. It holds in all fleets that can be reached
(`Reachable.records`), whatever the order of the deeds; `record_of_source` reads off what it means for one source.
-/

namespace EncoderFleet.Fleet

/-- A stop is under way that took the encoder of the latest generation away. -/
def Taker (f : Fleet) (key : String) : Prop :=
  ∃ id t, (f.stake key id).taken? = some t ∧ t.tracked.generation = (f.life key).generation

/-- The record of a source agrees with what is under way for it. -/
structure RecordOf (f : Fleet) (key : String) : Prop where
  sound : (f.life key).Sound
  starting (h : (f.life key).lifecycle = .starting) : ∃ id c, (f.stake key id).course? = some c
  stopping (h : (f.life key).lifecycle = .stopping) : f.Taker key
  cleared {id : Nat} (h : (f.stake key id).cleared = true) : (f.life key).tracked = none
  /-- What a start would put back is neither starting nor running, nor stopping without anyone who stops it. -/
  course {id : Nat} {c : Course} (h : (f.stake key id).course? = some c) :
    c.prior ≠ .starting ∧ c.prior ≠ .running ∧
      (c.prior = .stopping → (f.life key).lifecycle = .starting → f.Taker key)

/-- The records of all sources agree with what is under way. -/
def Records (f : Fleet) : Prop := ∀ key, f.RecordOf key

variable {f g : Fleet}

/-! ## Stakes and starts -/

theorem stake_course? {key : String} {id : Nat} {c : Course} :
    (f.stake key id).course? = some c ↔ ∃ o p, f.start? id = some (o, p) ∧ o.key = key ∧ p.course? = some c := by
  simp only [stake, stakeOf]
  cases f.start? id with
  | none => simp
  | some s =>
    obtain ⟨o, p⟩ := s
    by_cases h : o.key = key <;> simp [h]

theorem stake_taken? {key : String} {id : Nat} {t : Taken} :
    (f.stake key id).taken? = some t ↔ ∃ o p, f.stop? id = some (o, p) ∧ o.key = key ∧ p.taken? = some t := by
  simp only [stake, stakeOf]
  cases f.stop? id with
  | none => simp
  | some s =>
    obtain ⟨o, p⟩ := s
    by_cases h : o.key = key <;> simp [h]

theorem stake_cleared {key : String} {id : Nat} :
    (f.stake key id).cleared = true ↔ ∃ o p, f.start? id = some (o, p) ∧ o.key = key ∧ p.cleared = true := by
  simp only [stake, stakeOf]
  cases f.start? id with
  | none => simp
  | some s =>
    obtain ⟨o, p⟩ := s
    by_cases h : o.key = key <;> simp [h]

/-- While a start that has seen to it that its source tracks no encoder is under way, the source tracks none. -/
theorem Records.untracked {id : Nat} {o : StartOrder} {p : StartPlace} (h : f.Records)
    (hs : f.start? id = some (o, p)) (hp : p.cleared = true) : (f.life o.key).tracked = none :=
  (h o.key).cleared (stake_cleared.mpr ⟨o, p, hs, rfl, hp⟩)

theorem acts_of_cleared {key : String} {id : Nat} (h : (f.stake key id).cleared = true) : f.acts key id = true := by
  obtain ⟨o, p, hs, rfl, hp⟩ := stake_cleared.mp h
  exact acts_of_start? hs (StartPlace.admitted_of_cleared hp)

theorem cleared_of_course? {key : String} {id : Nat} {c : Course} (h : (f.stake key id).course? = some c) :
    (f.stake key id).cleared = true := by
  obtain ⟨o, p, hs, hk, hp⟩ := stake_course?.mp h
  exact stake_cleared.mpr ⟨o, p, hs, hk, StartPlace.cleared_of_course hp⟩

/-- Of the starts of one source, one at most has seen to it that no encoder is tracked. -/
theorem Turns.cleared_alone (h : f.Turns) {key : String} {i j : Nat} (hi : (f.stake key i).cleared = true)
    (hj : (f.stake key j).cleared = true) : i = j :=
  h.alone (acts_of_cleared hi) (acts_of_cleared hj)

/-! ## Steps -/

theorem sound_of_untracked {l : Life} (hl : l.Sound) (ht : l.tracked = none) {x : Lifecycle} (hx : x ≠ .running) :
    ({ l with lifecycle := x } : Life).Sound where
  permit := hl.permit
  running := ⟨fun h => absurd h hx, fun h => by simp [ht] at h⟩
  generation := hl.generation

theorem untracked_of_not_running {l : Life} (hl : l.Sound) (h : l.lifecycle ≠ .running) : l.tracked = none :=
  Option.not_isSome_iff_eq_none.mp fun ht => h (hl.running.mpr ht)

theorem sound_emptied (l : Life) : l.emptied.Sound := ⟨rfl, ⟨nofun, nofun⟩, nofun⟩

theorem sound_crashed (l : Life) : l.crashed.Sound := ⟨rfl, ⟨nofun, nofun⟩, nofun⟩

theorem sound_renewed (l : Life) (n : Nat) (pid : Option UInt32) (c : Command) : (l.renewed n pid c).Sound where
  permit := rfl
  running := ⟨fun _ => rfl, fun _ => rfl⟩
  generation h := by cases h; rfl

/-- Whoever took the latest encoder away goes on doing so, if neither the generation nor its stake changes. -/
theorem Taker.keep {key : String} (h : f.Taker key) (hl : (g.life key).generation = (f.life key).generation)
    (ht : ∀ i t, (f.stake key i).taken? = some t → t.tracked.generation = (f.life key).generation →
      (g.stake key i).taken? = some t) : g.Taker key := by
  obtain ⟨i, t, hi, hg⟩ := h
  exact ⟨i, t, ht i t hi hg, hg.trans hl.symm⟩

/-- Where neither the life nor any stake of a source changes, its record goes on to agree with what is under way. -/
theorem RecordOf.same {key : String} (h : f.RecordOf key) (hl : g.life key = f.life key)
    (he : ∀ i, g.stake key i = f.stake key i) : g.RecordOf key := by
  have ht : f.Taker key → g.Taker key := fun ht =>
    ht.keep (by rw [hl]) fun i t hi _ => by rw [he]; exact hi
  refine ⟨hl ▸ h.sound, fun hs => ?_, fun hs => ?_, fun hc => ?_, fun hc => ?_⟩
  · rw [hl] at hs
    simpa only [he] using h.starting hs
  · rw [hl] at hs
    exact ht (h.stopping hs)
  · rw [he] at hc
    rw [hl]
    exact h.cleared hc
  · rw [he] at hc
    rw [hl]
    obtain ⟨h₁, h₂, h₃⟩ := h.course hc
    exact ⟨h₁, h₂, fun hp hs => ht (h₃ hp hs)⟩

/-- A crash leaves nothing under way to be put back: as long as an encoder is tracked, no start has seen to the
contrary. -/
theorem RecordOf.crashed {key : String} (h : f.RecordOf key) (he : ∀ i, g.stake key i = f.stake key i)
    (ht : (f.life key).tracked.isSome = true) (hl : g.life key = (f.life key).crashed) : g.RecordOf key := by
  refine ⟨hl ▸ sound_crashed _, fun hs => ?_, fun hs => ?_, fun _ => by rw [hl]; rfl, fun hc => ?_⟩
  · rw [hl] at hs; cases hs
  · rw [hl] at hs; cases hs
  · rw [he] at hc
    rw [h.cleared (cleared_of_course? hc)] at ht
    cases ht

section Steps

variable {key : String} {id : Nat} (he : ∀ i, i ≠ id → g.stake key i = f.stake key i)

include he

theorem course?_elsewhere {i : Nat} {c : Course} (h : (g.stake key i).course? = some c) :
    i = id ∨ (f.stake key i).course? = some c :=
  or_iff_not_imp_left.mpr fun hi => he i hi ▸ h

theorem cleared_elsewhere {i : Nat} (h : (g.stake key i).cleared = true) : i = id ∨ (f.stake key i).cleared = true :=
  or_iff_not_imp_left.mpr fun hi => he i hi ▸ h

/-- A stop other than that of the job goes on; that of the job does, unless this was its last step. -/
theorem Taker.elsewhere (h : f.Taker key) (hl : (g.life key).generation = (f.life key).generation)
    (ht : ∀ t, (f.stake key id).taken? = some t → t.tracked.generation = (f.life key).generation →
      (g.stake key id).taken? = some t) : g.Taker key :=
  h.keep hl fun i t hi hg => by
    by_cases hii : i = id
    · rw [hii] at hi ⊢; exact ht t hi hg
    · rw [he i hii]; exact hi

theorem RecordOf.still (h : f.RecordOf key) (hl : g.life key = f.life key)
    (hc : (g.stake key id).course? = (f.stake key id).course?)
    (ht : (g.stake key id).taken? = (f.stake key id).taken?)
    (hn : (g.stake key id).cleared = true → (f.stake key id).cleared = true ∨ (f.life key).tracked = none) :
    g.RecordOf key := by
  have htk : f.Taker key → g.Taker key := fun h => h.elsewhere he (by rw [hl]) fun t hi _ => by rw [ht]; exact hi
  have hcourse : ∀ i, (g.stake key i).course? = (f.stake key i).course? := fun i => by
    by_cases hi : i = id
    · rw [hi, hc]
    · rw [he i hi]
  refine ⟨hl ▸ h.sound, fun hs => ?_, fun hs => htk (h.stopping (hl ▸ hs)), fun hi => ?_, fun {i c} hi => ?_⟩
  · simpa only [hcourse] using h.starting (hl ▸ hs)
  · rw [hl]
    rcases cleared_elsewhere he hi with rfl | hi
    · exact (hn hi).elim h.cleared fun h => h
    · exact h.cleared hi
  · rw [hcourse] at hi
    obtain ⟨h₁, h₂, h₃⟩ := h.course hi
    exact ⟨h₁, h₂, fun hp hs => htk (h₃ hp (hl ▸ hs))⟩

theorem RecordOf.declared {epoch : Nat} {c : Command} (h : f.RecordOf key) (ht : f.Turns)
    (hk : f.stake key id = { cleared := true }) (hl : g.life key = { f.life key with lifecycle := .starting })
    (hk' : g.stake key id = { course? := some ⟨epoch, (f.life key).lifecycle, c⟩, cleared := true }) :
    g.RecordOf key := by
  have hid : (f.stake key id).cleared = true := by rw [hk]
  have hn := h.cleared hid
  -- No other start of the source is on its course.
  have hno : ∀ {i c}, (f.stake key i).course? ≠ some c := fun {i c} hi => by
    rw [ht.cleared_alone (cleared_of_course? hi) hid, hk] at hi
    cases hi
  refine ⟨hl ▸ sound_of_untracked h.sound hn nofun, fun _ => ⟨id, _, by rw [hk']⟩, fun hs => ?_, fun _ => ?_,
    fun {i c} hi => ?_⟩
  · rw [hl] at hs; cases hs
  · rw [hl]; exact hn
  · rcases course?_elsewhere he hi with rfl | hi
    · rw [hk'] at hi
      cases hi
      refine ⟨fun hp => ?_, fun hp => ?_, fun hp _ => ?_⟩
      · obtain ⟨j, c, hj⟩ := h.starting hp
        exact hno hj
      · have := h.sound.running.mp hp
        rw [hn] at this
        cases this
      · refine (h.stopping hp).elsewhere he (by rw [hl]) fun t hi _ => ?_
        rw [hk] at hi; cases hi
    · exact (hno hi).elim

/-- When the start that had declared its source is over, nothing is left to be put back. -/
theorem RecordOf.ended {c : Course} (ht : f.Turns) (hk : f.stake key id = { course? := some c, cleared := true })
    (hk' : g.stake key id = {}) (hl : (g.life key).Sound) (hs : (g.life key).lifecycle ≠ .starting)
    (hp : (g.life key).lifecycle = .stopping → (g.life key).generation = (f.life key).generation ∧ f.Taker key) :
    g.RecordOf key := by
  have hno : ∀ {i}, (g.stake key i).cleared ≠ true := fun {i} hi => by
    have hii : i = id := (cleared_elsewhere he hi).elim (fun h => h) fun hi => ht.cleared_alone hi (by rw [hk])
    rw [hii, hk'] at hi
    cases hi
  refine ⟨hl, fun h => absurd h hs, fun h => ?_, fun hi => (hno hi).elim, fun hi => (hno (cleared_of_course? hi)).elim⟩
  refine (hp h).2.elsewhere he (hp h).1 fun t hi _ => ?_
  rw [hk] at hi; cases hi

theorem RecordOf.taken {t : Taken} (h : f.RecordOf key) (ht : (f.life key).tracked = some t.tracked)
    (hl : g.life key = (f.life key).emptied) (hc : (g.stake key id).course? = none)
    (hk : (g.stake key id).taken? = some t) : g.RecordOf key := by
  refine ⟨hl ▸ sound_emptied _, fun hs => ?_, fun _ => ⟨id, t, hk, ?_⟩, fun _ => by rw [hl]; rfl, fun {i c} hi => ?_⟩
  · rw [hl] at hs; cases hs
  · rw [hl]; exact h.sound.generation ht
  · rcases course?_elsewhere he hi with rfl | hi
    · rw [hc] at hi; cases hi
    · have := h.cleared (cleared_of_course? hi)
      rw [ht] at this
      cases this

theorem RecordOf.stopped (h : f.RecordOf key) (hn : (f.life key).tracked = none)
    (hl : g.life key = { f.life key with lifecycle := .stopped }) (hc : (g.stake key id).course? = none) :
    g.RecordOf key := by
  refine ⟨hl ▸ sound_of_untracked h.sound hn nofun, fun hs => ?_, fun hs => ?_, fun _ => by rw [hl]; exact hn,
    fun {i c} hi => ?_⟩
  · rw [hl] at hs; cases hs
  · rw [hl] at hs; cases hs
  · rcases course?_elsewhere he hi with rfl | hi
    · rw [hc] at hi; cases hi
    · obtain ⟨h₁, h₂, -⟩ := h.course hi
      exact ⟨h₁, h₂, fun _ hs => by rw [hl] at hs; cases hs⟩

/-- A stop that took an earlier encoder away changes nothing in the life of its source. -/
theorem RecordOf.outdated {t : Taken} {b b' : Bool} (h : f.RecordOf key)
    (hk : f.stake key id = { cleared := b, taken? := some t }) (hl : g.life key = f.life key)
    (hk' : g.stake key id = { cleared := b' }) (hb : b' = true → b = true)
    (ho : (f.life key).tracked = none → t.tracked.generation = (f.life key).generation →
      (f.life key).lifecycle = .notStarted) : g.RecordOf key := by
  have htk : (f.life key).lifecycle ≠ .running → (f.life key).lifecycle ≠ .notStarted → f.Taker key → g.Taker key :=
    fun hr hs h' => h'.elsewhere he (by rw [hl]) fun t' hi hg => by
      rw [hk] at hi
      cases hi
      exact absurd (ho (untracked_of_not_running h.sound hr) hg) hs
  refine ⟨hl ▸ h.sound, fun hs => ?_, fun hs => ?_, fun {i} hi => ?_, fun {i c} hi => ?_⟩
  · obtain ⟨i, c, hi⟩ := h.starting (hl ▸ hs)
    have hii : i ≠ id := fun hii => by rw [hii, hk] at hi; cases hi
    exact ⟨i, c, by rw [he i hii]; exact hi⟩
  · rw [hl] at hs
    exact htk (by rw [hs]; nofun) (by rw [hs]; nofun) (h.stopping hs)
  · rw [hl]
    rcases cleared_elsewhere he hi with rfl | hi
    · rw [hk'] at hi
      exact h.cleared (by rw [hk]; exact hb hi)
    · exact h.cleared hi
  · rcases course?_elsewhere he hi with rfl | hi
    · rw [hk'] at hi; cases hi
    · obtain ⟨h₁, h₂, h₃⟩ := h.course hi
      refine ⟨h₁, h₂, fun hp hs => ?_⟩
      rw [hl] at hs
      exact htk (by rw [hs]; nofun) (by rw [hs]; nofun) (h₃ hp hs)

theorem RecordOf.step (h : f.RecordOf key) (ht : f.Turns)
    (hs : LifeStep (f.life key) (f.stake key id) (g.life key) (g.stake key id)) : g.RecordOf key := by
  generalize hl : f.life key = l at hs
  generalize hl' : g.life key = l' at hs
  generalize hk : f.stake key id = e at hs
  generalize hk' : g.stake key id = e' at hs
  cases hs with
  | still hc htk hn =>
    subst hl hk hk'
    exact h.still he hl' hc htk hn
  | declared =>
    subst hl
    exact h.declared he ht hk hl' hk'
  | committed =>
    refine .ended he ht hk hk' (hl' ▸ sound_renewed _ _ _ _) ?_ fun hs => ?_
    · rw [hl']; nofun
    · rw [hl'] at hs; cases hs
  | @restored c hst =>
    subst hl
    have hc : (f.stake key id).course? = some c := by rw [hk]
    obtain ⟨h₁, h₂, h₃⟩ := h.course hc
    have hn := h.cleared (cleared_of_course? hc)
    refine .ended he ht hk hk' (hl' ▸ sound_of_untracked h.sound hn h₂) ?_ fun hs => ?_
    · rw [hl']; exact h₁
    · rw [hl'] at hs ⊢; exact ⟨rfl, h₃ hs hst⟩
  | spared hst =>
    subst hl
    refine .ended he ht hk hk' (hl' ▸ h.sound) ?_ fun hs => ?_
    · rw [hl']; exact hst
    · rw [hl'] at hs ⊢; exact ⟨rfl, h.stopping hs⟩
  | taken htr =>
    subst hl
    exact h.taken he htr hl' (by rw [hk']) (by rw [hk'])
  | stopped hn _ _ =>
    subst hl
    exact h.stopped he hn hl' (by rw [hk'])
  | outdated ho hb =>
    subst hl
    exact h.outdated he hk hl' hk' hb ho

end Steps

/-! ## Deeds -/

theorem Records.move (h : f.Records) (ht : f.Turns) (hm : LifeMove f g) : g.Records := by
  intro k
  cases hm with
  | same hl he => exact (h k).same (hl k) (he k)
  | step key id hl he hs =>
    by_cases hk : k = key
    · subst hk
      exact (h k).step (fun i hi => he k i fun h => hi h.2) ht hs
    · exact (h k).same (hl k hk) fun i => he k i fun h => hk h.1
  | crashed key hl he ht hg =>
    by_cases hk : k = key
    · subst hk
      exact (h k).crashed (he k) ht hg
    · exact (h k).same (hl k hk) (he k)

theorem Reachable.records (h : f.Reachable) : f.Records := by
  induction h with
  | fresh => exact fun key => ⟨⟨rfl, ⟨nofun, nofun⟩, nofun⟩, nofun, nofun, nofun, nofun⟩
  | perform hr hd ih =>
    exact ih.move hr.turns ((hr.worked hd).lifeMove (fun k => (ih k).sound) fun k i => (ih k).cleared)

theorem AtRest.start?_eq_none (h : f.AtRest) (id : Nat) : f.start? id = none := by
  unfold start?
  cases hj : f.jobs.get? id with
  | none => rfl
  | some j =>
    have hd := h id j hj
    cases j with
    | done => rfl
    | _ => cases hd

theorem AtRest.stop?_eq_none (h : f.AtRest) (id : Nat) : f.stop? id = none := by
  unfold stop?
  cases hj : f.jobs.get? id with
  | none => rfl
  | some j =>
    have hd := h id j hj
    cases j with
    | done => rfl
    | _ => cases hd

/-- At every moment the record of a source says what is the case: an encoder is tracked, a permit is held and the source
counts as running all at once or not at all; the tracked encoder is that of the latest generation; exactly one start has
the turn of a source that is starting; and a stop that took the latest encoder away is under way for a source that is
stopping. So with no request in flight a source neither starts nor stops. -/
theorem record_of_source (h : f.Reachable) {key : String} {s : SourceState} (hs : f.state? key = some s) :
    (s.tracked.isSome = true ↔ s.permit = true) ∧ (s.permit = true ↔ s.lifecycle = .running) ∧
    (∀ t, s.tracked = some t → t.generation = s.generation) ∧
    (s.lifecycle = .starting → ∃! id, ∃ o p, f.start? id = some (o, p) ∧ o.key = key ∧ p.admitted = true) ∧
    (s.lifecycle = .stopping → ∃ id o p t, f.stop? id = some (o, p) ∧ o.key = key ∧ p.taken? = some t ∧
      t.tracked.generation = s.generation) ∧
    (f.AtRest → s.lifecycle = .notStarted ∨ s.lifecycle = .running ∨ s.lifecycle = .stopped ∨
      s.lifecycle = .crashed) := by
  have hr := h.records key
  have hl := life_of_state? hs
  have hsound : s.life.Sound := hl ▸ hr.sound
  have hpermit : s.permit = s.tracked.isSome := hsound.permit
  have hstart : s.lifecycle = .starting →
      ∃! id, ∃ o p, f.start? id = some (o, p) ∧ o.key = key ∧ p.admitted = true := by
    intro hst
    obtain ⟨id, c, hc⟩ := hr.starting (hl ▸ hst)
    obtain ⟨o, p, hp, hk, hc⟩ := stake_course?.mp hc
    have hadm := StartPlace.admitted_of_cleared (StartPlace.cleared_of_course hc)
    refine ⟨id, ⟨o, p, hp, hk, hadm⟩, ?_⟩
    rintro j ⟨o', p', hp', hk', hadm'⟩
    exact h.turns.alone (hk' ▸ acts_of_start? hp' hadm') (hk ▸ acts_of_start? hp hadm)
  have hstop : s.lifecycle = .stopping → ∃ id o p t, f.stop? id = some (o, p) ∧ o.key = key ∧ p.taken? = some t ∧
      t.tracked.generation = s.generation := by
    intro hst
    obtain ⟨id, t, ht, hg⟩ := hr.stopping (hl ▸ hst)
    obtain ⟨o, p, hp, hk, ht⟩ := stake_taken?.mp ht
    exact ⟨id, o, p, t, hp, hk, ht, by rw [hg, hl]; rfl⟩
  refine ⟨by rw [hpermit], ?_, fun t ht => hsound.generation ht, hstart, hstop, fun hrest => ?_⟩
  · rw [hpermit]
    exact hsound.running.symm
  · cases hlc : s.lifecycle with
    | starting =>
      obtain ⟨id, ⟨o, p, hp, -⟩, -⟩ := hstart hlc
      rw [hrest.start?_eq_none] at hp
      cases hp
    | stopping =>
      obtain ⟨id, o, p, t, hp, -⟩ := hstop hlc
      rw [hrest.stop?_eq_none] at hp
      cases hp
    | _ => simp

/-- Two starts of a camera are under way, and one of them has declared it as starting: it is the only one that has the
turn. -/
theorem record_of_starting_camera : ∃ f : Fleet, ∃ s : SourceState,
    f.Reachable ∧ f.state? "cam" = some s ∧ s.lifecycle = .starting ∧ (f.start? 0).isSome = true ∧
      (f.start? 1).isSome = true ∧
      ∃! id, ∃ o p, f.start? id = some (o, p) ∧ o.key = "cam" ∧ p.admitted = true := by
  obtain ⟨f, hf, h⟩ := exists_of_run
    (p := fun f => (f.state? "cam").any (fun s => s.lifecycle == .starting) && (f.start? 0).isSome &&
      (f.start? 1).isSome)
    ([.submit (.start camera), .submit (.start camera)] ++ goesOn 0 8 ++ goesOn 1 3) (by decide +kernel)
  rw [Bool.and_eq_true, Bool.and_eq_true] at h
  obtain ⟨⟨h, h₀⟩, h₁⟩ := h
  obtain ⟨s, hs, hl⟩ := (Option.any_eq_true _ _).mp h
  have hl := beq_iff_eq.mp hl
  exact ⟨f, s, hf, hs, hl, h₀, h₁, (record_of_source hf hs).2.2.2.1 hl⟩

end EncoderFleet.Fleet
