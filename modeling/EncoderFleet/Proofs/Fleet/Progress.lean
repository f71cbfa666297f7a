import EncoderFleet.Proofs.Fleet.Indifference

/-!
# Batches come to an end

A batch has only so many steps to make, and each of them is one less (`StartStep.left_lt`, `JobStep.left_lt`). And it is
never stuck as long as nobody else works: its next step is possible, if not now then once time has passed
(`Reachable.exists_stepJob`).
-/

namespace EncoderFleet

namespace StopPlace

/-- How many steps a stop has left, at most. -/
def left : StopPlace → Nat
  | take => 5
  | reap _ _ => 4
  | release _ _ => 3
  | dropHub _ _ => 2
  | record _ _ => 1

theorem left_pos (p : StopPlace) : 0 < p.left := by cases p <;> simp [left]

end StopPlace

/-- How many steps a start has left, at most. -/
def StartPlace.left : StartPlace → Nat
  | enter => 19
  | line _ => 18
  | turn _ => 17
  | look _ => 16
  | retire _ p => 10 + p.left
  | declare _ => 10
  | clear _ => 9
  | ask _ => 8
  | await _ _ => 7
  | makeWay _ => 6
  | launch _ => 5
  | openHub _ _ => 4
  | commit _ _ => 3
  | restore _ _ => 2
  | leave _ => 1

theorem StartPlace.left_pos (p : StartPlace) : 0 < p.left := by
  cases p with
  | retire e p => exact Nat.lt_of_lt_of_le (by decide) (Nat.le_add_right 10 p.left)
  | _ => simp [left]

/-- How many steps a batch has left, at most. -/
def Batch.left (b : Batch) : Nat := (b.current.map fun c => c.2.left).getD 0 + 20 * b.rest.length + 1

/-- How many steps a job has left, at most, if it is a batch. -/
def Job.left : Job → Nat
  | .batch b => b.left
  | _ => 0

namespace Fleet

variable {f g h : Fleet} {id : Nat}

/-! ## Each step is one less -/

theorem StopStep.left_lt {o : StopOrder} {p q : StopPlace} {m : Move} (step : StopStep f o p m g (.at q)) :
    q.left < p.left := by
  cases step <;> simp [StopPlace.left]

theorem StartStep.left_lt {o : StartOrder} {p q : StartPlace} {m : Move} (step : StartStep f id o p m g (.at q)) :
    q.left < p.left := by
  cases step with
  | retiring step => exact Nat.add_lt_add_left step.left_lt 10
  | retired => exact Nat.lt_add_of_pos_right (StopPlace.left_pos _)
  | _ => simp [StartPlace.left, StopPlace.left]

theorem JobStep.left_lt {b : Batch} {m : Move} {j : Job} (step : JobStep f id (.batch b) m g j) : j.left < b.left := by
  cases step with
  | @start _ s p _ _ r hc step =>
    cases r with
    | «at» q =>
      have hq := step.left_lt
      simp only [Job.left, Batch.follow, Batch.left, hc, Option.map_some, Option.getD_some]
      omega
    | done =>
      have hp := p.left_pos
      simp only [Job.left, Batch.follow, Batch.left, hc, Option.map_some, Option.map_none, Option.getD_some,
        Option.getD_none]
      omega
  | begun hc hr =>
    simp only [Job.left, Batch.left, hc, hr, Option.map_some, Option.map_none, Option.getD_some, Option.getD_none,
      StartPlace.left, List.length_cons]
    omega
  | unmarked hc hr =>
    simp only [Job.left, Batch.left, hc, hr, Option.map_some, Option.map_none, Option.getD_some, Option.getD_none,
      StartPlace.left, List.length_cons]
    omega
  | skipped hc hr =>
    simp only [Job.left, Batch.left, hc, hr, Option.map_none, Option.getD_none, List.length_cons]
    omega
  | started => exact Nat.succ_pos _

/-- How many steps the job with a number has left, at most, if it is a batch. -/
def left (f : Fleet) (id : Nat) : Nat := ((f.jobs.get? id).map Job.left).getD 0

theorem left_lt_of_stepJob {b : Batch} {m : Move} (hj : f.jobs.get? id = some (.batch b))
    (hd : f.stepJob id m = some g) : g.left id < f.left id := by
  obtain ⟨j, f₁, j', hj', step, rfl⟩ := jobStep_of_stepJob hd
  cases hj.symm.trans hj'
  have hlt := step.left_lt
  have hleft : f.left id = b.left := by
    rw [left, hj]
    rfl
  rw [hleft, left]
  rcases jobs_putJob f₁ id j' with h | ⟨-, h⟩
  · rw [h, KeyMap.get?_insert_self]
    exact hlt
  · rw [h, KeyMap.get?_erase, if_pos rfl]
    exact Nat.zero_lt_of_lt hlt

/-- A batch goes on to be a batch with less to do, or is done. -/
theorem JobStep.batch_or_done {b : Batch} {m : Move} {j : Job} (step : JobStep f id (.batch b) m g j) :
    (∃ b', j = .batch b') ∨ ∃ a, j = .done a := by
  cases step with
  | started => exact .inr ⟨_, rfl⟩
  | _ => exact .inl ⟨_, rfl⟩

/-! ## There is always a step to make -/

/-- The fleet once some time has passed. -/
def after (f : Fleet) (milliseconds : Nat) : Fleet := { f with now := f.now + milliseconds }

theorem exists_stepStop (f : Fleet) (o : StopOrder) (p : StopPlace) :
    ∃ ms m, ((f.after ms).stepStop o p m).isSome = true := by
  cases p with
  | reap t deadline =>
    have hlate : deadline ≤ (f.after deadline).now := Nat.le_add_left _ _
    refine ⟨deadline, .timeout, ?_⟩
    simp only [stepStop, if_pos hlate, Option.isSome_some]
  | _ => exact ⟨0, .proceed, rfl⟩

/-- A start is stuck only where others stand before it in line. -/
theorem exists_stepStart (f : Fleet) (id : Nat) (o : StartOrder) {p : StartPlace}
    (hturn : ∀ e, p = .turn e → (f.line o.key).head? = some id) :
    ∃ ms m, ((f.after ms).stepStart id o p m).isSome = true := by
  cases p with
  | enter =>
    refine ⟨0, .proceed, ?_⟩
    simp only [stepStart]
    split <;> rfl
  | turn e =>
    have hfirst : ((f.after 0).line o.key).head? = some id := hturn e rfl
    refine ⟨0, .proceed, ?_⟩
    simp only [stepStart, if_pos hfirst, Option.isSome_some]
  | look e =>
    refine ⟨0, .proceed, ?_⟩
    simp only [stepStart]
    cases (f.after 0).alreadyRunning? o <;> rfl
  | retire e p =>
    obtain ⟨ms, m, h⟩ := f.exists_stepStop ⟨o.key, false, false⟩ p
    refine ⟨ms, m, ?_⟩
    simp only [stepStart, Option.isSome_map]
    exact h
  | ask c =>
    refine ⟨0, .proceed, ?_⟩
    simp only [stepStart]
    cases (f.after 0).gate.tryAcquire <;> rfl
  | await c deadline =>
    have hlate : deadline ≤ (f.after deadline).now := Nat.le_add_left _ _
    refine ⟨deadline, .timeout, ?_⟩
    simp only [stepStart, if_pos hlate, Option.isSome_some]
  | makeWay c =>
    refine ⟨0, .proceed, ?_⟩
    simp only [stepStart]
    rcases (f.after 0).makeWay c.command with ⟨g, _ | reason⟩ <;> rfl
  | launch c =>
    refine ⟨0, .proceed, ?_⟩
    simp only [stepStart]
    rcases (f.after 0).launch o c.command with ⟨g, fault | n⟩ <;> rfl
  | commit c n =>
    refine ⟨0, .proceed, ?_⟩
    simp only [stepStart]
    split <;> rfl
  | _ => exact ⟨0, .proceed, rfl⟩

theorem exists_stepBatch (f : Fleet) (id : Nat) {b : Batch}
    (hturn : ∀ s e, b.current = some (s, .turn e) → (f.line (b.order s).key).head? = some id) :
    ∃ ms m, ((f.after ms).stepBatch id b m).isSome = true := by
  cases hc : b.current with
  | some c =>
    obtain ⟨s, p⟩ := c
    obtain ⟨ms, m, h⟩ := f.exists_stepStart id (b.order s) (p := p) fun e hp => hturn s e (hp ▸ hc)
    refine ⟨ms, m, ?_⟩
    simp only [stepBatch, hc, Option.isSome_map]
    exact h
  | none =>
    refine ⟨0, .proceed, ?_⟩
    simp only [stepBatch, hc]
    split
    · rfl
    · split
      · rfl
      · rfl
      · split <;> rfl

/-- Where nobody else has a start under way, whoever is in line is the first. -/
theorem Turns.first_of_alone (ht : f.Turns) (halone : ∀ i, i ≠ id → f.start? i = none) {o : StartOrder} {e : Nat}
    (hs : f.start? id = some (o, .turn e)) : (f.line o.key).head? = some id := by
  have hin : id ∈ f.line o.key := (ht.mem o.key id).mpr (by simp [stands, hs, StartPlace.queued])
  have hall : ∀ i ∈ f.line o.key, i = id := fun i hi => by
    by_contra hne
    have hstands := (ht.mem o.key i).mp hi
    rw [stands, halone i hne] at hstands
    cases hstands
  cases hl : f.line o.key with
  | nil => rw [hl] at hin; cases hin
  | cons i rest =>
    rw [hl] at hall
    rw [hall i List.mem_cons_self]
    rfl

/-- A batch that nobody else hinders can make its next step, now or once time has passed. -/
theorem Reachable.exists_stepJob {b : Batch} (hr : f.Reachable) (halone : ∀ i, i ≠ id → f.start? i = none)
    (hj : f.jobs.get? id = some (.batch b)) :
    ∃ ms m h k, f.perform? (.event (.pass ms)) = some h ∧ h.perform? (.event (.job id m)) = some k := by
  obtain ⟨ms, m, hstep⟩ := f.exists_stepBatch id (b := b) fun s e hc => by
    have hs : f.start? id = some (b.order s, .turn e) := by rw [start?_of_get? hj, Job.start?_batch hc]
    exact hr.turns.first_of_alone halone hs
  obtain ⟨r, hr⟩ := Option.isSome_iff_exists.mp hstep
  refine ⟨ms, m, f.after ms, r.1.putJob id r.2, rfl, ?_⟩
  have hj' : (f.after ms).jobs.get? id = some (.batch b) := hj
  simp only [perform?, step?, stepJob, hj', hr, Option.map_some]

end Fleet

end EncoderFleet
