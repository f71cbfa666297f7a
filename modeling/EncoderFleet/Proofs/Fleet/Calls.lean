import EncoderFleet.Fleet.Schedule
import EncoderFleet.Proofs.Fleet.Changes

/-!
# Calls that change the configuration

A caller who changes the configuration of a fleet in which nothing else is under way is answered, and between its call
and the answer there are the steps of the change and nothing else (`call_change`).
-/

namespace EncoderFleet

/-- How many steps a change has left. -/
def ChangePlace.left : ChangePlace → Nat
  | .change _ => 3
  | .look _ _ => 2
  | .save _ _ => 1

namespace Fleet

variable {f g : Fleet} {id : Nat}

/-- Nothing is under way, and nothing was ever launched. -/
structure Idle (f : Fleet) : Prop where
  jobs : f.jobs.keys = []
  encoders : f.encoders = []
  orphaned : f.orphaned = []

/-- One job is all that there is. -/
structure Alone (f : Fleet) (id : Nat) (j : Job) : Prop where
  jobs : f.jobs.keys = [id]
  job : f.jobs.get? id = some j
  encoders : f.encoders = []
  orphaned : f.orphaned = []

theorem Idle.alone (h : f.Idle) (c : Change) : (f.submit (.change c)).2.Alone f.nextJob (.change (.change c)) := by
  refine ⟨?_, KeyMap.get?_insert_self _ _ _, h.encoders, h.orphaned⟩
  rw [(submit_jobs f _).1, KeyMap.keys_insert, h.jobs]
  rfl

theorem Alone.actors {j : Job} (h : f.Alone id j) : f.actors = [.job id] := by
  rw [Fleet.actors, h.jobs, h.encoders]
  rfl

/-- A change goes on by one step, and that is all that it does. -/
theorem exists_changeStep (f : Fleet) (p : ChangePlace) : ∃ g j, f.stepChange p .proceed = some (g, j) := by
  cases p with
  | change c =>
    rw [stepChange]
    split
    · exact ⟨_, _, rfl⟩
    · exact ⟨_, _, rfl⟩
  | look c active => exact ⟨_, _, rfl⟩
  | save s active => exact ⟨_, _, rfl⟩

/-- A step of a change touches nothing that the fleet works on. -/
theorem ChangeStep.frame {p : ChangePlace} {j : Job} (h : ChangeStep f p g j) :
    g.jobs = f.jobs ∧ g.encoders = f.encoders ∧ g.orphaned = f.orphaned := by
  cases h with
  | changed hc =>
    rcases change_cases hc with ⟨s, -, rfl⟩ | ⟨ss, -, rfl⟩ | ⟨name, catalog, -, -, rfl⟩
    · exact ⟨rfl, rfl, rfl⟩
    · exact ⟨rfl, rfl, rfl⟩
    · exact ⟨rfl, rfl, rfl⟩
  | _ => exact ⟨rfl, rfl, rfl⟩

theorem ChangeStep.left {p p' : ChangePlace} (h : ChangeStep f p g (.change p')) : p'.left + 1 = p.left := by
  cases h <;> rfl

theorem ChangeStep.cases_job {p : ChangePlace} {j : Job} (h : ChangeStep f p g j) :
    (∃ p', j = .change p') ∨ ∃ a, j = .done a := by
  cases h with
  | changed | looked => exact .inl ⟨_, rfl⟩
  | refused | saved => exact .inr ⟨_, rfl⟩

theorem Alone.step {p : ChangePlace} {j : Job} (h : f.Alone id (.change p)) (hs : ChangeStep f p g j) :
    (g.putJob id j).Alone id j := by
  obtain ⟨hjobs, hencoders, horphaned⟩ := hs.frame
  have hnone : id ∉ g.orphaned := by
    rw [horphaned, h.orphaned]
    exact List.not_mem_nil
  rw [putJob_of_not_orphaned hnone]
  refine ⟨?_, KeyMap.get?_insert_self _ _ _, hencoders.trans h.encoders, horphaned.trans h.orphaned⟩
  rw [KeyMap.keys_insert, hjobs, h.jobs]
  simp

/-! ## Waiting for the answer -/

/-- The fleet and its job before and after a step of a change. -/
inductive Works (id : Nat) : Fleet × Job → Fleet × Job → Prop
  | step {f g : Fleet} {p : ChangePlace} {j : Job} (h : ChangeStep f p g j) :
      Works id (f, .change p) (g.putJob id j, j)

theorem Alone.act_change {p : ChangePlace} (h : f.Alone id (.change p)) :
    ∃ g j, ChangeStep f p g j ∧ f.act (.job id) = some (g.putJob id j) := by
  obtain ⟨g, j, hs⟩ := exists_changeStep f p
  refine ⟨g, j, (changeStep_of_stepChange hs).2, ?_⟩
  have hcancel : f.stepChange p .cancel = none := by cases p <;> rfl
  simp only [act, Actor.events, List.findSome?_cons, step?, stepJob, h.job, hcancel, hs, Option.map_none, Option.map_some]

theorem Alone.act_done {a : Answer} (h : f.Alone id (.done a)) : f.act (.job id) = none := by
  simp only [act, Actor.events, List.findSome?_cons, List.findSome?_nil, step?, stepJob, h.job, Option.map_none]

theorem Alone.ready_nil {j : Job} (h : f.Alone id j) :
    f.ready [] = if (f.act (.job id)).isSome then [.job id] else [] := by
  rw [ready, h.actors]
  simp [List.filter_cons]

theorem Alone.ready_of_mem {j : Job} (h : f.Alone id j) {except : List Actor} (he : .job id ∈ except) :
    f.ready except = [] := by
  rw [ready, h.actors]
  simp [he]

theorem Alone.settle_done {a : Answer} (h : f.Alone id (.done a)) (fuel : Nat) :
    settleWithin [.job id] (fuel + 2) [.job id] [] f = f := by
  have hslow : f.isSlow (.job id) = false := by simp only [isSlow, h.job]
  have hready : f.ready [] = [] := by
    rw [h.ready_nil, h.act_done]
    rfl
  rw [settleWithin, hslow]
  simp only [Bool.false_eq_true, if_false, h.act_done]
  rw [settleWithin.eq_def]
  simp only [List.nil_append, h.ready_of_mem (List.mem_singleton_self _), hready]

/-- The job makes all its steps. -/
theorem Alone.settle_change {p : ChangePlace} (h : f.Alone id (.change p)) (fuel : Nat) :
    ∃ g a, Relation.TransGen (Works id) (f, .change p) (g, .done a) ∧ g.Alone id (.done a) ∧
      settleWithin [.job id] (p.left + fuel + 2) [.job id] [] f = g := by
  -- By the number of steps that are left. A step uses up one unit of fuel, for the job is ready again after it.
  induction hn : p.left generalizing f p with
  | zero => cases p <;> cases hn
  | succ n ih =>
    obtain ⟨g, j, hs, hact⟩ := h.act_change
    have hg := h.step hs
    have hslow : f.isSlow (.job id) = false := by simp only [isSlow, h.job]
    have hturn : settleWithin [.job id] (n + 1 + fuel + 2) [.job id] [] f =
        settleWithin [.job id] (n + fuel + 2) [.job id] [] (g.putJob id j) := by
      rw [show n + 1 + fuel + 2 = n + fuel + 2 + 1 by omega, settleWithin, hslow]
      simp only [Bool.false_eq_true, if_false, hact, List.append_nil, List.singleton_append]
      rw [hg.ready_of_mem List.mem_cons_self]
    rw [hturn]
    rcases hs.cases_job with ⟨p', rfl⟩ | ⟨a, rfl⟩
    · have hleft := hs.left
      obtain ⟨g', a, hworks, halone, hsettle⟩ := ih hg (by omega)
      exact ⟨g', a, .head (.step hs) hworks, halone, hsettle⟩
    · exact ⟨_, a, .single (.step hs), hg, hg.settle_done _⟩

/-- There is time enough for all steps of a change. -/
theorem Alone.settle_call {c : Change} (h : f.Alone id (.change (.change c))) :
    ∃ g a, Relation.TransGen (Works id) (f, .change (.change c)) (g, .done a) ∧ g.Alone id (.done a) ∧
      f.settle [.job id] = g := by
  -- Six turns are enough, and at least sixteen are granted.
  obtain ⟨fuel, hfuel⟩ : ∃ fuel, 4 * (f.work + f.actors.length) * (f.work + f.actors.length) = 3 + fuel + 2 + 1 := by
    have htwo : 2 ≤ f.work + f.actors.length := by
      rw [h.actors]
      simp only [work, List.length_singleton]
      omega
    have hbound : 4 * 2 * 2 ≤ 4 * (f.work + f.actors.length) * (f.work + f.actors.length) :=
      Nat.mul_le_mul (Nat.mul_le_mul_left 4 htwo) htwo
    obtain ⟨fuel, hfuel⟩ := Nat.exists_eq_add_of_le (Nat.le_trans (by decide : 6 ≤ 4 * 2 * 2) hbound)
    exact ⟨fuel, hfuel.trans (by omega)⟩
  obtain ⟨g, a, hworks, halone, hsettle⟩ := h.settle_change fuel
  refine ⟨g, a, hworks, halone, ?_⟩
  obtain ⟨g', j, -, hact⟩ := h.act_change
  rw [settle, hfuel, ← hsettle, settleWithin.eq_def]
  simp only [List.nil_append, h.ready_of_mem (List.mem_singleton_self _), h.ready_nil, hact, Option.isSome_some, if_true]
  rfl

/-- A call is answered, after the steps of its change and no others. -/
theorem call_change (h : f.Idle) (c : Change) :
    ∃ g a, Relation.TransGen (Works f.nextJob) ((f.submit (.change c)).2, .change (.change c)) (g, .done a) ∧
      f.call (.change c) = (some a, { g with jobs := g.jobs.erase f.nextJob }) ∧
      Idle { g with jobs := g.jobs.erase f.nextJob } := by
  obtain ⟨g, a, hworks, halone, hsettle⟩ := (h.alone c).settle_call
  have hanswer : g.answer? f.nextJob = some a := by
    rw [answer?, halone.job]
  have hfinish : (f.submit (.change c)).2.finish f.nextJob = g := by
    rw [finish, finishWithin, hsettle]
    simp only [hanswer]
  refine ⟨g, a, hworks, ?_, ?_, halone.encoders, halone.orphaned⟩
  · have hid : (f.submit (.change c)).1 = f.nextJob := rfl
    simp only [call, hid, hfinish, collect, hanswer, Option.map_some]
  · rw [KeyMap.keys_erase, halone.jobs]
    simp

end Fleet

end EncoderFleet
