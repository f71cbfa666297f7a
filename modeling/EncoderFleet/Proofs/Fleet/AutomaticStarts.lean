import EncoderFleet.Proofs.Fleet.Overtaking

/-!
# Starts that nobody asked for

A batch that nobody asked for looks at the mark of a source before it starts it (`skipped_of_marked`). It does so in one
step, and the start begins in a later one; in between it is *let through* (`LetThrough`). A stop that a user asks for
overtakes the starts that have begun and keeps those from beginning that are yet to look, but a start that was let
through it neither overtakes nor keeps back.

After the stop a source is `Suspended`: it has the mark, no encoder is tracked for it, and every start that nobody asked
for is behind or was let through before the stop. Each deed that does not let the source in again (`Readmits`) keeps it
so (`Suspended.perform`), and `automatic_starts_respect_marks` says what follows. A start that was let through takes the
mark off: `mark_lost_to_automatic_start`.
-/

namespace EncoderFleet.Fleet

/-- Nobody asked for the starts of a job. -/
def Automatic (f : Fleet) (id : Nat) : Prop := ∃ b, f.jobs.get? id = some (.batch b) ∧ b.rule = .respect

/-- The start with this number in a job that nobody asked for is one of this source. It has passed the look at the mark,
and has not begun. -/
def LetThrough (f : Fleet) (key : String) (id n : Nat) : Prop :=
  ∃ b s, f.jobs.get? id = some (.batch b) ∧ b.rule = .respect ∧ b.reports.length = n ∧ b.current = some (s, .enter) ∧
    Text.fold s.id = key

/-- A deed takes the mark off a source, or it commits a start that someone asked for, or one that was let through in
fleet `x`. -/
def Readmits (x : Fleet) (key : String) (f : Fleet) (d : Deed) (g : Fleet) : Prop :=
  f.Unmarks d key ∨
    ∃ id m n, d = .event (.job id m) ∧ f.ordinal? id = some n ∧ f.Commits g key ∧
      (¬f.Automatic id ∨ x.LetThrough key id n)

/-- A user has stopped a source in fleet `x`, and since then it was not let in again. -/
structure Suspended (x f : Fleet) (key : String) : Prop where
  marked : (f.memo key).marked = true
  untracked : (f.life key).tracked = none
  automatic {id : Nat} {b : Batch} {s : Source} {p : StartPlace} (hj : f.jobs.get? id = some (.batch b))
    (hb : b.rule = .respect) (hc : b.current = some (s, p)) (hk : Text.fold s.id = key) :
    f.Spent key id b.reports.length ∨ x.LetThrough key id b.reports.length

variable {x f g : Fleet} {d : Deed} {key : String}

/-! ## The look at the mark -/

/-- A batch that nobody asked for skips a source that has the mark, and does nothing else. -/
theorem skipped_of_marked {id : Nat} {m : Move} {b : Batch} {s : Source} {rest : List Source}
    (hj : f.jobs.get? id = some (.batch b)) (hb : b.rule = .respect) (hc : b.current = none) (hr : b.rest = s :: rest)
    (hm : f.isMarked (Text.fold s.id) = true) (hd : f.perform? (.event (.job id m)) = some g) :
    g = f.putJob id (.batch { b with rest := rest, reports := b.reports ++ [⟨s.id, .skipped⟩] }) := by
  have hm : f.isManualStop s.id = true := hm
  obtain ⟨flags, restart, force, rule, current, rest', reports⟩ := b
  dsimp only at hb hc hr
  subst hb hc hr
  obtain ⟨⟨g', j⟩, hs, rfl⟩ := Option.map_eq_some_iff.mp (show f.stepJob id m = some g from hd)
  rw [hj] at hs
  cases m with
  | proceed =>
    simp only [stepBatch, hm, if_true] at hs
    cases hs
    rfl
  | cancel => cases hs
  | timeout => cases hs

/-- A batch begins with no start under way. -/
theorem current_jobOf {r : Request} {b : Batch} (h : f.jobOf r = .batch b) : b.current = none := by
  cases r with
  | start => cases h; rfl
  | startAll => cases h; rfl
  | startConfigured id restart manual =>
    unfold jobOf at h
    dsimp only at h
    split at h <;> cases h
    rfl
  | stop id manual => cases id <;> cases h
  | change => cases h
  | acquire => cases h

/-! ## Suspended sources -/

/-- A stop that a user asked for leaves its source suspended. -/
theorem Stops.suspended (hr : f.Reachable) (hd : f.perform? d = some g) (hx : f.Stops d key true) :
    f.Suspended g key := by
  obtain ⟨hmemo, huntracked⟩ := hx.effect hr hd
  have begun : ∀ {id : Nat} {b : Batch} {s : Source} {p : StartPlace}, f.jobs.get? id = some (.batch b) →
      b.current = some (s, p) → Text.fold s.id = key → p ≠ .enter → f.Begun key id b.reports.length := by
    intro id b s p hj hc hk hp
    refine ⟨by rw [ordinal?, hj]; rfl, b.order s, p, ?_, hk, hp⟩
    rw [start?_of_get? hj, Job.start?_batch hc]
  refine ⟨?_, huntracked, @fun id b s p hj hb hc hk => ?_⟩
  · rw [hmemo (hx.known hr)]
    exact Bool.or_true _
  · rcases (performed hd).job_cases hj with hj' | ⟨j, m, g', rfl, hj', step, -⟩ | ⟨r, rfl, -, -⟩
    · by_cases hp : p = .enter
      · exact .inr ⟨b, s, hj', hb, rfl, hp ▸ hc, hk⟩
      · exact .inl (hx.spent hr hd (begun hj' hc hk hp))
    · -- The stop comes in during a launch, and this is the start that launches.
      cases hx with
      | request ht =>
        rw [stop?_of_get? hj'] at ht
        cases step with
        | start hc' _ =>
          rw [Job.stop?_batch hc'] at ht
          obtain ⟨q, -, hq⟩ := Option.map_eq_some_iff.mp ht
          cases hq
        | begun hc' => simp [Job.stop?, hc'] at ht
        | unmarked hc' => simp [Job.stop?, hc'] at ht
        | skipped hc' => simp [Job.stop?, hc'] at ht
      | meanwhile hs hp hm =>
        have hstart := hs
        rw [start?_of_get? hj'] at hstart
        cases step with
        | @start b' s' p' _ _ r hc' _ =>
          rw [Job.start?_batch hc'] at hstart
          cases hstart
          cases r with
          | «at» q =>
            cases hc
            have hbegun := begun hj' hc' hk (by intro he; cases he)
            exact .inl ((Stops.meanwhile hs hp hm).spent hr hd hbegun)
          | done => cases hc
        | begun hc' => simp [Job.start?, hc'] at hstart
        | unmarked hc' => simp [Job.start?, hc'] at hstart
        | skipped hc' => simp [Job.start?, hc'] at hstart
    · cases hx

/-- Who commits an encoder for a suspended source is a start that someone asked for, or one that was let through. -/
theorem Suspended.commits_cases (h : x.Suspended f key) (hr : f.Reachable) (hd : f.perform? d = some g)
    (hc : f.Commits g key) : ∃ id m n, d = .event (.job id m) ∧ f.ordinal? id = some n ∧
      (¬f.Automatic id ∨ x.LetThrough key id n) := by
  obtain ⟨t, ht, hne⟩ := hc
  rcases hr.tracked_cases hd ht with hold | ⟨id, m, o, c, n, rfl, hs, rfl, he, -⟩
  · exact absurd hold hne
  · obtain ⟨b, s, hj, hcur, rfl⟩ := batch_of_start? hs
    refine ⟨id, m, b.reports.length, rfl, by rw [ordinal?, hj]; rfl, ?_⟩
    by_cases hb : b.rule = .respect
    · refine .inr ((h.automatic hj hb hcur rfl).resolve_left fun hspent => ?_)
      have hlt := hspent.behind hj hcur (e := c.epoch) rfl
      omega
    · left
      rintro ⟨b', hj', hb'⟩
      rw [hj] at hj'
      cases hj'
      exact hb hb'

/-- A source stays suspended until it is let in again. -/
theorem Suspended.perform (h : x.Suspended f key) (hr : f.Reachable) (hd : f.perform? d = some g)
    (hn : ¬x.Readmits key f d g) : x.Suspended g key := by
  have huntracked : (g.life key).tracked = none := by
    by_contra hsome
    obtain ⟨t, ht⟩ := Option.ne_none_iff_exists'.mp hsome
    have hc : f.Commits g key := ⟨t, by rw [tracked?_eq]; exact ht, by rw [tracked?_eq, h.untracked]; nofun⟩
    obtain ⟨id, m, n, rfl, hord, hcase⟩ := h.commits_cases hr hd hc
    exact hn (.inr ⟨id, m, n, rfl, hord, hc, hcase⟩)
  refine ⟨?_, huntracked, @fun id b s p hj hb hc hk => ?_⟩
  · exact ((hr.worked hd).keeps_mark hr h.marked h.untracked huntracked).resolve_right fun hu => hn (.inl hu)
  · have keep : ∀ {n : Nat}, f.Spent key id n ∨ x.LetThrough key id n → g.Spent key id n ∨ x.LetThrough key id n :=
      Or.imp_left fun hspent => hspent.perform hr hd
    rcases (performed hd).job_cases hj with hj' | ⟨j, m, g', rfl, hj', step, -⟩ | ⟨r, -, -, hjob⟩
    · exact keep (h.automatic hj' hb hc hk)
    · cases step with
      | @start b' s' p' _ _ r hc' _ =>
        cases r with
        | «at» q =>
          cases hc
          have hauto := h.automatic hj' hb hc' hk
          exact keep hauto
        | done => cases hc
      | @begun b' s' rest hc' hrest _ =>
        -- It would have skipped the source.
        cases hc
        have hm : f.isMarked (Text.fold s.id) = true := by rw [hk, isMarked_eq, h.marked]
        rw [skipped_of_marked hj' hb hc' hrest hm hd, get?_putJob_batch] at hj
        simp [hc'] at hj
      | unmarked _ _ hclear =>
        have hb : _ = ManualRule.respect := hb
        rw [hclear] at hb
        cases hb
      | skipped hc' =>
        rw [show _ = none from hc'] at hc
        cases hc
    · rw [current_jobOf hjob.symm] at hc
      cases hc

/-! ## The law of marks -/

/-- Let a deed contain the critical section of a stop of a source that a user asked for. From then on, as long as the
mark is not taken off, and neither a start that someone asked for commits an encoder nor one that was let through just
before the stop, the source has the mark and no encoder is tracked for it. A start that nobody asked for and that
commits one is one of those that were let through. A batch that nobody asked for, when it comes to the source, skips
it. -/
theorem automatic_starts_respect_marks (h : f.Reachable) (hd : f.perform? d = some g) (hx : f.Stops d key true)
    {a : Fleet} (ha : LaterWithout (f.Readmits key) g a) :
    a.isMarked key = true ∧ a.tracked? key = none ∧
    (∀ id m n b, a.perform? (.event (.job id m)) = some b → a.Automatic id → a.ordinal? id = some n →
      a.Commits b key → f.LetThrough key id n) ∧
    (∀ id m b c s rest, a.jobs.get? id = some (.batch c) → c.rule = .respect → c.current = none →
      c.rest = s :: rest → Text.fold s.id = key → a.perform? (.event (.job id m)) = some b →
      b = a.putJob id (.batch { c with rest := rest, reports := c.reports ++ [⟨s.id, .skipped⟩] })) := by
  have hr : a.Reachable := (h.perform hd).later (LaterWithout.later ha)
  have hs : f.Suspended a key := by
    induction ha with
    | refl => exact hx.suspended h hd
    | tail hb he ih =>
      obtain ⟨e, he, hbad⟩ := he
      have hr := (h.perform hd).later (LaterWithout.later hb)
      exact (ih hr).perform hr he hbad
  have hmarked : a.isMarked key = true := by rw [isMarked_eq, hs.marked]
  refine ⟨hmarked, by rw [tracked?_eq, hs.untracked], fun id m n b hb hauto hn hc => ?_, ?_⟩
  · obtain ⟨id', m', n', he, hn', hcase⟩ := hs.commits_cases hr hb hc
    cases he
    rw [hn] at hn'
    cases hn'
    exact hcase.resolve_left fun hno => hno hauto
  · rintro id m b c s rest hj hrule hcur hrest rfl hb
    exact skipped_of_marked hj hrule hcur hrest hmarked hb

/-- A camera becomes a configured source. -/
def configured : List Deed := [.submit (.change (.upsert camera.source))] ++ goesOn 0 3

/-- A user has stopped a camera, and a start that nobody asked for is taken in after that: it skips the camera. -/
theorem skipped_after_stop : ∃ f g a b : Fleet, ∃ d, f.Reachable ∧ f.perform? d = some g ∧ f.Stops d "cam" true ∧
    LaterWithout (f.Readmits "cam") g a ∧ a.Automatic 3 ∧ a.perform? (.event (.job 3 .proceed)) = some b ∧
    a.isMarked "cam" = true ∧ a.tracked? "cam" = none ∧
    b = a.putJob 3 (.batch ⟨a.flags, false, false, .respect, none, [], [⟨"cam", .skipped⟩]⟩) := by
  obtain ⟨f, hf, h⟩ := exists_of_run
    (p := fun f => decide (f.stop? 2 = some (⟨"cam", true, true⟩, .take)) &&
      (f.perform? (.event (.job 2 .proceed))).any fun g =>
        (g.perform? (.submit (.startConfigured (some "cam") false false))).any fun a =>
          decide (a.jobs.get? 3 = some (.batch ⟨a.flags, false, false, .respect, none, [camera.source], []⟩)) &&
            (a.perform? (.event (.job 3 .proceed))).isSome)
    (configured ++ [.submit (.startConfigured (some "cam") false true)] ++ goesOn 1 14 ++
      [.submit (.stop (some "cam") true)] ++ goesOn 2 1) (by decide +kernel)
  simp only [Bool.and_eq_true, decide_eq_true_eq] at h
  obtain ⟨ht, h⟩ := h
  obtain ⟨g, hd, h⟩ := (Option.any_eq_true _ _).mp h
  obtain ⟨a, ha, h⟩ := (Option.any_eq_true _ _).mp h
  simp only [Bool.and_eq_true, decide_eq_true_eq] at h
  obtain ⟨hj, hsome⟩ := h
  obtain ⟨b, hb⟩ := Option.isSome_iff_exists.mp hsome
  have hlater : LaterWithout (f.Readmits "cam") g a := by
    refine .single ⟨_, ha, ?_⟩
    rintro (hu | ⟨_, _, _, he, -⟩)
    · cases hu
    · cases he
  have hfold : Text.fold camera.source.id = "cam" := by decide +kernel
  obtain ⟨hm, htr, -, hskip⟩ := automatic_starts_respect_marks hf hd (.request ht) hlater
  exact ⟨f, g, a, b, _, hf, hd, .request ht, hlater, ⟨_, hj, rfl⟩, hb, hm, htr,
    hskip 3 _ b _ _ _ hj rfl rfl rfl hfold hb⟩

/-- A start of a camera that nobody asked for has looked at the mark, which was not there. Then a user stops the camera,
and after that only the start goes on: it commits its encoder and takes the mark off. -/
theorem mark_lost_to_automatic_start : ∃ f g a : Fleet, ∃ d, f.Reachable ∧ f.LetThrough "cam" 1 0 ∧
    f.perform? d = some g ∧ f.Stops d "cam" true ∧ g.isMarked "cam" = true ∧ g.Automatic 1 ∧
    g.performAll? (goesOn 1 11) = some a ∧ a.isRunning "cam" = true ∧ a.isMarked "cam" = false := by
  obtain ⟨f, hf, h⟩ := exists_of_run
    (p := fun f => decide (f.stop? 2 = some (⟨"cam", true, true⟩, .take)) &&
      decide (f.jobs.get? 1 =
        some (.batch ⟨f.flags, false, false, .respect, some (camera.source, .enter), [], []⟩)) &&
      (f.perform? (.event (.job 2 .proceed))).any fun g => g.isMarked "cam" &&
        decide (g.jobs.get? 1 =
          some (.batch ⟨f.flags, false, false, .respect, some (camera.source, .enter), [], []⟩)) &&
        (g.performAll? (goesOn 1 11)).any fun a => a.isRunning "cam" && !a.isMarked "cam")
    (configured ++ [.submit (.startConfigured (some "cam") false false)] ++ goesOn 1 1 ++
      [.submit (.stop (some "cam") true)] ++ goesOn 2 1) (by decide +kernel)
  simp only [Bool.and_eq_true, decide_eq_true_eq] at h
  obtain ⟨⟨ht, hj⟩, h⟩ := h
  obtain ⟨g, hd, h⟩ := (Option.any_eq_true _ _).mp h
  simp only [Bool.and_eq_true, decide_eq_true_eq] at h
  obtain ⟨⟨hmarked, hj'⟩, h⟩ := h
  obtain ⟨a, ha, h⟩ := (Option.any_eq_true _ _).mp h
  simp only [Bool.and_eq_true, Bool.not_eq_true'] at h
  have hfold : Text.fold camera.source.id = "cam" := by decide +kernel
  exact ⟨f, g, a, _, hf, ⟨_, _, hj, rfl, rfl, rfl, hfold⟩, hd, .request ht, hmarked, ⟨_, hj', rfl⟩, ha, h.1, h.2⟩

end EncoderFleet.Fleet
