import EncoderFleet.Proofs.Fleet.Service

/-!
# Starting a source that is started already

In a run in which nothing disturbs a source (`Fleet.Steady`), either no start of the source launches an encoder, or one
start does, and the encoder serves the source from then on (`Steady.launches`).

What a start of the source reports is about the encoder that is tracked at the time, which goes on being tracked
(`Told.perform`), and only the start that commits it says that it has started it. `starts_idempotent` puts this together.
-/

namespace EncoderFleet

/-- Whether a start has launched the encoder that its result is about. -/
def StartResult.hasStarted : StartResult → Bool
  | .ok outcome => outcome.started
  | .error _ => false

namespace Fleet

/-- The result with which a start of a source ends in a deed. -/
def resultOf? (f : Fleet) (key : String) : Deed → Option StartResult
  | .event (.job id m) =>
    match f.start? id with
    | some (o, p) =>
      match f.stepStart id o p m with
      | some (_, .done result) => if o.key = key then some result else none
      | _ => none
    | none => none
  | _ => none

/-- A run in which nothing disturbs a source, with the encoders that starts of the source launch and the results with
which they end. -/
inductive Steady (key : String) (f : Fleet) : List Nat → List StartResult → Fleet → Prop
  | begun : Steady key f [] [] f
  | perform {ls : List Nat} {rs : List StartResult} {g h : Fleet} {d : Deed} (hg : Steady key f ls rs g)
      (hd : g.perform? d = some h) (hn : ¬g.Disturbs key d) :
      Steady key f (ls ++ (g.launchOf? key d).toList) (rs ++ (g.resultOf? key d).toList) h

/-- An outcome is about the encoder that a source tracks. -/
def Shows (f : Fleet) (key : String) (out : StartOutcome) : Prop :=
  ∃ t, f.tracked? key = some t ∧ out = .of out.source out.started t.pid t.command

/-- A start of a source is about to end well. -/
def Holds (f : Fleet) (key : String) (out : StartOutcome) : Prop :=
  ∃ id o, f.start? id = some (o, .leave (.ok out)) ∧ o.key = key

variable {f g : Fleet} {d : Deed} {key : String} {n : Nat}

/-! ## Results of a deed -/

theorem resultOf?_eq_some {r : StartResult} (h : f.resultOf? key d = some r) :
    ∃ id m o p g', d = .event (.job id m) ∧ f.start? id = some (o, p) ∧ o.key = key ∧
      StartStep f id o p m g' (.done r) := by
  unfold resultOf? at h
  split at h
  · next id m =>
    split at h
    · next o p hs =>
      split at h
      · next g' r' hd =>
        split at h
        · next hk =>
          cases h
          exact ⟨id, m, o, p, g', rfl, hs, hk, startStep_of_stepStart hd⟩
        · cases h
      · cases h
    · cases h
  · cases h

/-! ## Runs -/

theorem Steady.reachable {ls : List Nat} {rs : List StartResult} (h : Steady key f ls rs g) (hr : f.Reachable) :
    g.Reachable := by
  induction h with
  | begun => exact hr
  | perform _ hd _ ih => exact ih.perform hd

theorem start?_of_not_begun {id : Nat} {o : StartOrder} {p : StartPlace} (hb : ∀ id n, ¬f.Begun key id n)
    (hs : f.start? id = some (o, p)) (hk : o.key = key) : p = .enter := by
  by_contra hp
  obtain ⟨b, s, hj, -, -⟩ := batch_of_start? hs
  exact hb id b.reports.length ⟨by rw [ordinal?, hj]; rfl, o, p, hs, hk, hp⟩

/-- As long as nothing disturbs a source of which no start had begun, no start of it is overtaken. -/
theorem Steady.punctual {ls : List Nat} {rs : List StartResult} (h : Steady key f ls rs g) (hr : f.Reachable)
    (hb : ∀ id n, ¬f.Begun key id n) : g.Punctual key := by
  induction h with
  | begun =>
    intro id o p e hs hk hp
    rw [start?_of_not_begun hb hs hk] at hp
    cases hp
  | perform hg hd hn ih => exact ih.perform (hg.reachable hr) hd hn

/-- As long as nothing disturbs a source of which no start had begun, either no start of it has launched an encoder, or
one start has launched one, which serves the source. -/
theorem Steady.launches {ls : List Nat} {rs : List StartResult} (h : Steady key f ls rs g) (hr : f.Reachable)
    (hb : ∀ id n, ¬f.Begun key id n) :
    (ls = [] ∧ g.NoneLaunched key ∧ ∀ t, g.tracked? key = some t → f.tracked? key = some t) ∨
      ∃ n, ls = [n] ∧ g.Serves key n ∧ ¬g.Ended n := by
  induction h with
  | begun =>
    refine .inl ⟨rfl, fun id o p hs hk => ?_, fun _ ht => ht⟩
    rw [start?_of_not_begun hb hs hk]
    rfl
  | @perform ls rs g h d hg hd hn ih =>
    have hgr := hg.reachable hr
    rcases ih with ⟨rfl, hno, hold⟩ | ⟨n, rfl, hserves, hend⟩
    · cases hl : g.launchOf? key d with
      | none =>
        obtain ⟨hno', hkeep⟩ := hno.perform hgr hd hl
        exact .inl ⟨rfl, hno', fun t ht => hold t (hkeep t ht)⟩
      | some n => exact .inr ⟨n, rfl, hgr.serves_of_launch hd hl⟩
    · obtain ⟨hserves', hend', hl⟩ := hserves.undisturbed hgr (hg.punctual hr hb) hd hn hend
      rw [hl]
      exact .inr ⟨n, rfl, hserves', hend'⟩

/-! ## What starts report -/

/-- A start that is about to end well was so before; or it has found the encoder that the source tracks; or it has
committed its own, and none was tracked before. -/
theorem Holds.cases {out : StartOutcome} (h : g.Holds key out) (hr : f.Reachable) (hd : f.perform? d = some g) :
    f.Holds key out ∨ (f.Shows key out ∧ out.started = false) ∨ (g.Shows key out ∧ f.tracked? key = none) := by
  obtain ⟨id, o, hs, rfl⟩ := h
  rcases (hr.worked hd).start?_cases hs with hold | hq | ⟨m, p, g', -, hs', step, hf⟩
  · exact .inl ⟨id, o, hold, rfl⟩
  · cases hq
  · cases step with
    | @found e s t hst ht =>
      have htracked : f.tracked? o.key = some t := by rw [tracked?, hst]; exact ht
      exact .inr (.inl ⟨⟨t, htracked, rfl⟩, rfl⟩)
    | committed =>
      refine .inr (.inr ⟨⟨_, tracked?_of_track hf, rfl⟩, ?_⟩)
      rw [tracked?_eq]
      exact hr.records.untracked hs' rfl

/-- A start of a source that ends well was about to, and no other start of the source is about to. -/
theorem Reachable.holds_of_result {out : StartOutcome} (hr : f.Reachable) (hd : f.perform? d = some g)
    (h : f.resultOf? key d = some (.ok out)) : f.Holds key out ∧ ∀ out', ¬g.Holds key out' := by
  obtain ⟨id, m, o, p, g', rfl, hs, hk, step⟩ := resultOf?_eq_some h
  cases step with
  | left =>
    obtain ⟨_, r, j, step', -, hg⟩ := startStep_of_stepJob hd hs
    refine ⟨⟨id, o, hs, hk⟩, ?_⟩
    rintro out' ⟨i, o', hs', hk'⟩
    have hacts : ∀ {x : Nat} {y : StartOrder} {res : StartResult}, f.start? x = some (y, .leave res) → y.key = key →
        f.acts key x = true := by
      rintro x y res hx rfl
      exact acts_of_start? hx rfl
    have hnone : g.start? id = none := by
      cases step'
      exact hg
    rcases (hr.worked hd).start?_cases hs' with hold | hq | ⟨_, _, _, he, -⟩
    · obtain rfl := hr.turns.alone (hacts hold hk') (hacts hs hk)
      rw [hnone] at hs'
      cases hs'
    · cases hq
    · cases he
      rw [hnone] at hs'
      cases hs'

/-- All that starts of a source have reported or are about to report is about the encoder that the source tracks, and one
of them at most says that it has started it. -/
structure Told (f : Fleet) (key : String) (rs : List StartResult) : Prop where
  shown {out : StartOutcome} (h : .ok out ∈ rs) : f.Shows key out
  held {out : StartOutcome} (h : f.Holds key out) : f.Shows key out
  once : rs.countP StartResult.hasStarted ≤ 1
  first {out : StartOutcome} (h : f.Holds key out) (hs : out.started = true) : rs.countP StartResult.hasStarted = 0

/-- Where no encoder is tracked, no start has reported one. -/
theorem Told.started_eq_zero {rs : List StartResult} (h : f.Told key rs) (ht : f.tracked? key = none) :
    rs.countP StartResult.hasStarted = 0 := by
  rw [List.countP_eq_zero]
  intro r hr hs
  cases r with
  | ok out =>
    obtain ⟨t, ht', -⟩ := h.shown hr
    rw [ht] at ht'
    cases ht'
  | error e => cases hs

theorem Told.perform {rs : List StartResult} (h : f.Told key rs) (hr : f.Reachable) (hd : f.perform? d = some g)
    (ht : ∀ t, f.tracked? key = some t → g.tracked? key = some t) :
    g.Told key (rs ++ (f.resultOf? key d).toList) := by
  have stays : ∀ {out}, f.Shows key out → g.Shows key out := fun ⟨t, hf, hout⟩ => ⟨t, ht t hf, hout⟩
  refine ⟨fun {out} hout => ?_, fun {out} hout => ?_, ?_, fun {out} hout hstarted => ?_⟩
  · rcases List.mem_append.mp hout with hout | hout
    · exact stays (h.shown hout)
    · have hres := Option.mem_toList.mp hout
      exact stays (h.held (hr.holds_of_result hd hres).1)
  · rcases hout.cases hr hd with hold | ⟨hfound, -⟩ | ⟨hnew, -⟩
    · exact stays (h.held hold)
    · exact stays hfound
    · exact hnew
  · rw [countP_append_toList]
    split
    · next hany =>
      obtain ⟨r, hres, hs⟩ := (Option.any_eq_true _ _).mp hany
      cases r with
      | ok out =>
        have := h.first (hr.holds_of_result hd hres).1 hs
        omega
      | error e => cases hs
    · exact h.once
  · -- A start is about to end well, so none has ended well in this deed.
    have hres : ¬(f.resultOf? key d).any StartResult.hasStarted = true := by
      intro hany
      obtain ⟨r, hres, hs⟩ := (Option.any_eq_true _ _).mp hany
      cases r with
      | ok out' => exact (hr.holds_of_result hd hres).2 out hout
      | error e => cases hs
    rw [countP_append_toList, if_neg hres]
    rcases hout.cases hr hd with hold | ⟨-, hfalse⟩ | ⟨-, hnone⟩
    · exact h.first hold hstarted
    · rw [hstarted] at hfalse
      cases hfalse
    · exact h.started_eq_zero hnone

/-- As long as nothing disturbs a source that tracked no encoder and of which no start had begun, all that its starts
report is about the encoder that it tracks. -/
theorem Steady.told {ls : List Nat} {rs : List StartResult} (h : Steady key f ls rs g) (hr : f.Reachable)
    (hb : ∀ id n, ¬f.Begun key id n) (ht : f.tracked? key = none) : g.Told key rs := by
  induction h with
  | begun =>
    have hno : ∀ {out}, ¬f.Holds key out := by
      rintro out ⟨id, o, hs, hk⟩
      cases start?_of_not_begun hb hs hk
    exact ⟨nofun, fun hout => absurd hout hno, Nat.zero_le _, fun _ _ => rfl⟩
  | @perform ls rs g h d hg hd hn ih =>
    have hgr := hg.reachable hr
    refine ih.perform hgr hd fun t htr => ?_
    rcases hg.launches hr hb with ⟨-, -, hold⟩ | ⟨n, -, hserves, hend⟩
    · rw [hold t htr] at ht
      cases ht
    · obtain rfl := hserves.encoder_eq hgr htr
      exact hgr.tracked_undisturbed hd hn htr hend

/-- A source that tracks an encoder counts as running. -/
theorem Records.running_of_tracked {t : Tracked} (h : f.Records) (ht : f.tracked? key = some t) :
    ∃ s, f.state? key = some s ∧ s.isRunning = true ∧ s.tracked = some t := by
  obtain ⟨s, hs, hst⟩ := Option.bind_eq_some_iff.mp ht
  have hlife := (h key).sound.running
  rw [life_of_state? hs] at hlife
  have hrun : s.lifecycle = .running := hlife.mpr (by simp [SourceState.life, hst])
  exact ⟨s, hs, by simp [SourceState.isRunning, hst, hrun], hst⟩

/-- Take a source of which no start has begun, and a run in which nothing disturbs it: no stop of it is made, no start
that is told to replace its encoder stops it, and no encoder ends that serves it. Whatever else happens and in whatever
order, at most one launch for the source succeeds. If the source was not running, then of its starts that end one at
most says that it has started an encoder, and whatever start ends well reports the pid and the command of the encoder
that runs. -/
theorem starts_idempotent {ls : List Nat} {rs : List StartResult} (hr : f.Reachable) (hb : ∀ id n, ¬f.Begun key id n)
    (h : Steady key f ls rs g) :
    ls.length ≤ 1 ∧ ((∀ s, f.state? key = some s → s.isRunning = false) →
      rs.countP StartResult.hasStarted ≤ 1 ∧
      ∀ out, .ok out ∈ rs → ∃ s t, g.state? key = some s ∧ s.isRunning = true ∧ s.tracked = some t ∧
        out.pid = t.pid ∧ out.mode = t.command.mode ∧ out.command = t.command.display) := by
  refine ⟨?_, fun hrun => ?_⟩
  · rcases h.launches hr hb with ⟨rfl, -⟩ | ⟨n, rfl, -⟩
    · exact Nat.zero_le _
    · exact Nat.le_refl _
  · have hnone : f.tracked? key = none := by
      rw [Option.eq_none_iff_forall_ne_some]
      intro t ht
      obtain ⟨s, hs, hs', -⟩ := hr.records.running_of_tracked ht
      rw [hrun s hs] at hs'
      cases hs'
    have htold := h.told hr hb hnone
    refine ⟨htold.once, fun out hout => ?_⟩
    obtain ⟨t, ht, hout⟩ := htold.shown hout
    obtain ⟨s, hs, hs', hst⟩ := (h.reachable hr).records.running_of_tracked ht
    rw [hout]
    exact ⟨s, t, hs, hs', hst, rfl, rfl, rfl⟩

/-- Whether a deed is a request that comes in, or a step of a job that neither stops anything nor launches an encoder
during whose launch a stop comes in. -/
def isCalm (f : Fleet) : Deed → Bool
  | .submit _ => true
  | .event (.job id _) =>
    (f.stop? id).isNone && (f.start? id).all fun s =>
      match s.2 with
      | .retire _ _ => false
      | .launch c =>
        match f.launcher.plan f.files c.command with
        | .runs b => b.stopMeanwhile.isNone
        | .fails _ => true
      | _ => true
  | _ => false

theorem not_disturbs_of_isCalm (h : f.isCalm d = true) : ¬f.Disturbs key d := by
  intro hd
  cases hd with
  | stopped hstop =>
    cases hstop with
    | request ht => simp [isCalm, ht] at h
    | meanwhile hs hp hm => simp [isCalm, hs, hp, hm] at h
  | replaced hs => simp [isCalm, hs] at h
  | ended => cases h

/-- One calm deed in a run, which goes on with the encoders that starts of a source launch and the results with which
they end. -/
def performCalm? (key : String) (a : List Nat × List StartResult × Fleet) (d : Deed) :
    Option (List Nat × List StartResult × Fleet) :=
  if a.2.2.isCalm d then
    (a.2.2.perform? d).map fun g => (a.1 ++ (a.2.2.launchOf? key d).toList, a.2.1 ++ (a.2.2.resultOf? key d).toList, g)
  else none

theorem Steady.performCalm {ls ls' : List Nat} {rs rs' : List StartResult} {h : Fleet} {ds : List Deed}
    (hg : Steady key f ls rs g) (hds : ds.foldlM (performCalm? key) (ls, rs, g) = some (ls', rs', h)) :
    Steady key f ls' rs' h := by
  induction ds generalizing ls rs g with
  | nil =>
    cases hds
    exact hg
  | cons d ds ih =>
    obtain ⟨a, ha, hds⟩ := Option.bind_eq_some_iff.mp hds
    unfold performCalm? at ha
    split at ha
    · next hcalm =>
      obtain ⟨g', hd, rfl⟩ := Option.map_eq_some_iff.mp ha
      exact ih (hg.perform hd (not_disturbs_of_isCalm hcalm)) hds
    · cases ha

/-- Two starts of a camera, which spell its id in different ways, go on side by side. The first launches an encoder and
says so. The second waits for its turn, finds the encoder and reports it. -/
theorem idempotent_for_two_starts : ∃ f g : Fleet, ∃ ls rs, f.Reachable ∧ (∀ id n, ¬f.Begun "cam" id n) ∧
    (∀ s, f.state? "cam" = some s → s.isRunning = false) ∧ Steady "cam" f ls rs g ∧ ls.length = 1 ∧ rs.length = 2 ∧
    rs.countP StartResult.hasStarted = 1 ∧ ls.length ≤ 1 ∧ rs.countP StartResult.hasStarted ≤ 1 ∧
    ∀ out, .ok out ∈ rs → ∃ s t, g.state? "cam" = some s ∧ s.isRunning = true ∧ s.tracked = some t ∧
      out.pid = t.pid ∧ out.mode = t.command.mode ∧ out.command = t.command.display := by
  let ds : List Deed :=
    [.submit (.start camera), .submit (.start { camera with source := .new "CAM" .url "http://camera" })] ++
      goesOn 0 3 ++ goesOn 1 3 ++ goesOn 0 10 ++ goesOn 1 4
  have hrun : (ds.foldlM (performCalm? "cam") ([], [], plain)).any
      (fun a => decide (a.1.length = 1) && decide (a.2.1.length = 2) &&
        decide (a.2.1.countP StartResult.hasStarted = 1)) = true := by
    decide +kernel
  obtain ⟨⟨ls, rs, g⟩, hg, h⟩ := (Option.any_eq_true _ _).mp hrun
  simp only [Bool.and_eq_true, decide_eq_true_eq] at h
  obtain ⟨⟨hls, hrs⟩, hcount⟩ := h
  have hr : plain.Reachable := .fresh ..
  have hb : ∀ id n, ¬plain.Begun "cam" id n := by
    rintro id n ⟨-, o, p, hs, -⟩
    cases hs
  have hnone : plain.state? "cam" = none := by decide +kernel
  have hidle : ∀ s, plain.state? "cam" = some s → s.isRunning = false := by
    intro s hs
    rw [hnone] at hs
    cases hs
  have hsteady : Steady "cam" plain ls rs g := Steady.begun.performCalm hg
  obtain ⟨h₁, h₂⟩ := starts_idempotent hr hb hsteady
  obtain ⟨h₂, h₃⟩ := h₂ hidle
  exact ⟨plain, g, ls, rs, hr, hb, hidle, hsteady, hls, hrs, hcount, h₁, h₂, h₃⟩

end Fleet

end EncoderFleet
