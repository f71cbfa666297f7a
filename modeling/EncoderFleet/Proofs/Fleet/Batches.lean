import EncoderFleet.Proofs.Fleet.Balance
import EncoderFleet.Proofs.Fleet.Confinement
import EncoderFleet.Proofs.Fleet.FailedStarts
import EncoderFleet.Proofs.Fleet.Progress
import Mathlib.Data.List.Pairwise

/-!
# Batches of configured sources

A request to start all configured sources handles those that are switched on, one after another. `InTurn` says what a
caller would see who did so by hand: an automatic batch passes over a source that a user stopped, and any other source
is started by a request of its own (`Starts`) in the fleet that those before it have left.

While a batch is left alone, it does the same. Beside the fleet in which the batch starts a source there is one in which
only that start was asked for, and the two go on alike (`Twin.aside`, `Twin.follow`). As soon as the start is over, its
answer is what the batch reports, and what the start leaves is what the batch goes on with (`BatchStage.step`). What this
comes to is `batch_isolates_sources`.
-/

namespace EncoderFleet

/-- A batch of configured sources. -/
def Batch.configured (flags : OutputFlags) (restart manual : Bool) (current : Option (Source × StartPlace))
    (rest : List Source) (reports : List StartReport) : Batch where
  flags := flags
  restart := restart
  force := false
  rule := if manual then .clear else .respect
  current := current
  rest := rest
  reports := reports

namespace Fleet

/-- An automatic batch passes over a source that a user stopped. -/
def Skips (f : Fleet) (manual : Bool) (s : Source) : Prop := manual = false ∧ f.isManualStop s.id = true

/-- What a batch does before it starts a source: where a user asked for it, the mark that a user stopped the source is
taken off. -/
def readied (f : Fleet) (manual : Bool) (s : Source) : Fleet := if manual then f.setManualStop s.id false else f

/-- A start request is taken in by the first fleet, is left alone, and leaves the second one once its answer is taken.
The number of its job is free again. -/
def Starts (f : Fleet) (o : StartOrder) (r : StartResult) (g : Fleet) : Prop :=
  ∃ h k, Secluded f.nextJob (f.submit (.start o)).2 h ∧
    h.collect f.nextJob = some (.reports [⟨o.source.id, .ended r⟩], k) ∧ g = { k with nextJob := f.nextJob }

/-- Sources are handled one after another, from the first fleet to the last, and there is a report on each. Between two
of them others go on. Handling a source spares all other sources; at the gate it changes only how many permits are
free. -/
inductive InTurn (f : Fleet) (manual : Bool) (order : Source → StartOrder) :
    List Source → List StartReport → Fleet → Prop
  | begun : InTurn f manual order [] [] f
  | aside {ss : List Source} {rs : List StartReport} {g h : Fleet} {d : Deed} (hg : InTurn f manual order ss rs g)
      (ha : g.leavesAlone f.nextJob d = true) (hn : ∀ i m, d ≠ .event (.job i m)) (hd : g.perform? d = some h) :
      InTurn f manual order ss rs h
  | skipped {ss : List Source} {rs : List StartReport} {g : Fleet} {s : Source} (hg : InTurn f manual order ss rs g)
      (hs : g.Skips manual s) : InTurn f manual order (ss ++ [s]) (rs ++ [⟨s.id, .skipped⟩]) g
  | started {ss : List Source} {rs : List StartReport} {g h : Fleet} {s : Source} {r : StartResult}
      (hg : InTurn f manual order ss rs g) (hs : ¬g.Skips manual s) (hstart : (g.readied manual s).Starts (order s) r h)
      (hspared : ∀ key, key ≠ Text.fold s.id → g.Spares h key)
      (hgate : h.gate = { g.gate with available := h.gate.available }) :
      InTurn f manual order (ss ++ [s]) (rs ++ [⟨s.id, .ended r⟩]) h

variable {f g h e k : Fleet} {d : Deed} {id : Nat} {restart manual : Bool} {key : String}

/-! ## Sources handled in turn -/

theorem fold_ne_of_not_hasId {s t : Source} (h : s.hasId t.id = false) : Text.fold s.id ≠ Text.fold t.id := by
  intro hst
  rw [Source.hasId, Text.same_iff.mpr hst] at h
  cases h

theorem Spares.skips {s : Source} (hs : f.Spares g (Text.fold s.id)) : g.Skips manual s ↔ f.Skips manual s := by
  rw [Skips, Skips, isManualStop, isManualStop, hs.state]

/-- There is one report on each source, in order, and those are passed over that a user had stopped before the first was
handled. All sources are spared but those that are started. -/
theorem InTurn.tally {order : Source → StartOrder} {ss : List Source} {rs : List StartReport}
    (h : f.InTurn manual order ss rs g) (hd : Sources.Distinct ss) :
    List.Forall₂ (fun s r => r.source = s.id ∧ (r.verdict = .skipped ↔ f.Skips manual s)) ss rs ∧
      ∀ key, (∀ s ∈ ss, ¬f.Skips manual s → Text.fold s.id ≠ key) → f.Spares g key := by
  -- A source that is handled now was spared by all before it, for it is none of them.
  have unhandled : ∀ {ss : List Source} {s : Source} {g : Fleet}, Sources.Distinct (ss ++ [s]) →
      (∀ key, (∀ t ∈ ss, ¬f.Skips manual t → Text.fold t.id ≠ key) → f.Spares g key) →
      f.Spares g (Text.fold s.id) := by
    intro ss s g hd hspared
    have hnew := List.any_eq_false.mp (Sources.distinct_append_singleton.mp hd).2
    exact hspared _ fun t ht _ => fold_ne_of_not_hasId (Bool.eq_false_iff.mpr (hnew t ht))
  induction h with
  | begun => exact ⟨.nil, fun key _ => .refl f key⟩
  | aside _ ha hn hstep ih =>
    obtain ⟨hreports, hspared⟩ := ih hd
    exact ⟨hreports, fun key hk => (hspared key hk).trans (spares_aside hstep ha hn key)⟩
  | @skipped ss rs g s _ hs ih =>
    obtain ⟨hreports, hspared⟩ := ih (Sources.distinct_append_singleton.mp hd).1
    have hskips := (unhandled hd hspared).skips.mp hs
    refine ⟨List.rel_append hreports (.cons ⟨rfl, iff_of_true rfl hskips⟩ .nil), fun key hk => ?_⟩
    exact hspared key fun t ht => hk t (List.mem_append_left _ ht)
  | @started ss rs g h s r _ hs _ hstarted _ ih =>
    obtain ⟨hreports, hspared⟩ := ih (Sources.distinct_append_singleton.mp hd).1
    have hskips : ¬f.Skips manual s := fun h => hs ((unhandled hd hspared).skips.mpr h)
    refine ⟨List.rel_append hreports (.cons ⟨rfl, iff_of_false nofun hskips⟩ .nil), fun key hk => ?_⟩
    have hne : key ≠ Text.fold s.id := (hk s (List.mem_append_right _ (List.mem_singleton_self s)) hskips).symm
    exact (hspared key fun t ht => hk t (List.mem_append_left _ ht)).trans (hstarted key hne)

/-! ## A job that is alone -/

/-- All other jobs are done. -/
def Solo (f : Fleet) (id : Nat) : Prop := ∀ i, i ≠ id → ∀ j, f.jobs.get? i = some j → j.isDone = true

theorem Secluded.solo (hs : Secluded id f g) (hf : f.Solo id) : g.Solo id := by
  induction hs with
  | refl => exact hf
  | tail _ hd ih =>
    obtain ⟨d, ha, hd⟩ := hd
    intro i hi j hj
    rcases (performed hd).job_cases hj with hj | ⟨j', m, g', rfl, -⟩ | ⟨r, rfl, -⟩
    · exact ih i hi j hj
    · simp [leavesAlone, hi] at ha
    · cases ha

theorem AtRest.solo_submit (hrest : f.AtRest) (r : Request) : (f.submit r).2.Solo f.nextJob := fun i hi j hj => by
  rw [(submit_jobs f r).1, KeyMap.get?_insert_of_ne _ _ hi] at hj
  exact hrest i j hj

theorem Solo.start? (hf : f.Solo id) {i : Nat} (hi : i ≠ id) : f.start? i = none := by
  rw [Fleet.start?]
  cases hj : f.jobs.get? i with
  | none => rfl
  | some j =>
    have hdone := hf i hi j hj
    cases j with
    | done => rfl
    | _ => cases hdone

theorem Solo.waits (hf : f.Solo id) {j : Job} (hj : f.jobs.get? id = some j) (hw : j.waits = false) (i : Nat) :
    f.waits i = false := by
  by_cases hi : i = id
  · rw [hi, waits_of_get? hj, hw]
  · rw [Fleet.waits]
    cases hj : f.jobs.get? i with
    | none => rfl
    | some j =>
      have hdone := hf i hi j hj
      cases j with
      | done => rfl
      | _ => cases hdone

/-- While nobody waits at the gate, all that there is to know about it is how many permits are free. -/
theorem Reachable.gate_of_calm (hr : f.Reachable) (hw : ∀ i, f.waits i = false) :
    f.gate = { capacity := max f.settings.captureCapacity 1, available := f.gate.available } := by
  -- Whoever has a ticket waits.
  have hnone : f.gate.tickets = [] := by
    refine List.eq_nil_iff_forall_not_mem.mpr fun t ht => ?_
    have hwaits := hr.tickets.waits ht
    rw [hw] at hwaits
    cases hwaits
  obtain ⟨hwaiting, hgranted⟩ := List.append_eq_nil_iff.mp hnone
  have hcapacity := hr.balanced.1
  generalize f.gate = γ at hwaiting hgranted hcapacity ⊢
  obtain ⟨capacity, available, waiting, granted⟩ := γ
  cases hwaiting
  cases hgranted
  cases hcapacity
  rfl

/-- A request that was taken in by the first fleet, at rest, and is left alone has led to the second one. -/
structure Undisturbed (f g : Fleet) : Prop where
  reachable : g.Reachable
  onward : f.Onward g
  solo : g.Solo f.nextJob

theorem Secluded.undisturbed {r : Request} (hr : f.Reachable) (hrest : f.AtRest)
    (hs : Secluded f.nextJob (f.submit r).2 g) : f.Undisturbed g where
  reachable := (hr.perform (show f.perform? (.submit r) = some _ from rfl)).later (Secluded.later hs)
  onward := by
    have hd : f.perform? (.submit r) = some (f.submit r).2 := rfl
    exact (hr.onward hd).trans (Secluded.onward (hr.perform hd) hs)
  solo := Secluded.solo hs (hrest.solo_submit r)

/-- What a gate is like at which nobody waits. -/
def Calm (f g : Fleet) : Prop :=
  g.gate = { capacity := max f.settings.captureCapacity 1, available := g.gate.available }

theorem Undisturbed.calm (hg : f.Undisturbed g) {j : Job} (hj : g.jobs.get? f.nextJob = some j) (hw : j.waits = false) :
    f.Calm g := by
  have hgate := hg.reachable.gate_of_calm (hg.solo.waits hj hw)
  rw [hg.onward.settings] at hgate
  exact hgate

/-- As long as a job has no start under way, it is not interrupted in a launch. -/
theorem leavesAlone_job (hs : f.start? id = none) (m : Move) : f.leavesAlone id (.event (.job id m)) = true := by
  simp [leavesAlone, interrupts, hs]

/-! ## A start beside the batch -/

/-- In `g` a start stands at a place. In `k`, which is beside `g`, it is all that was asked for, and that in `e`. -/
structure Twin (e g k : Fleet) (id : Nat) (manual : Bool) (o : StartOrder) (p : StartPlace) : Prop where
  next : e.nextJob = id
  run : Secluded id ((e.readied manual o.source).submit (.start o)).2 k
  beside : Beside id (some (.batch { o.batch with current := some (o.source, p), rest := [] })) (id + 1) g k
  spared {key : String} (hk : key ≠ o.key) : e.Spares g key
  names : o.Names p

theorem nextJob_readied (e : Fleet) (manual : Bool) (s : Source) : (e.readied manual s).nextJob = e.nextJob := by
  cases manual <;> rfl

/-- What happens aside happens beside the batch as well. -/
theorem Twin.aside {o : StartOrder} {p : StartPlace} (ht : Twin e g k id manual o p) (ha : g.leavesAlone id d = true)
    (hn : ∀ i m, d ≠ .event (.job i m)) (hcollect : d ≠ .collect id) (hforget : d ≠ .forget id)
    (hd : g.perform? d = some h) : ∃ k', Twin e h k' id manual o p := by
  obtain ⟨k', hak, hk, hb⟩ := ht.beside.aside ha hn hcollect hforget hd
  refine ⟨k', ht.next, ht.run.tail ⟨d, hak, hk⟩, hb, fun {key} hne => ?_, ht.names⟩
  exact (ht.spared hne).trans (spares_aside hd ha hn key)

theorem Beside.interrupts {j? : Option Job} {next : Nat} (hb : Beside id j? next f g)
    (hs : g.start? id = f.start? id) : g.interrupts id = f.interrupts id := by
  unfold Fleet.interrupts
  rw [hs, hb.same]
  rfl

/-- The job of a start request begins. -/
theorem stepJob_begun {o : StartOrder} (hj : f.jobs.get? id = some (.batch o.batch)) : f.stepJob id .proceed =
    some (f.putJob id (.batch { o.batch with current := some (o.source, .enter), rest := [] })) := by
  simp only [stepJob, hj]
  rfl

/-- The job of a start request is over. -/
theorem stepJob_started {b : Batch} (hj : f.jobs.get? id = some (.batch b)) (hc : b.current = none) (hr : b.rest = []) :
    f.stepJob id .proceed = some (f.putJob id (.done (.reports b.reports))) := by
  simp only [stepJob, hj, stepBatch, hc, hr, Option.map_some]

theorem Beside.spares {j? : Option Job} {next : Nat} (hb : Beside id j? next f g) (key : String) : g.Spares f key := by
  rw [hb.same]
  exact ⟨rfl, rfl, rfl⟩

theorem spares_readied (f : Fleet) (manual : Bool) {s : Source} {key : String} (hk : key ≠ Text.fold s.id) :
    f.Spares (f.readied manual s) key := by
  cases manual with
  | true => exact spares_setManualStop f false hk
  | false => exact .refl f key

theorem spares_putJob (f : Fleet) (id : Nat) (j : Job) (key : String) : f.Spares (f.putJob id j) key :=
  spares_of_kept (framed_putJob ..) (sameStreams_putJob ..) key

/-- Where a batch begins to start a source, a request for that start would begin as well. -/
theorem Beside.begin (hb : Beside id none id g e) (o : StartOrder) (b : Batch) :
    ∃ k, Twin e ((g.readied manual o.source).putJob id (.batch b)) k id manual o .enter := by
  -- The request gets the number of the batch, for the batch is the one job that is missing in `e`.
  have hnext : e.nextJob = id := congrArg Fleet.nextJob hb.same
  have hnext' := (nextJob_readied e manual o.source).trans hnext
  have hjob : ((e.readied manual o.source).submit (.start o)).2.jobs.get? id = some (.batch o.batch) := by
    rw [(submit_jobs _ _).1, hnext', KeyMap.get?_insert_self]
    rfl
  have hidle : ((e.readied manual o.source).submit (.start o)).2.start? id = none := by
    rw [start?_of_get? hjob]
    rfl
  have hjobs : (e.readied manual o.source).jobs = e.jobs := by cases manual <;> rfl
  have hjobs' : (g.readied manual o.source).jobs = g.jobs := by cases manual <;> rfl
  refine ⟨_, hnext, .single ⟨_, leavesAlone_job hidle .proceed, stepJob_begun hjob⟩, ⟨?_, ?_, fun {i} hi => ?_⟩,
    fun {key} hk => ?_, nofun⟩
  · obtain ⟨J, he⟩ : ∃ J, e = g.amid J id g.orphaned g.sources := ⟨_, hb.same⟩
    subst he
    cases manual <;> rfl
  · exact KeyMap.get?_insert_self ..
  · show (((e.readied manual o.source).submit (.start o)).2.jobs.insert id _).get? i =
      ((g.readied manual o.source).jobs.insert id _).get? i
    rw [KeyMap.get?_insert_of_ne _ _ hi, KeyMap.get?_insert_of_ne _ _ hi, (submit_jobs _ _).1, hnext',
      KeyMap.get?_insert_of_ne _ _ hi, hjobs, hjobs', hb.others hi]
  · exact ((hb.spares key).trans (spares_readied g manual hk)).trans (spares_putJob ..)

/-- The batch and the start beside it make the same step. -/
theorem Twin.follow {o : StartOrder} {p : StartPlace} {b : Batch} {m : Move} (ht : Twin e g k id manual o p)
    (hj : g.jobs.get? id = some (.batch b)) (hc : b.current = some (o.source, p)) (ho : b.order o.source = o)
    (hi : g.interrupts id = false) (hd : g.stepJob id m = some h) :
    ∃ h₁ r k', StartStep g id o p m h₁ r ∧ h = h₁.putJob id (.batch (b.follow o.source r)) ∧
      Secluded id ((e.readied manual o.source).submit (.start o)).2 k' ∧
      Beside id (some (.batch (Batch.follow { o.batch with current := some (o.source, p), rest := [] } o.source r)))
        (id + 1) h k' ∧
      ∀ key, key ≠ o.key → e.Spares h key := by
  -- The same start is under way in both, so its launch is not interrupted in either.
  have hstart : k.start? id = g.start? id := by
    rw [start?_of_get? ht.beside.own, start?_of_get? hj, Job.start?_batch hc, ho]
    rfl
  have ha : k.leavesAlone id (.event (.job id m)) = true := by
    rw [leavesAlone, ht.beside.interrupts hstart, hi, beq_self_eq_true]
    rfl
  obtain ⟨h₁, r, k', step, rfl, hk, hb⟩ := ht.beside.start hj hc rfl ho.symm hd
  rw [ho] at step
  refine ⟨h₁, r, k', step, rfl, ht.run.tail ⟨_, ha, hk⟩, hb, fun key hne => ?_⟩
  exact ((ht.spared hne).trans (step.spares ht.names hne)).trans (spares_putJob ..)

/-- Once the start is over, its answer is taken. -/
theorem exists_starts {o : StartOrder} {r : StartResult} (hn : f.nextJob = id)
    (hs : Secluded id (f.submit (.start o)).2 k)
    (hb : Beside id (some (.batch { o.batch with rest := [], reports := [⟨o.source.id, .ended r⟩] })) (id + 1) g k)
    (hid : id ∉ g.orphaned) : ∃ e', f.Starts o r e' ∧ Beside id none id g e' := by
  subst hn
  have hidle : k.start? f.nextJob = none := by
    rw [start?_of_get? hb.own]
    rfl
  have horphaned : f.nextJob ∉ k.orphaned := by
    rw [hb.same]
    exact hid
  have hstep := stepJob_started hb.own rfl rfl
  rw [putJob_of_not_orphaned horphaned] at hstep
  have hdone := hs.tail ⟨_, leavesAlone_job hidle .proceed, hstep⟩
  obtain ⟨J, hJ⟩ : ∃ J, J = k.jobs.insert f.nextJob (.done (.reports [⟨o.source.id, .ended r⟩])) := ⟨_, rfl⟩
  have hcollect : Fleet.collect { k with jobs := J } f.nextJob =
      some (.reports [⟨o.source.id, .ended r⟩], { k with jobs := J.erase f.nextJob }) := by
    rw [collect, answer?, hJ, KeyMap.get?_insert_self]
    rfl
  refine ⟨_, ⟨_, _, hJ ▸ hdone, hcollect, rfl⟩, ?_, ?_, fun {i} hi => ?_⟩
  · rw [hb.same]
    rfl
  · exact (KeyMap.get?_erase ..).trans (if_pos rfl)
  · refine (KeyMap.get?_erase ..).trans ((if_neg hi).trans ?_)
    rw [hJ, KeyMap.get?_insert_of_ne _ _ hi, hb.others hi]

/-! ## A batch that is left alone -/

/-- What a batch of configured sources asks of one of them. -/
def orderOf (f : Fleet) (restart : Bool) (s : Source) : StartOrder where
  source := s
  flags := f.flags
  restart := restart

/-- Where the batch stands in `g` that was asked for in `f`: the sources that are behind it were handled in turn, and
this has left a fleet beside `g`, or one in which the next start has led to a fleet beside `g`. -/
inductive BatchStage (f : Fleet) (restart manual : Bool) (g : Fleet) : Job → Prop
  | between {past rest : List Source} {rs : List StartReport} {e : Fleet} (hall : f.sources.enabled = past ++ rest)
      (hpast : f.InTurn manual (f.orderOf restart) past rs e) (hb : Beside f.nextJob none f.nextJob g e) :
      BatchStage f restart manual g (.batch (.configured f.flags restart manual none rest rs))
  | underway {past rest : List Source} {s : Source} {p : StartPlace} {rs : List StartReport} {e k : Fleet}
      (hall : f.sources.enabled = past ++ s :: rest) (hpast : f.InTurn manual (f.orderOf restart) past rs e)
      (hs : ¬e.Skips manual s) (hcalm : f.Calm e) (ht : Twin e g k f.nextJob manual (f.orderOf restart s) p) :
      BatchStage f restart manual g (.batch (.configured f.flags restart manual (some (s, p)) rest rs))
  | done {rs : List StartReport} {e : Fleet} (hpast : f.InTurn manual (f.orderOf restart) f.sources.enabled rs e)
      (hb : Beside f.nextJob none f.nextJob g e) : BatchStage f restart manual g (.done (.reports rs))

theorem BatchStage.aside {j : Job} (hj : f.BatchStage restart manual g j) (ha : g.leavesAlone f.nextJob d = true)
    (hn : ∀ i m, d ≠ .event (.job i m)) (hcollect : d ≠ .collect f.nextJob) (hforget : d ≠ .forget f.nextJob)
    (hd : g.perform? d = some h) : f.BatchStage restart manual h j := by
  cases hj with
  | between hall hpast hb =>
    obtain ⟨e', hae, he, hb⟩ := hb.aside ha hn hcollect hforget hd
    exact .between hall (hpast.aside hae hn he) hb
  | underway hall hpast hs hcalm ht =>
    obtain ⟨k', ht⟩ := ht.aside ha hn hcollect hforget hd
    exact .underway hall hpast hs hcalm ht
  | done hpast hb =>
    obtain ⟨e', hae, he, hb⟩ := hb.aside ha hn hcollect hforget hd
    exact .done (hpast.aside hae hn he) hb

/-- What a batch does between two sources. -/
theorem stepBatch_configured {flags : OutputFlags} {rest : List Source} {rs : List StartReport} {m : Move} {j : Job}
    (hs : f.stepBatch id (.configured flags restart manual none rest rs) m = some (g, j)) :
    (rest = [] ∧ g = f ∧ j = .done (.reports rs)) ∨ ∃ s rest', rest = s :: rest' ∧
      (f.Skips manual s ∧ g = f ∧ j = .batch (.configured flags restart manual none rest' (rs ++ [⟨s.id, .skipped⟩])) ∨
        ¬f.Skips manual s ∧ g = f.readied manual s ∧
          j = .batch (.configured flags restart manual (some (s, .enter)) rest' rs)) := by
  cases m with
  | proceed =>
    cases rest with
    | nil =>
      cases hs
      exact .inl ⟨rfl, rfl, rfl⟩
    | cons s rest =>
      refine .inr ⟨s, rest, rfl, ?_⟩
      cases manual with
      | true =>
        cases hs
        exact .inr ⟨fun h => Bool.noConfusion h.1, rfl, rfl⟩
      | false =>
        have hrespect : (if f.isManualStop s.id then
            some (f, .batch (.configured flags restart false none rest (rs ++ [⟨s.id, .skipped⟩])))
            else some (f, .batch (.configured flags restart false (some (s, .enter)) rest rs))) = some (g, j) := hs
        split at hrespect
        · next hm =>
          cases hrespect
          exact .inl ⟨⟨rfl, hm⟩, rfl, rfl⟩
        · next hm =>
          cases hrespect
          exact .inr ⟨fun h => hm h.2, rfl, rfl⟩
  | cancel | timeout => cases hs

/-- The batch may be put where it wants, beside the other fleet. -/
theorem Beside.putJob {j? : Option Job} {next : Nat} (hb : Beside id j? next f g) (hid : id ∉ f.orphaned) (j : Job) :
    Beside id j? next (f.putJob id j) g := by
  rw [putJob_of_not_orphaned hid]
  refine ⟨hb.same, hb.own, fun {i} hi => (hb.others hi).trans ?_⟩
  exact (KeyMap.get?_insert_of_ne _ _ hi).symm

theorem Beside.skips {j? : Option Job} {next : Nat} {s : Source} (hb : Beside id j? next f g) :
    g.Skips manual s ↔ f.Skips manual s := by
  rw [hb.same]
  rfl

theorem Beside.gate {j? : Option Job} {next : Nat} (hb : Beside id j? next f g) : g.gate = f.gate := by
  rw [hb.same]
  rfl

theorem get?_putJob_of_not_orphaned (hid : id ∉ f.orphaned) (j : Job) : (f.putJob id j).jobs.get? id = some j := by
  rw [putJob_of_not_orphaned hid]
  exact KeyMap.get?_insert_self ..

/-- A step of the batch leads from one stage to the next. -/
theorem BatchStage.step {j : Job} {m : Move} (hj : f.BatchStage restart manual g j) (hg : f.Undisturbed g)
    (hh : f.Undisturbed h) (hgj : g.jobs.get? f.nextJob = some j) (hi : g.interrupts f.nextJob = false)
    (hid : f.nextJob ∉ g.orphaned) (hid' : f.nextJob ∉ h.orphaned) (hd : g.stepJob f.nextJob m = some h) :
    ∃ j', h.jobs.get? f.nextJob = some j' ∧ f.BatchStage restart manual h j' := by
  cases hj with
  | @between past rest rs e hall hpast hb =>
    simp only [stepJob, hgj] at hd
    obtain ⟨⟨h₁, j'⟩, hs, rfl⟩ := Option.map_eq_some_iff.mp hd
    have horphaned : f.nextJob ∉ h₁.orphaned := by
      rw [(unchanged_of_stepBatch hs).1]
      exact hid
    refine ⟨j', get?_putJob_of_not_orphaned horphaned j', ?_⟩
    rcases stepBatch_configured hs with ⟨rfl, rfl, rfl⟩ | ⟨s, rest, rfl, ⟨hskips, rfl, rfl⟩ | ⟨hskips, rfl, rfl⟩⟩
    · -- All sources are handled.
      rw [List.append_nil] at hall
      exact .done (hall ▸ hpast) (hb.putJob hid _)
    · -- The next source is passed over.
      have hpast' := hpast.skipped (hb.skips.mpr hskips)
      exact .between (hall.trans (List.append_cons past s rest)) hpast' (hb.putJob hid _)
    · -- The next start begins, here and beside.
      obtain ⟨k, ht⟩ := hb.begin (f.orderOf restart s) (.configured f.flags restart manual (some (s, .enter)) rest rs)
      have hcalm : f.Calm e := by
        rw [Calm, hb.gate]
        exact hg.calm hgj rfl
      exact .underway hall hpast (fun h => hskips (hb.skips.mp h)) hcalm ht
  | @underway past rest s p rs e k hall hpast hs hcalm ht =>
    obtain ⟨h₁, r, k', step, rfl, hrun, hb, hspared⟩ := ht.follow hgj rfl rfl hi hd
    have hput := get?_putJob_batch h₁ f.nextJob (.follow (.configured f.flags restart manual (some (s, p)) rest rs) s r)
    refine ⟨_, hput, ?_⟩
    cases r with
    | «at» q =>
      have hnames := step.names (hg.reachable.named _) ht.names
      exact .underway hall hpast hs hcalm ⟨ht.next, hrun, hb, fun hne => hspared _ hne, hnames⟩
    | done result =>
      obtain ⟨e', hstarts, hb⟩ := exists_starts ((nextJob_readied ..).trans ht.next) hrun hb hid'
      have hcalm' : f.Calm e' := by
        rw [Calm, hb.gate]
        exact hh.calm hput rfl
      have hgate : e'.gate = { e.gate with available := e'.gate.available } := by
        rw [hcalm]
        exact hcalm'
      have hpast' := hpast.started hs hstarts (fun key hne => (hspared key hne).trans (hb.spares key).symm) hgate
      exact .between (hall.trans (List.append_cons past s rest)) hpast' hb
  | done =>
    simp only [stepJob, hgj] at hd
    cases hd

/-- Nothing that happens aside makes a caller lose interest in the job, unless it is just that. -/
theorem mem_orphaned_aside (ha : f.leavesAlone id d = true) (hn : ∀ i m, d ≠ .event (.job i m))
    (hforget : d ≠ .forget id) (hd : f.perform? d = some g) : id ∈ g.orphaned ↔ id ∈ f.orphaned := by
  by_cases hi : d.isApart = true
  · rw [(unchanged_of_isApart hi hd).2.1]
  · cases d with
    | event e =>
      cases e with
      | job i m => exact absurd rfl (hn i m)
      | _ => exact absurd rfl hi
    | submit | subscribe => cases ha
    | collect i =>
      obtain ⟨r, hr, rfl⟩ := Option.map_eq_some_iff.mp hd
      obtain ⟨a, -, rfl⟩ := Option.map_eq_some_iff.mp hr
      exact Iff.rfl
    | forget i =>
      have hne : id ≠ i := fun hii => hforget (hii ▸ rfl)
      cases hd
      unfold forget
      split
      · exact Iff.rfl
      · exact List.mem_erase_of_ne hne
      · exact List.mem_cons.trans (or_iff_right hne)
    | _ => exact absurd rfl hi

theorem stepJob_batch {b : Batch} {m : Move} (hj : f.jobs.get? id = some (.batch b)) (hd : f.stepJob id m = some g) :
    ∃ f₁ j', g = f₁.putJob id j' ∧ f₁.orphaned = f.orphaned ∧ JobStep f id (.batch b) m f₁ j' := by
  simp only [stepJob, hj] at hd
  obtain ⟨⟨f₁, j'⟩, hs, rfl⟩ := Option.map_eq_some_iff.mp hd
  exact ⟨f₁, j', rfl, (unchanged_of_stepBatch hs).1, jobStep_of_stepBatch hs⟩

/-- Where the batch stands, unless nobody waits for its answer any more. -/
def Awaited (f : Fleet) (restart manual : Bool) (g : Fleet) (j : Job) : Prop :=
  f.nextJob ∈ g.orphaned ∧ (∃ b, j = .batch b) ∨ f.nextJob ∉ g.orphaned ∧ f.BatchStage restart manual g j

theorem Awaited.batch_or_done {j : Job} (hj : f.Awaited restart manual g j) :
    (∃ b, j = .batch b) ∨ ∃ a, j = .done a := by
  rcases hj with ⟨-, hb⟩ | ⟨-, hj⟩
  · exact .inl hb
  · cases hj with
    | done => exact .inr ⟨_, rfl⟩
    | _ => exact .inl ⟨_, rfl⟩

theorem Awaited.aside {j : Job} (hj : f.Awaited restart manual g j) (hg : g.jobs.get? f.nextJob = some j)
    (ha : g.leavesAlone f.nextJob d = true) (hn : ∀ i m, d ≠ .event (.job i m)) (hd : g.perform? d = some h)
    (hh : h.jobs.get? f.nextJob = some j) : f.Awaited restart manual h j := by
  -- The job is still there, so nobody has taken its answer.
  have hcollect : d ≠ .collect f.nextJob := by
    rintro rfl
    obtain ⟨r, hr, rfl⟩ := Option.map_eq_some_iff.mp hd
    obtain ⟨a, -, rfl⟩ := Option.map_eq_some_iff.mp hr
    rw [KeyMap.get?_erase, if_pos rfl] at hh
    cases hh
  by_cases hforget : d = .forget f.nextJob
  · subst hforget
    cases hd
    rcases hj.batch_or_done with ⟨b, rfl⟩ | ⟨a, rfl⟩
    · refine .inl ⟨?_, b, rfl⟩
      rw [forget, hg]
      exact List.mem_cons_self
    · rw [forget, hg] at hh
      have herased := (KeyMap.get?_erase ..).symm.trans hh
      rw [if_pos rfl] at herased
      cases herased
  · have horphaned := mem_orphaned_aside ha hn hforget hd
    rcases hj with ⟨hid, hb⟩ | ⟨hid, hj⟩
    · exact .inl ⟨horphaned.mpr hid, hb⟩
    · exact .inr ⟨fun h => hid (horphaned.mp h), hj.aside ha hn hcollect hforget hd⟩

theorem Awaited.step {j j' : Job} {m : Move} (hj : f.Awaited restart manual g j) (hg : f.Undisturbed g)
    (hh : f.Undisturbed h) (hgj : g.jobs.get? f.nextJob = some j) (hi : g.interrupts f.nextJob = false)
    (hd : g.stepJob f.nextJob m = some h) (hhj : h.jobs.get? f.nextJob = some j') :
    f.Awaited restart manual h j' := by
  rcases hj.batch_or_done with ⟨b, rfl⟩ | ⟨a, rfl⟩
  · obtain ⟨h₁, j₁, rfl, horphaned, step⟩ := stepJob_batch hgj hd
    rcases hj with ⟨hid, -⟩ | ⟨hid, hj⟩
    · rw [← horphaned] at hid
      rcases step.batch_or_done with ⟨b', rfl⟩ | ⟨a, rfl⟩
      · rw [get?_putJob_batch] at hhj
        cases hhj
        exact .inl ⟨hid, b', rfl⟩
      · -- The answer that nobody takes is dropped.
        simp only [putJob, if_pos hid] at hhj
        have herased := (KeyMap.get?_erase ..).symm.trans hhj
        rw [if_pos rfl] at herased
        cases herased
    · have hid' : f.nextJob ∉ (h₁.putJob f.nextJob j₁).orphaned := by
        rw [← horphaned] at hid
        rw [putJob_of_not_orphaned hid]
        exact hid
      obtain ⟨j'', hj'', hstage⟩ := hj.step hg hh hgj hi hid hid' hd
      cases hj''.symm.trans hhj
      exact .inr ⟨hid', hstage⟩
  · simp only [stepJob, hgj] at hd
    cases hd

theorem get?_submit_batch (f : Fleet) (restart manual : Bool) :
    (f.submit (.startConfigured none restart manual)).2.jobs.get? f.nextJob =
      some (.batch (.configured f.flags restart manual none f.sources.enabled [])) :=
  KeyMap.get?_insert_self ..

theorem Awaited.start (hr : f.Reachable) : f.Awaited restart manual (f.submit (.startConfigured none restart manual)).2
    (.batch (.configured f.flags restart manual none f.sources.enabled [])) := by
  by_cases hid : f.nextJob ∈ f.orphaned
  · exact .inl ⟨hid, _, rfl⟩
  · refine .inr ⟨hid, .between (List.nil_append _).symm .begun ⟨rfl, hr.numbered.get?_nextJob, fun {i} hi => ?_⟩⟩
    rw [(submit_jobs ..).1, KeyMap.get?_insert_of_ne _ _ hi]

/-- A batch that is asked for while no other job is under way, and is left alone, goes from stage to stage. -/
theorem Secluded.awaited (hr : f.Reachable) (hrest : f.AtRest)
    (hs : Secluded f.nextJob (f.submit (.startConfigured none restart manual)).2 g) {j : Job}
    (hj : g.jobs.get? f.nextJob = some j) : f.Awaited restart manual g j := by
  induction hs generalizing j with
  | refl =>
    cases (get?_submit_batch f restart manual).symm.trans hj
    exact .start hr
  | @tail g h hs hstep ih =>
    have hg := Secluded.undisturbed hr hrest hs
    have hh := Secluded.undisturbed hr hrest (hs.tail hstep)
    obtain ⟨d, ha, hd⟩ := hstep
    by_cases hn : ∀ i m, d ≠ .event (.job i m)
    · have hj' := job_aside hd ha hn hj
      exact (ih hj').aside hj' ha hn hd hj
    · push Not at hn
      obtain ⟨i, m, rfl⟩ := hn
      simp only [leavesAlone, Bool.and_eq_true, beq_iff_eq, Bool.not_eq_true'] at ha
      obtain ⟨rfl, hi⟩ := ha
      obtain ⟨j₀, h₁, j', hj₀, -⟩ := jobStep_of_stepJob (show g.stepJob f.nextJob m = some h from hd)
      exact (ih hj₀).step hg hh hj₀ hi hd hj

/-! ## What it comes to -/

/-- A step of a batch may open a hub; it touches none that there is. -/
theorem hubs_stepJob {b : Batch} {m : Move} (hj : f.jobs.get? id = some (.batch b)) (hd : f.stepJob id m = some g) :
    f.hubs.all <+: g.hubs.all := by
  obtain ⟨f₁, j', rfl, -, step⟩ := stepJob_batch hj hd
  rw [(sameStreams_putJob ..).hubs]
  cases step with
  | start _ step => exact step.hubs
  | _ => exact List.prefix_rfl

/-- Of two configured sources the ids differ by more than case. -/
theorem fold_ne_of_distinct {ss : List Source} (hd : Sources.Distinct ss) {s t : Source} (hs : s ∈ ss) (ht : t ∈ ss)
    (hne : s ≠ t) : Text.fold s.id ≠ Text.fold t.id := by
  have : Std.Symm fun s t : Source => s.hasId t.id = false := ⟨fun s t h => (Text.same_comm t.id s.id).trans h⟩
  exact fold_ne_of_not_hasId (List.Pairwise.forall hd hs ht hne)

/-- Let no other job be under way, and let a request to start all configured sources be left alone: no other request
comes in, nobody borrows a permit, and no encoder ends unasked.

It comes to an end: as long as it is not answered it can make its next step, now or once time has passed, and each step
leaves it fewer. Each step leaves all hubs alone that there are.

The answer has one report on each source that is switched on, in order. Those are skipped that a user had stopped,
unless the request is made for a user. Sources that are switched off or skipped are spared: what is known about them and
their hub are as before, and no encoder was launched for them. All others get the report, and leave the fleet, that a
request to start just them gets and leaves, in the fleet that those before them have left; each spares all other sources
and changes nothing about the gate but how many permits are free (`InTurn`). -/
theorem batch_isolates_sources (hr : f.Reachable) (hrest : f.AtRest)
    (hs : Secluded f.nextJob (f.submit (.startConfigured none restart manual)).2 g) :
    (∀ j, g.jobs.get? f.nextJob = some j → (∃ a, j = .done a) ∨
      ∃ ms m h k, g.perform? (.event (.pass ms)) = some h ∧ h.perform? (.event (.job f.nextJob m)) = some k) ∧
    (∀ m h, g.perform? (.event (.job f.nextJob m)) = some h →
      h.left f.nextJob < g.left f.nextJob ∧ g.hubs.all <+: h.hubs.all) ∧
    ∀ a, g.answer? f.nextJob = some a → ∃ rs e, a = .reports rs ∧
      List.Forall₂ (fun s r => r.source = s.id ∧ (r.verdict = .skipped ↔ manual = false ∧ f.isManualStop s.id = true))
        f.sources.enabled rs ∧
      (∀ s ∈ f.sources.toList, s.enabled = false ∨ manual = false ∧ f.isManualStop s.id = true →
        f.Spares g (Text.fold s.id)) ∧
      f.InTurn manual (f.orderOf restart) f.sources.enabled rs e ∧ Beside f.nextJob none f.nextJob g e := by
  have hg := Secluded.undisturbed hr hrest hs
  refine ⟨fun j hj => ?_, fun m h hstep => ?_, fun a ha => ?_⟩
  · rcases (Secluded.awaited hr hrest hs hj).batch_or_done with ⟨b, rfl⟩ | hdone
    · exact .inr (hg.reachable.exists_stepJob (fun i hi => hg.solo.start? hi) hj)
    · exact .inl hdone
  · obtain ⟨j, h₁, j', hj, -⟩ := jobStep_of_stepJob (show g.stepJob f.nextJob m = some h from hstep)
    rcases (Secluded.awaited hr hrest hs hj).batch_or_done with ⟨b, rfl⟩ | ⟨a, rfl⟩
    · exact ⟨left_lt_of_stepJob hj hstep, hubs_stepJob hj hstep⟩
    · simp only [perform?, step?, stepJob, hj] at hstep
      cases hstep
  · have hdistinct := hr.distinct
    rcases Secluded.awaited hr hrest hs (get?_of_answer ha) with ⟨-, b, hb⟩ | ⟨-, hstage⟩
    · cases hb
    · cases hstage with
      | @done rs e hpast hb =>
        obtain ⟨hreports, hspared⟩ := hpast.tally (hdistinct.sublist List.filter_sublist)
        refine ⟨rs, e, rfl, hreports, fun s hs hout => ?_, hpast, hb⟩
        refine (hspared _ fun t ht hstarted => ?_).trans (hb.spares _)
        obtain ⟨ht, henabled⟩ := List.mem_filter.mp ht
        refine fold_ne_of_distinct hdistinct ht hs ?_
        rintro rfl
        rcases hout with hoff | hskipped
        · rw [henabled] at hoff
          cases hoff
        · exact hstarted hskipped

/-- Four cameras, of which one is switched off. -/
def cameras : List Source :=
  [.new "Front" .url "http://front", .new "back" .url "http://back",
    { Source.new "attic" .url "http://attic" with enabled := false }, .new "cellar" .url "http://cellar"]

/-- The cameras are configured, and a user has stopped one of them. -/
def household : List Deed :=
  [.submit (.change (.replace cameras))] ++ goesOn 0 3 ++ [.setFlags { flv := true }, .mark "BACK" true]

/-- What a run of the plain fleet shows, with a batch left alone behind it, is shown by a fleet at rest that can be
reached. -/
theorem exists_of_batch (restart manual : Bool) {p : Fleet → Fleet → Bool} (ds alone : List Deed)
    (h : (plain.performAll? ds).any (fun f => (f.jobs.entries.all fun e => e.2.isDone) &&
      ((f.submit (.startConfigured none restart manual)).2.performAlone? f.nextJob alone).any (p f)) = true) :
    ∃ f g : Fleet, f.Reachable ∧ f.AtRest ∧
      Secluded f.nextJob (f.submit (.startConfigured none restart manual)).2 g ∧ p f g = true := by
  obtain ⟨f, hf, h⟩ := exists_of_run ds h
  obtain ⟨hdone, h⟩ := Bool.and_eq_true_iff.mp h
  obtain ⟨g, hg, hp⟩ := (Option.any_eq_true _ _).mp h
  exact ⟨f, g, hf, atRest_of_all hdone, secluded_of_performAlone hg, hp⟩

/-- There is one permit. The first camera takes it, so that those after it that are started get none in time. A camera
that was stopped is spared by a batch that goes by the marks; a batch that a user asks for takes the marks off and
starts the cameras. The camera that is switched off is spared by both. -/
theorem household_batches :
    (∃ (f g e : Fleet) (rs : List StartReport) (t : Tracked),
      f.Reachable ∧ f.AtRest ∧ Secluded f.nextJob (f.submit (.startConfigured none false false)).2 g ∧
      g.answer? f.nextJob = some (.reports rs) ∧
      rs = [⟨"Front", .ended (.ok (.of "Front" true t.pid t.command))⟩, ⟨"back", .skipped⟩,
        ⟨"cellar", .ended (.error (.captureBusy "cellar"))⟩] ∧
      f.Spares g "back" ∧ f.Spares g "attic" ∧ f.InTurn false (f.orderOf false) f.sources.enabled rs e) ∧
    ∃ (f g e : Fleet) (rs : List StartReport) (t : Tracked),
      f.Reachable ∧ f.AtRest ∧ Secluded f.nextJob (f.submit (.startConfigured none false true)).2 g ∧
      f.isManualStop "Front" = true ∧ f.isManualStop "back" = true ∧
      g.answer? f.nextJob = some (.reports rs) ∧
      rs = [⟨"Front", .ended (.ok (.of "Front" true t.pid t.command))⟩,
        ⟨"back", .ended (.error (.captureBusy "back"))⟩, ⟨"cellar", .ended (.error (.captureBusy "cellar"))⟩] ∧
      g.isManualStop "Front" = false ∧ g.isManualStop "back" = false ∧
      f.Spares g "attic" ∧ f.InTurn true (f.orderOf false) f.sources.enabled rs e := by
  constructor
  · obtain ⟨f, g, hf, hrest, hs, h⟩ := exists_of_batch false false
      (p := fun f g : Fleet => decide (f.sources.toList = cameras) && f.isManualStop "back" &&
        (g.tracked? "front").any fun t : Tracked =>
          decide (g.answer? f.nextJob =
            some (.reports [⟨"Front", .ended (.ok (.of "Front" true t.pid t.command))⟩, ⟨"back", .skipped⟩,
              ⟨"cellar", .ended (.error (.captureBusy "cellar"))⟩])))
      household (goesOn 1 22 ++ [.event (.pass 1000000), .event (.job 1 .timeout)] ++ goesOn 1 3) (by decide +kernel)
    simp only [Bool.and_eq_true, decide_eq_true_eq] at h
    obtain ⟨⟨hsources, hmark⟩, h⟩ := h
    obtain ⟨t, -, ha⟩ := (Option.any_eq_true _ _).mp h
    have ha := of_decide_eq_true ha
    obtain ⟨-, -, hanswer⟩ := batch_isolates_sources hf hrest hs
    obtain ⟨rs, e, hrs, -, hspared, hturn, -⟩ := hanswer _ ha
    cases hrs
    have hback := hspared (.new "back" .url "http://back") (by rw [hsources]; decide) (.inr ⟨rfl, hmark⟩)
    have hattic := hspared { Source.new "attic" .url "http://attic" with enabled := false } (by rw [hsources]; decide)
      (.inl rfl)
    exact ⟨f, g, e, _, t, hf, hrest, hs, ha, rfl, hback, hattic, hturn⟩
  · obtain ⟨f, g, hf, hrest, hs, h⟩ := exists_of_batch false true
      (p := fun f g : Fleet => decide (f.sources.toList = cameras) && f.isManualStop "Front" &&
        f.isManualStop "back" && !g.isManualStop "Front" && !g.isManualStop "back" &&
        (g.tracked? "front").any fun t : Tracked =>
          decide (g.answer? f.nextJob =
            some (.reports [⟨"Front", .ended (.ok (.of "Front" true t.pid t.command))⟩,
              ⟨"back", .ended (.error (.captureBusy "back"))⟩, ⟨"cellar", .ended (.error (.captureBusy "cellar"))⟩])))
      (household ++ [.mark "front" true])
      (goesOn 1 21 ++ [.event (.pass 1000000), .event (.job 1 .timeout)] ++ goesOn 1 10 ++
        [.event (.pass 1000000), .event (.job 1 .timeout)] ++ goesOn 1 3) (by decide +kernel)
    simp only [Bool.and_eq_true, Bool.not_eq_true', decide_eq_true_eq] at h
    obtain ⟨⟨⟨⟨⟨hsources, hfront⟩, hback⟩, hfront'⟩, hback'⟩, h⟩ := h
    obtain ⟨t, -, ha⟩ := (Option.any_eq_true _ _).mp h
    have ha := of_decide_eq_true ha
    obtain ⟨-, -, hanswer⟩ := batch_isolates_sources hf hrest hs
    obtain ⟨rs, e, hrs, -, hspared, hturn, -⟩ := hanswer _ ha
    cases hrs
    have hattic := hspared { Source.new "attic" .url "http://attic" with enabled := false } (by rw [hsources]; decide)
      (.inl rfl)
    exact ⟨f, g, e, _, t, hf, hrest, hs, hfront, hback, ha, rfl, hfront', hback', hattic, hturn⟩

end Fleet

end EncoderFleet
