import EncoderFleet.Proofs.Data.Totals
import EncoderFleet.Proofs.Document.Saving
import EncoderFleet.Proofs.Fleet.Jobs

/-!
# Changes of the configuration that overlap

A change of the configuration is made, looks at what stands then, and keeps that: three steps, between which other
changes go on (`ChangeStep`, `changeStep_of_stepChange`). `Configured` is one deed of fleets in which nothing but changes
are under way.

A job *owes* a section while it has changed it and not kept it yet. As long as nobody owes a section, nothing has changed
it since it was last kept (`Followed`, `Followed.step`). So what the changes leave in the document is what was kept last,
and that is what stands in the end exactly if it was not outdated when it was kept
(`kept_section_is_last_kept`). `later_camera_lost` shows that it may have been.
-/

namespace EncoderFleet

/-! ## Sections -/

/-- The sections of the document that changes keep. -/
inductive SectionKind
  | sources
  | activeProfile
deriving DecidableEq

/-- Which section it is. -/
def Section.kind : Section → SectionKind
  | .sources _ => .sources
  | .activeProfile _ => .activeProfile

/-- The section that a change has to keep. -/
def Change.kind : Change → SectionKind
  | .upsert _ | .replace _ => .sources
  | .activate _ => .activeProfile

namespace Document

/-- One section of the document. -/
def pick (d : Document) : SectionKind → Section
  | .sources => .sources d.sources
  | .activeProfile => .activeProfile d.activeProfile

/-- The document with one section replaced. -/
def put (d : Document) : Section → Document
  | .sources list => { d with sources := list }
  | .activeProfile name => { d with activeProfile := name }

theorem pick_put (d : Document) (s : Section) (k : SectionKind) :
    (d.put s).pick k = if k = s.kind then s else d.pick k := by
  cases s <;> cases k <;> rfl

end Document

/-- The section that a job has changed and not kept yet. -/
def ChangePlace.owed? : ChangePlace → Option SectionKind
  | .change _ => none
  | .look c _ => some c.kind
  | .save s _ => some s.kind

/-- The section that a job has changed and not kept yet. -/
def Job.owed? : Job → Option SectionKind
  | .change p => p.owed?
  | _ => none

/-- The section that a job keeps with its next step. -/
def Job.due? : Job → Option Section
  | .change (.save s _) => some s
  | _ => none

/-- What callers do who change the configuration, and what their jobs do. -/
def Deed.configures : Deed → Bool
  | .submit (.change _) | .event (.job _ _) | .collect _ => true
  | _ => false

namespace Fleet

variable {f g : Fleet}

/-- The section as it stands. -/
def standing (f : Fleet) : SectionKind → Section
  | .sources => .sources f.sources.toList
  | .activeProfile => .activeProfile f.catalog.selection

theorem sectionOf_eq (f : Fleet) (c : Change) : f.sectionOf c = f.standing c.kind := by cases c <;> rfl

@[simp] theorem kind_standing (f : Fleet) (k : SectionKind) : (f.standing k).kind = k := by cases k <;> rfl

/-- The document that is kept. -/
def kept (f : Fleet) : Except Failure Document := f.archive.read f.files

/-- The section as it is kept. -/
def keptSection (f : Fleet) (k : SectionKind) : Except Failure Section := f.kept.map fun d => d.pick k

/-! ## Single deeds -/

/-- Two fleets with the same configuration, standing and kept. -/
structure SameConfiguration (f g : Fleet) : Prop where
  sources : g.sources = f.sources
  catalog : g.catalog = f.catalog
  archive : g.archive = f.archive
  files : g.files = f.files

theorem SameConfiguration.standing (h : f.SameConfiguration g) (k : SectionKind) : g.standing k = f.standing k := by
  cases k <;> simp only [Fleet.standing, h.sources, h.catalog]

theorem SameConfiguration.keptSection (h : f.SameConfiguration g) (k : SectionKind) :
    g.keptSection k = f.keptSection k := by
  simp only [Fleet.keptSection, kept, h.archive, h.files]

theorem sameConfiguration_putJob (f : Fleet) (id : Nat) (j : Job) : f.SameConfiguration (f.putJob id j) := by
  unfold putJob
  split
  · split
    · exact ⟨rfl, rfl, rfl, rfl⟩
    · exact ⟨rfl, rfl, rfl, rfl⟩
  · exact ⟨rfl, rfl, rfl, rfl⟩

/-- One step of a change. -/
inductive ChangeStep (f : Fleet) : ChangePlace → Fleet → Job → Prop
  | changed {c : Change} {g : Fleet} {active : String} (h : f.change c = .ok (g, active)) :
      ChangeStep f (.change c) g (.change (.look c active))
  | refused {c : Change} {e : Failure} (h : f.change c = .error e) : ChangeStep f (.change c) f (.done (.failed e))
  | looked {c : Change} {active : String} : ChangeStep f (.look c active) f (.change (.save (f.standing c.kind) active))
  | saved {s : Section} {active : String} :
      ChangeStep f (.save s active) (f.save s).1 (.done (.changed active (f.save s).2))

theorem changeStep_of_stepChange {p : ChangePlace} {m : Move} {j : Job} (h : f.stepChange p m = some (g, j)) :
    m = .proceed ∧ ChangeStep f p g j := by
  unfold stepChange at h
  split at h
  · next c =>
    split at h
    · next hc =>
      cases h
      exact ⟨rfl, .changed hc⟩
    · next hc =>
      cases h
      exact ⟨rfl, .refused hc⟩
  · next c active =>
    cases h
    rw [sectionOf_eq]
    exact ⟨rfl, .looked⟩
  · cases h
    exact ⟨rfl, .saved⟩
  · cases h

/-- What a change does. -/
theorem change_cases {c : Change} {active : String} (h : f.change c = .ok (g, active)) :
    (∃ s, c = .upsert s ∧ g = { f with sources := (f.sources.upsert s).1 }) ∨
    (∃ ss, c = .replace ss ∧ g = { f with sources := .ofList ss }) ∨
    ∃ name catalog, c = .activate name ∧ f.catalog.activate name = .ok (catalog, active) ∧
      g = { f with catalog := catalog } := by
  cases c with
  | upsert s =>
    cases h
    exact .inl ⟨s, rfl, rfl⟩
  | replace ss =>
    cases h
    exact .inr (.inl ⟨ss, rfl, rfl⟩)
  | activate name =>
    simp only [change] at h
    cases hc : f.catalog.activate name with
    | error e =>
      rw [hc] at h
      cases h
    | ok r =>
      rw [hc] at h
      cases h
      exact .inr (.inr ⟨name, r.1, rfl, hc, rfl⟩)

/-- A change touches one section of what stands, and nothing that is kept. -/
theorem change_frame {c : Change} {active : String} (h : f.change c = .ok (g, active)) :
    g.jobs = f.jobs ∧ (∀ k, g.keptSection k = f.keptSection k) ∧ ∀ k, k ≠ c.kind → g.standing k = f.standing k := by
  rcases change_cases h with ⟨s, rfl, rfl⟩ | ⟨ss, rfl, rfl⟩ | ⟨name, catalog, rfl, -, rfl⟩
  · refine ⟨rfl, fun _ => rfl, fun k hk => ?_⟩
    cases k
    · exact absurd rfl hk
    · rfl
  · refine ⟨rfl, fun _ => rfl, fun k hk => ?_⟩
    cases k
    · exact absurd rfl hk
    · rfl
  · refine ⟨rfl, fun _ => rfl, fun k hk => ?_⟩
    cases k
    · rfl
    · exact absurd rfl hk

/-- A save changes nothing that stands. If it goes well, it replaces one section of what is kept. -/
theorem save_frame (f : Fleet) (s : Section) :
    (f.save s).1.jobs = f.jobs ∧ (∀ k, (f.save s).1.standing k = f.standing k) ∧
      ((f.save s).2.ok = true → ∃ d, f.kept = .ok d ∧ (f.save s).1.kept = .ok (d.put s)) := by
  cases s with
  | sources list =>
    refine ⟨rfl, fun k => ?_, fun hok => Archive.read_update hok⟩
    cases k <;> rfl
  | activeProfile name =>
    refine ⟨rfl, fun k => ?_, fun hok => Archive.read_update hok⟩
    cases k <;> rfl

theorem keptSection_save {s : Section} (hok : (f.save s).2.ok = true) (k : SectionKind) :
    (f.save s).1.keptSection k = if k = s.kind then .ok s else f.keptSection k := by
  obtain ⟨-, -, hsave⟩ := f.save_frame s
  obtain ⟨d, hd, hd'⟩ := hsave hok
  simp only [keptSection, hd, hd', Except.map, d.pick_put s k]
  split <;> rfl

/-! ## Overlapping changes -/

/-- Whatever is under way is a change of the configuration. -/
def OnlyChanges (f : Fleet) : Prop := ∀ id j, f.jobs.get? id = some j → j.isDone = true ∨ ∃ p, j = .change p

/-- One deed while only changes are under way. -/
inductive Configured (f : Fleet) : Deed → Fleet → Prop
  | called {c : Change} : Configured f (.submit (.change c)) (f.submit (.change c)).2
  | answered {id : Nat} {a : Answer} (h : f.jobs.get? id = some (.done a)) :
      Configured f (.collect id) { f with jobs := f.jobs.erase id }
  | stepped {id : Nat} {p : ChangePlace} {g : Fleet} {j : Job} (hj : f.jobs.get? id = some (.change p))
      (h : ChangeStep f p g j) : Configured f (.event (.job id .proceed)) (g.putJob id j)

theorem configured_of_perform {d : Deed} (ho : f.OnlyChanges) (hd : d.configures = true) (h : f.perform? d = some g) :
    Configured f d g := by
  unfold Deed.configures at hd
  split at hd
  · cases h
    exact .called
  · next id m =>
    obtain ⟨⟨g', j'⟩, hs, rfl⟩ := Option.map_eq_some_iff.mp h
    cases hj : f.jobs.get? id with
    | none => simp [hj] at hs
    | some j =>
      rcases ho id j hj with hdone | ⟨p, rfl⟩
      · unfold Job.isDone at hdone
        split at hdone
        · simp [hj] at hs
        · cases hdone
      · simp only [hj] at hs
        obtain ⟨rfl, hstep⟩ := changeStep_of_stepChange hs
        exact .stepped hj hstep
  · next id =>
    obtain ⟨r, hr, rfl⟩ := Option.map_eq_some_iff.mp h
    obtain ⟨a, ha, rfl⟩ := Option.map_eq_some_iff.mp hr
    unfold answer? at ha
    split at ha
    · exact .answered ‹_›
    · cases ha
  · cases hd

theorem OnlyChanges.perform {d : Deed} (ho : f.OnlyChanges) (hd : d.configures = true) (h : f.perform? d = some g) :
    g.OnlyChanges := by
  intro id j' hj'
  rcases (performed h).job_cases hj' with hj | ⟨j, m, g', -, hj, hstep, -⟩ | ⟨r, rfl, -, rfl⟩
  · exact ho id j' hj
  · rcases ho id j hj with hdone | ⟨p, rfl⟩
    · cases hstep <;> cases hdone
    · cases hstep with
      | changing => exact .inr ⟨_, rfl⟩
      | changed => exact .inl rfl
  · unfold Deed.configures at hd
    split at hd
    · next heq =>
      cases heq
      exact .inr ⟨_, rfl⟩
    · next heq => cases heq
    · next heq => cases heq
    · cases hd

/-- The section that a job has changed and not kept yet. -/
def owed? (f : Fleet) (id : Nat) : Option SectionKind := (f.jobs.get? id).bind Job.owed?

/-- Nobody has changed the section and not kept it yet. -/
def Settled (f : Fleet) (k : SectionKind) : Prop := ∀ id, f.owed? id ≠ some k

/-- The section that a deed keeps, if it is the last step of a change. -/
def keeps? (f : Fleet) : Deed → Option Section
  | .event (.job id .proceed) => (f.jobs.get? id).bind Job.due?
  | _ => none

theorem owed?_putJob (f : Fleet) (id i : Nat) (j : Job) :
    (f.putJob id j).owed? i = if i = id then j.owed? else f.owed? i := bind_putJob (fun _ => rfl) f id i j

/-- If nobody owes a section after a step, then nobody did before it, unless the step paid what its job owed. -/
theorem Settled.before {id : Nat} {j : Job} {k : SectionKind} (hs : (g.putJob id j).Settled k)
    (hjobs : g.jobs = f.jobs) (hid : f.owed? id = some k → j.owed? = some k) : f.Settled k := by
  intro i hi
  refine hs i ?_
  rw [owed?_putJob]
  split
  · next heq => exact hid (heq ▸ hi)
  · rw [owed?, hjobs]
    exact hi

/-- What was last seen of a section: how it was kept, and how it stood then. -/
structure Sight where
  kept : Except Failure Section
  standing : Section

/-- The section as it is. -/
def sight (f : Fleet) (k : SectionKind) : Sight := ⟨f.keptSection k, f.standing k⟩

/-- What is seen when a section is kept. -/
def sightOf (e : Fleet × Section) : Sight := ⟨.ok e.2, e.1.standing e.2.kind⟩

/-- Nothing has been kept of the section since it was seen, and nothing has changed it but who still owes it. -/
structure Followed (f : Fleet) (k : SectionKind) (b : Sight) : Prop where
  kept : f.keptSection k = b.kept
  standing (h : f.Settled k) : f.standing k = b.standing

/-- What was last seen of a section after a deed. -/
def Sight.next (b : Sight) (f : Fleet) (k : SectionKind) (d : Deed) : Sight :=
  match f.keeps? d with
  | some s => if s.kind = k then sightOf (f, s) else b
  | none => b

/-- A deed that keeps nothing of the section, and changes it only for a job that then owes it. -/
theorem Followed.frame {k : SectionKind} {b : Sight} (hb : f.Followed k b) (hkept : g.keptSection k = f.keptSection k)
    (hstanding : g.Settled k → f.Settled k ∧ g.standing k = f.standing k) : g.Followed k b where
  kept := hkept.trans hb.kept
  standing hs := by
    obtain ⟨hbefore, hsame⟩ := hstanding hs
    exact hsame.trans (hb.standing hbefore)

theorem Followed.called {k : SectionKind} {b : Sight} (hb : f.Followed k b) (hn : f.Numbered) (c : Change) :
    (f.submit (.change c)).2.Followed k b := by
  have hsame : f.SameConfiguration (f.submit (.change c)).2 := ⟨rfl, rfl, rfl, rfl⟩
  have howed : ∀ id, (f.submit (.change c)).2.owed? id = f.owed? id := hn.bind_submit rfl
  refine hb.frame (hsame.keptSection k) fun hs => ⟨fun id => ?_, hsame.standing k⟩
  rw [← howed id]
  exact hs id

theorem Followed.answered {k : SectionKind} {b : Sight} (hb : f.Followed k b) {id : Nat} {a : Answer}
    (hj : f.jobs.get? id = some (.done a)) : Followed { f with jobs := f.jobs.erase id } k b := by
  have hsame : f.SameConfiguration { f with jobs := f.jobs.erase id } := ⟨rfl, rfl, rfl, rfl⟩
  refine hb.frame (hsame.keptSection k) fun hs => ⟨fun i hi => hs i ?_, hsame.standing k⟩
  rw [owed?, KeyMap.get?_erase]
  split
  · next heq =>
    -- A job that is done owed nothing.
    rw [heq, owed?, hj] at hi
    cases hi
  · exact hi

/-- A job that has changed the section owes it, so nobody looks at what stands before the job has kept it. -/
theorem Followed.changeStep {k : SectionKind} {b : Sight} {id : Nat} {p : ChangePlace} {j : Job} (hb : f.Followed k b)
    (hj : f.jobs.get? id = some (.change p)) (hstep : ChangeStep f p g j)
    (hok : ∀ s, f.keeps? (.event (.job id .proceed)) = some s → (f.save s).2.ok = true) :
    (g.putJob id j).Followed k (b.next f k (.event (.job id .proceed))) := by
  have hsame := sameConfiguration_putJob g id j
  have howed : f.owed? id = p.owed? := by
    rw [owed?, hj]
    rfl
  have hkeeps : f.keeps? (.event (.job id .proceed)) = (Job.change p).due? := by
    rw [keeps?, hj]
    rfl
  rw [Sight.next, hkeeps]
  cases hstep with
  | @changed c _ active hc =>
    obtain ⟨hjobs, hkept, hstanding⟩ := change_frame hc
    refine hb.frame ((hsame.keptSection k).trans (hkept k)) fun hs => ⟨?_, ?_⟩
    · refine hs.before hjobs fun hi => ?_
      rw [howed] at hi
      cases hi
    · have hk : k ≠ c.kind := by
        rintro rfl
        refine hs id ?_
        rw [owed?_putJob, if_pos rfl]
        rfl
      exact (hsame.standing k).trans (hstanding k hk)
  | @refused c e hc =>
    refine hb.frame (hsame.keptSection k) fun hs => ⟨hs.before rfl fun hi => ?_, hsame.standing k⟩
    rw [howed] at hi
    cases hi
  | @looked c active =>
    refine hb.frame (hsame.keptSection k) fun hs => ⟨hs.before rfl fun hi => ?_, hsame.standing k⟩
    exact (congrArg some (kind_standing f c.kind)).trans (howed.symm.trans hi)
  | @saved s active =>
    obtain ⟨hjobs, hstanding, -⟩ := f.save_frame s
    have hkept := keptSection_save (hok s hkeeps) k
    simp only [Job.due?]
    split
    · next heq =>
      subst heq
      rw [if_pos rfl] at hkept
      exact ⟨(hsame.keptSection _).trans hkept, fun _ => (hsame.standing _).trans (hstanding _)⟩
    · next hne =>
      rw [if_neg (Ne.symm hne)] at hkept
      refine hb.frame ((hsame.keptSection k).trans hkept) fun hs => ⟨?_, (hsame.standing k).trans (hstanding k)⟩
      -- What the job has paid is the other section.
      refine hs.before hjobs fun hi => ?_
      rw [howed] at hi
      exact absurd (Option.some.inj hi) hne

theorem Followed.step {d : Deed} {k : SectionKind} {b : Sight} (hb : f.Followed k b) (hn : f.Numbered)
    (h : Configured f d g) (hok : ∀ s, f.keeps? d = some s → (f.save s).2.ok = true) :
    g.Followed k (b.next f k d) := by
  cases h with
  | @called c => exact hb.called hn c
  | answered hj => exact hb.answered hj
  | stepped hj hstep => exact hb.changeStep hj hstep hok

/-! ## Runs of overlapping changes -/

/-- What is kept in a run, in order: the fleet before each save, and the section that is kept. -/
def saves : Fleet → List Deed → List (Fleet × Section)
  | _, [] => []
  | f, d :: ds =>
    match f.perform? d with
    | some g => ((f.keeps? d).map fun s => (f, s)).toList ++ g.saves ds
    | none => []

/-- The last time that a section is kept in a run. -/
def lastSave? (f : Fleet) (ds : List Deed) (k : SectionKind) : Option (Fleet × Section) :=
  (f.saves ds).reverse.find? fun e => e.2.kind = k

/-- What is last seen of a section in a run. -/
def Sight.last (b : Sight) (f : Fleet) (k : SectionKind) (ds : List Deed) : Sight :=
  ((f.lastSave? ds k).map sightOf).getD b

theorem saves_cons {d : Deed} (h : f.perform? d = some g) (ds : List Deed) :
    f.saves (d :: ds) = ((f.keeps? d).map fun s => (f, s)).toList ++ g.saves ds := by
  rw [saves, h]

theorem Sight.last_cons (b : Sight) {d : Deed} (h : f.perform? d = some g) (k : SectionKind) (ds : List Deed) :
    b.last f k (d :: ds) = (b.next f k d).last g k ds := by
  rw [last, last, lastSave?, saves_cons h, List.reverse_append, List.find?_append, Sight.next, ← lastSave?]
  cases hlast : g.lastSave? ds k with
  | some e => rfl
  | none =>
    cases hkeeps : f.keeps? d with
    | none => rfl
    | some s =>
      by_cases hs : s.kind = k
      · simp [hs]
      · simp [hs]

theorem Followed.run {ds : List Deed} {k : SectionKind} {b : Sight} (hb : f.Followed k b) (hn : f.Numbered)
    (ho : f.OnlyChanges) (hcalls : ∀ d ∈ ds, d.configures = true) (hrun : f.performAll? ds = some g)
    (hok : ∀ e ∈ f.saves ds, (e.1.save e.2).2.ok = true) : g.Followed k (b.last f k ds) ∧ g.OnlyChanges := by
  induction ds generalizing f b with
  | nil =>
    cases hrun
    exact ⟨hb, ho⟩
  | cons d ds ih =>
    obtain ⟨a, ha, hrun⟩ := Option.bind_eq_some_iff.mp hrun
    have hd := hcalls d List.mem_cons_self
    rw [saves_cons ha] at hok
    have hstep := hb.step hn (configured_of_perform ho hd ha) fun s hs => by
      refine hok (f, s) (List.mem_append_left _ ?_)
      rw [hs]
      exact List.mem_singleton_self _
    rw [b.last_cons ha]
    exact ih hstep ((performed ha).numbered hn) (ho.perform hd ha) (fun d' hd' => hcalls d' (List.mem_cons_of_mem d hd'))
      hrun fun e he => hok e (List.mem_append_right _ he)

theorem AtRest.onlyChanges (h : f.AtRest) : f.OnlyChanges := fun id j hj => .inl (h id j hj)

/-- At rest nobody owes anything. -/
theorem AtRest.settled (h : f.AtRest) (k : SectionKind) : f.Settled k := by
  intro id hid
  obtain ⟨j, hj, howed⟩ := Option.bind_eq_some_iff.mp hid
  have hdone := h id j hj
  unfold Job.isDone at hdone
  split at hdone
  · cases howed
  · cases hdone

theorem atRest_of_all (h : (f.jobs.entries.all fun e => e.2.isDone) = true) : f.AtRest := fun _ _ hj =>
  List.all_eq_true.mp h _ (KeyMap.mem_entries_iff.mpr hj)

theorem kind_of_lastSave {ds : List Deed} {k : SectionKind} {e : Fleet × Section} (h : f.lastSave? ds k = some e) :
    e.2.kind = k := by
  have hfound := List.find?_some h
  exact of_decide_eq_true hfound

/-- Let callers change the configuration, all steps of their calls in any order, and let every save go well. Once all are
answered, a section that nobody has kept is as it was, both where it stands and where it is kept. One that was kept is
kept as in the last save, and it is kept as it stands exactly if it was not outdated at that save. -/
theorem kept_section_is_last_kept {ds : List Deed} (hf : f.Reachable) (hrest : f.AtRest)
    (hcalls : ∀ d ∈ ds, d.configures = true) (hrun : f.performAll? ds = some g) (hrest' : g.AtRest)
    (hok : ∀ e ∈ f.saves ds, (e.1.save e.2).2.ok = true) (k : SectionKind) :
    (f.lastSave? ds k = none → g.keptSection k = f.keptSection k ∧ g.standing k = f.standing k) ∧
    ∀ a s, f.lastSave? ds k = some (a, s) →
      g.keptSection k = .ok s ∧ (g.keptSection k = .ok (g.standing k) ↔ s = a.standing k) := by
  have hstart : f.Followed k (f.sight k) := ⟨rfl, fun _ => rfl⟩
  obtain ⟨⟨hkept, hstanding⟩, -⟩ := hstart.run hf.numbered hrest.onlyChanges hcalls hrun hok
  have hstanding := hstanding (hrest'.settled k)
  refine ⟨fun hnone => ?_, fun a s hsome => ?_⟩
  · rw [Sight.last, hnone] at hkept hstanding
    exact ⟨hkept, hstanding⟩
  · rw [Sight.last, hsome] at hkept hstanding
    have hkind : s.kind = k := kind_of_lastSave hsome
    have hstanding : g.standing k = a.standing k := by
      rw [hstanding, ← hkind]
      rfl
    refine ⟨hkept, ?_⟩
    rw [hkept, hstanding]
    exact ⟨Except.ok.inj, congrArg _⟩

/-- Two callers who each add a camera, in the order in which their jobs make their steps. -/
def twoCameras (steps : List Deed) : List Deed :=
  [.submit (.change (.upsert (.new "front" .url "http://front"))),
    .submit (.change (.upsert (.new "back" .url "http://back")))] ++ steps

/-- The second caller begins and keeps the sources while the first one is under way, but not after it has looked. -/
theorem both_cameras_kept : ∃ g : Fleet,
    plain.performAll? (twoCameras (goesOn 0 1 ++ goesOn 1 3 ++ goesOn 0 2)) = some g ∧ g.AtRest ∧
    g.keptSection .sources = .ok (g.standing .sources) := by
  let ds := twoCameras (goesOn 0 1 ++ goesOn 1 3 ++ goesOn 0 2)
  have hrest : plain.AtRest := atRest_of_all (by decide +kernel)
  have hcalls : ∀ d ∈ ds, d.configures = true := List.all_eq_true.mp (by decide +kernel)
  have hok : ∀ e ∈ plain.saves ds, (e.1.save e.2).2.ok = true := List.all_eq_true.mp (by decide +kernel)
  have hrun : ((plain.performAll? ds).any fun g => g.jobs.entries.all fun e => e.2.isDone) = true := by decide +kernel
  have hlast : ((plain.lastSave? ds .sources).any fun e => e.2 = e.1.standing .sources) = true := by decide +kernel
  obtain ⟨g, hg, hdone⟩ := (Option.any_eq_true _ _).mp hrun
  obtain ⟨⟨a, s⟩, hsave, hs⟩ := (Option.any_eq_true _ _).mp hlast
  have hrest' : g.AtRest := atRest_of_all hdone
  refine ⟨g, hg, hrest', ?_⟩
  have hkept := kept_section_is_last_kept (.fresh ..) hrest hcalls hg hrest' hok .sources
  exact (hkept.2 a s hsave).2.mpr (of_decide_eq_true hs)

/-- The first caller has looked at the sources when the second one adds its camera and keeps both. Then the first one
keeps what it saw, and the second camera is lost, although it is configured and both callers were told that all went
well. -/
theorem later_camera_lost : ∃ (ds : List Deed) (g : Fleet), plain.Reachable ∧ plain.AtRest ∧
    (∀ d ∈ ds, d.configures = true) ∧ plain.performAll? ds = some g ∧
    g.answer? 0 = some (.changed "" (.saved none)) ∧ g.answer? 1 = some (.changed "" (.saved none)) ∧ g.AtRest ∧
    g.standing .sources = .sources [.new "front" .url "http://front", .new "back" .url "http://back"] ∧
    g.keptSection .sources = .ok (.sources [.new "front" .url "http://front"]) := by
  let ds := twoCameras (goesOn 0 2 ++ goesOn 1 3 ++ goesOn 0 1)
  have hrun : ((plain.performAll? ds).any fun g =>
      g.answer? 0 = some (.changed "" (.saved none)) && g.answer? 1 = some (.changed "" (.saved none)) &&
      (g.jobs.entries.all fun e => e.2.isDone) &&
      g.standing .sources = .sources [.new "front" .url "http://front", .new "back" .url "http://back"] &&
      g.keptSection .sources = .ok (.sources [.new "front" .url "http://front"])) = true := by decide +kernel
  obtain ⟨g, hg, h⟩ := (Option.any_eq_true _ _).mp hrun
  simp only [Bool.and_eq_true, decide_eq_true_eq] at h
  obtain ⟨⟨⟨⟨hfirst, hsecond⟩, hdone⟩, hstanding⟩, hkept⟩ := h
  exact ⟨ds, g, .fresh .., atRest_of_all (by decide +kernel), List.all_eq_true.mp (by decide +kernel), hg, hfirst, hsecond,
    atRest_of_all hdone, hstanding, hkept⟩

end Fleet

end EncoderFleet
