import EncoderFleet.Proofs.Fleet.Calls
import EncoderFleet.Proofs.Setup.Reloading

/-!
# Restarts

A fleet that is made anew takes up the document that is kept. While calls change the configuration one after another, the
document always says enough: between the steps of a call, what is kept, with the section put in that the call owes, makes
the configuration that stands (`Resumes`, `Resumes.step`). So after the last call a restart changes nothing
(`restart_changes_nothing`).
-/

namespace EncoderFleet.Fleet

variable {f g : Fleet} {d : Document} {host : Platform}

/-- A fleet of the host that takes up the document has the configuration that stands. -/
structure Restores (f : Fleet) (host : Platform) (d : Document) : Prop where
  sources : Sources.ofList d.sources = f.sources
  catalog : Catalog.new host d.profiles d.activeProfile = f.catalog

theorem Restores.congr (h : f.Restores host d) (hsources : g.sources = f.sources) (hcatalog : g.catalog = f.catalog) :
    g.Restores host d :=
  ⟨h.sources.trans hsources.symm, h.catalog.trans hcatalog.symm⟩

/-- A list of sources that stands is kept as it is. -/
theorem Restores.put_sources (h : f.Restores host d) {ss : Sources} (hss : Sources.Distinct ss.toList) :
    { f with sources := ss }.Restores host (d.put (.sources ss.toList)) :=
  ⟨Sources.ofList_of_distinct hss, h.catalog⟩

/-- A selection that was made is made again. -/
theorem Restores.put_selection (h : f.Restores host d) {name active : String} {catalog : Catalog}
    (hc : f.catalog.activate name = .ok (catalog, active)) :
    { f with catalog := catalog }.Restores host (d.put (.activeProfile catalog.selection)) := by
  refine ⟨h.sources, ?_⟩
  rw [← h.catalog] at hc
  exact Catalog.new_selection hc

/-- What is kept makes the configuration that stands, once the job has kept what it owes. -/
def Resumes (f : Fleet) (host : Platform) : Job → Prop
  | .change (.change _) => ∃ d, f.kept = .ok d ∧ f.Restores host d
  | .change (.look c _) => ∃ d, f.kept = .ok d ∧ f.Restores host (d.put (f.standing c.kind))
  | .change (.save s _) => ∃ d, f.kept = .ok d ∧ f.Restores host (d.put s)
  | .done a =>
    (∀ active saved, a = .changed active saved → saved.ok = true) → ∃ d, f.kept = .ok d ∧ f.Restores host d
  | _ => True

theorem Resumes.same {j : Job} (hr : f.Resumes host j) (h : f.SameConfiguration g) : g.Resumes host j := by
  have hkept : g.kept = f.kept := by simp only [kept, h.archive, h.files]
  have hrestores : ∀ d, f.Restores host d → g.Restores host d := fun d hd => hd.congr h.sources h.catalog
  unfold Resumes at hr ⊢
  split
  · obtain ⟨d, hd, hr⟩ := hr
    exact ⟨d, hkept.trans hd, hrestores _ hr⟩
  · obtain ⟨d, hd, hr⟩ := hr
    rw [h.standing]
    exact ⟨d, hkept.trans hd, hrestores _ hr⟩
  · obtain ⟨d, hd, hr⟩ := hr
    exact ⟨d, hkept.trans hd, hrestores _ hr⟩
  · intro hok
    obtain ⟨d, hd, hr⟩ := hr hok
    exact ⟨d, hkept.trans hd, hrestores _ hr⟩
  · trivial

theorem Resumes.step {p : ChangePlace} {j : Job} (hr : f.Resumes host (.change p)) (h : ChangeStep f p g j) :
    g.Resumes host j := by
  cases h with
  | @changed c _ active hc =>
    obtain ⟨d, hd, hr⟩ := hr
    rcases change_cases hc with ⟨s, rfl, rfl⟩ | ⟨ss, rfl, rfl⟩ | ⟨name, catalog, rfl, hactivate, rfl⟩
    · -- The sources that stand came of a document, so no two of them have one id.
      have hdistinct : Sources.Distinct f.sources.toList := by
        rw [← hr.sources]
        exact Sources.distinct_ofList d.sources
      exact ⟨d, hd, hr.put_sources (Sources.distinct_upsert hdistinct s)⟩
    · exact ⟨d, hd, hr.put_sources (Sources.distinct_ofList ss)⟩
    · exact ⟨d, hd, hr.put_selection hactivate⟩
  | refused hc => exact fun _ => hr
  | looked => exact hr
  | @saved s active =>
    obtain ⟨d, hd, hr⟩ := hr
    intro hok
    -- The save changes the document that is kept, which is the one that restores.
    obtain ⟨-, -, hsave⟩ := f.save_frame s
    obtain ⟨d', hd', hkept⟩ := hsave (hok _ _ rfl)
    obtain rfl : d = d' := Except.ok.inj (hd.symm.trans hd')
    refine ⟨_, hkept, hr.congr ?_ ?_⟩
    · cases s <;> rfl
    · cases s <;> rfl

theorem Resumes.works {id : Nat} {x y : Fleet × Job} (hr : x.1.Resumes host x.2) (h : Relation.TransGen (Works id) x y) :
    y.1.Resumes host y.2 := by
  induction h with
  | single hs =>
    obtain ⟨hs⟩ := hs
    exact (hr.step hs).same (sameConfiguration_putJob _ _ _)
  | tail _ hs ih =>
    obtain ⟨hs⟩ := hs
    exact (ih.step hs).same (sameConfiguration_putJob _ _ _)

/-- Calls that change the configuration, one after another; answers what each of them was told. -/
def callAll : Fleet → List Change → List (Option Answer) × Fleet
  | f, [] => ([], f)
  | f, c :: cs =>
    let r := f.call (.change c)
    let rest := r.2.callAll cs
    (r.1 :: rest.1, rest.2)

theorem answered_callAll (hidle : f.Idle) (cs : List Change) : none ∉ (f.callAll cs).1 := by
  induction cs generalizing f with
  | nil => exact List.not_mem_nil
  | cons c cs ih =>
    obtain ⟨g, a, -, hcall, hidle'⟩ := call_change hidle c
    simp only [callAll, hcall]
    exact fun hmem => (List.mem_cons.mp hmem).elim nofun (ih hidle')

theorem restores_callAll (hidle : f.Idle) (hr : ∃ d, f.kept = .ok d ∧ f.Restores host d) (cs : List Change)
    (hok : ∀ active saved, some (.changed active saved) ∈ (f.callAll cs).1 → saved.ok = true) :
    ∃ d, (f.callAll cs).2.kept = .ok d ∧ (f.callAll cs).2.Restores host d := by
  induction cs generalizing f with
  | nil => exact hr
  | cons c cs ih =>
    obtain ⟨g, a, hworks, hcall, hidle'⟩ := call_change hidle c
    simp only [callAll, hcall] at hok ⊢
    have hsubmit : (f.submit (.change c)).2.Resumes host (.change (.change c)) :=
      Resumes.same (j := .change (.change c)) hr ⟨rfl, rfl, rfl, rfl⟩
    have hdone : g.Resumes host (.done a) := hsubmit.works hworks
    have hg : ∃ d, g.kept = .ok d ∧ g.Restores host d := hdone fun active saved ha =>
      hok active saved (by rw [ha]; exact List.mem_cons_self)
    obtain ⟨d, hd, hr⟩ := hg
    exact ih hidle' ⟨d, hd, hr.congr rfl rfl⟩ fun active saved hmem => hok active saved (List.mem_cons_of_mem _ hmem)

/-- Let an archive hold a document and a fleet be made of it, and let calls change the configuration, one after another.
Each is answered; and if all their saves went well, the archive holds a document of which a fleet can be made that has
the same sources and the same catalog: profiles, selection and active profile. -/
theorem restart_changes_nothing {settings : Settings} {archive : Archive} {flags : OutputFlags} {files : FileTree}
    {launcher : Launcher} {table : Option ProcessTable} {cs : List Change} {answers : List (Option Answer)}
    (hd : archive.read files = .ok d)
    (hrun : (fresh settings host d archive flags files launcher table).callAll cs = (answers, g))
    (hok : ∀ active saved, some (.changed active saved) ∈ answers → saved.ok = true) :
    none ∉ answers ∧ ∃ d', g.archive.read g.files = .ok d' ∧
      (Fleet.new settings host d' g.archive).sources = g.sources ∧
      (Fleet.new settings host d' g.archive).catalog = g.catalog := by
  have hidle : (fresh settings host d archive flags files launcher table).Idle := ⟨rfl, rfl, rfl⟩
  have hstart : (fresh settings host d archive flags files launcher table).Restores host d := ⟨rfl, rfl⟩
  have hanswered := answered_callAll hidle cs
  rw [hrun] at hanswered
  refine ⟨hanswered, ?_⟩
  have hkeeps := restores_callAll hidle ⟨d, hd, hstart⟩ cs (by rw [hrun]; exact hok)
  rw [hrun] at hkeeps
  obtain ⟨d', hd', hr⟩ := hkeeps
  exact ⟨d', hd', hr.sources, hr.catalog⟩

/-- A document with two cameras of one id, two profiles of one name, and a selection that means nothing. -/
def untidy : Document where
  sources := [.new "cam" .url "http://one", .new "CAM" .url "http://two"]
  profiles := [{ name := "mine", args := "-an" }, { name := "Mine", args := "-vn" }]
  activeProfile := "gone"

/-- Three changes of an untidy configuration, the last of them refused, and a restart. -/
theorem restart_after_changes : ∃ (answers : List (Option Answer)) (g : Fleet),
    (fresh {} .linux untidy (.memory untidy) {} .empty (.planned (.runs {})) none).callAll
      [.upsert (.new "Cam" .url "http://three"), .activate "MINE", .activate "other"] = (answers, g) ∧
    answers = [some (.changed "" (.saved none)), some (.changed "mine" (.saved none)),
      some (.failed (.notFound .profiles "other"))] ∧
    ∃ d', g.archive.read g.files = .ok d' ∧
      (Fleet.new {} .linux d' g.archive).sources = g.sources ∧
      (Fleet.new {} .linux d' g.archive).catalog = g.catalog := by
  have hanswers : ((fresh {} .linux untidy (.memory untidy) {} .empty (.planned (.runs {})) none).callAll
      [.upsert (.new "Cam" .url "http://three"), .activate "MINE", .activate "other"]).1 =
      [some (.changed "" (.saved none)), some (.changed "mine" (.saved none)),
        some (.failed (.notFound .profiles "other"))] := by decide +kernel
  rcases hrun : (fresh {} .linux untidy (.memory untidy) {} .empty (.planned (.runs {})) none).callAll
    [.upsert (.new "Cam" .url "http://three"), .activate "MINE", .activate "other"] with ⟨answers, g⟩
  rw [hrun] at hanswers
  obtain rfl : answers = _ := hanswers
  refine ⟨_, g, rfl, rfl, ?_⟩
  have hrestart := restart_changes_nothing rfl hrun fun active saved hmem => by
    simp only [List.mem_cons, List.not_mem_nil, or_false, Option.some.injEq, Answer.changed.injEq, reduceCtorEq] at hmem
    rcases hmem with ⟨-, rfl⟩ | ⟨-, rfl⟩
    · rfl
    · rfl
  exact hrestart.2

end EncoderFleet.Fleet
