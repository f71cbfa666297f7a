import EncoderFleet.Proofs.Fleet.Books

/-!
# Jobs that are left alone

A job is left alone while no other request, no caller with a permit and no encoder that ends unasked comes between its
steps. Everything else goes on: watchers kill what they were asked to kill, pumps read, time passes, and the
surroundings change (`leavesAlone`). None of that writes in the books (`books_aside`). So what the job itself makes of
the books, step by step, is what becomes of them (`Secluded.run`).

A stop that is left alone leaves of the books what `StopLeaves` says (`lone_stop`).
-/

namespace EncoderFleet.Fleet

/-- A stop request comes in while a job launches its encoder. -/
def interrupts (f : Fleet) (id : Nat) : Bool :=
  match f.start? id with
  | some (_, .launch c) =>
    match f.launcher.plan f.files c.command with
    | .runs b => b.stopMeanwhile.isSome
    | .fails _ => false
  | _ => false

/-- A deed leaves a job alone: it is a step of that job, or no request, no loan of a permit and no crash. -/
def leavesAlone (f : Fleet) (id : Nat) : Deed → Bool
  | .event (.job i _) => i == id && !f.interrupts id
  | .event (.notice n) => (f.happeningOfEnd n).isNone
  | .submit _ | .note _ | .mark _ _ | .borrow _ _ | .giveBack _ | .subscribe _ => false
  | _ => true

/-- Deeds lead from one fleet to the other that all leave a job alone. -/
abbrev Secluded (id : Nat) : Fleet → Fleet → Prop :=
  Relation.ReflTransGen fun f g => ∃ d, f.leavesAlone id d = true ∧ f.perform? d = some g

variable {f g h k : Fleet} {d : Deed} {id : Nat}

theorem Secluded.later (h : Secluded id f g) : f.Later g :=
  Relation.ReflTransGen.mono (fun _ _ ⟨d, _, hd⟩ => ⟨d, hd⟩) _ _ h

theorem Secluded.onward (hr : f.Reachable) (hs : Secluded id f g) : f.Onward g := by
  induction hs with
  | refl => exact .refl f
  | tail hs hd ih =>
    obtain ⟨d, -, hd⟩ := hd
    exact ih.trans ((hr.later (Secluded.later hs)).onward hd)

/-- Deeds one after another, as long as they leave a job alone. -/
def performAlone? (id : Nat) (f : Fleet) (ds : List Deed) : Option Fleet :=
  ds.foldlM (fun f d => if f.leavesAlone id d then f.perform? d else none) f

theorem secluded_of_performAlone {ds : List Deed} (h : f.performAlone? id ds = some g) : Secluded id f g := by
  induction ds generalizing f with
  | nil => cases h; exact .refl
  | cons d ds ih =>
    obtain ⟨e, he, h⟩ := Option.bind_eq_some_iff.mp h
    dsimp only at he
    split at he
    · next ha => exact .head ⟨d, ha, he⟩ (ih h)
    · cases he

/-! ## What happens aside -/

/-- An end that was asked for, or that is that of an encoder which its source does not track, is no crash. -/
theorem recordCrash_of_no_happening {n generation : Nat} {key : String} {asked : Bool} {e : Encoder}
    (he : f.encoder? n = some e) (hk : e.keeper = .watcher key generation asked false)
    (ha : f.happeningOfEnd n = none) (code : ExitCode) : f.recordCrash key generation code = f := by
  refine recordCrash_eq_self ?_ code
  unfold happeningOfEnd at ha
  rw [keeper?_of_encoder? he, hk] at ha
  dsimp only at ha
  split at ha
  · cases ha
  · next hn => exact Bool.eq_false_iff.mpr hn

theorem register_aside (hd : f.perform? d = some g) (ha : f.leavesAlone id d = true)
    (hn : ∀ i m, d ≠ .event (.job i m)) : g.hubs.registered = f.hubs.registered := by
  cases perform_register hd with
  | same h => exact h.registered
  | opened => exact absurd rfl (hn _ _)
  | dropped hdrops =>
    cases hdrops
    exact absurd rfl (hn _ _)
  | asked => cases ha

/-- What happens aside writes nothing in the books. -/
theorem books_aside (hd : f.perform? d = some g) (ha : f.leavesAlone id d = true)
    (hn : ∀ i m, d ≠ .event (.job i m)) : g.books = f.books := by
  have hr := register_aside hd ha hn
  have hkept : g.gate = f.gate → g.states = f.states → g.books = f.books := by
    intro hg hs
    rw [books, books, hg, hr, show g.state? = f.state? from funext fun key => by rw [state?, state?, hs]]
  cases performed hd with
  | job => exact absurd rfl (hn _ _)
  | struck => exact hkept rfl rfl
  | reaped => exact hkept rfl rfl
  | @noticed n generation key asked e code he hk hc =>
    rw [leavesAlone, Option.isNone_iff_eq_none] at ha
    have hcrash := recordCrash_of_no_happening he hk ha code
    rw [hcrash] at hkept ⊢
    exact hkept rfl rfl
  | exited => exact hkept rfl rfl
  | quiet _ hq => exact hkept hq.gate hq.states
  | _ => cases ha

theorem job_aside (hd : f.perform? d = some g) (ha : f.leavesAlone id d = true)
    (hn : ∀ i m, d ≠ .event (.job i m)) {j : Job} (hj : g.jobs.get? id = some j) : f.jobs.get? id = some j := by
  rcases (performed hd).job_cases hj with hj | ⟨j', m, g', rfl, -⟩ | ⟨r, rfl, -⟩
  · exact hj
  · exact absurd rfl (hn _ _)
  · cases ha

/-! ## What the job does -/

/-- What is true of a job and of the books stays true in seclusion, if it does not depend on anything else and each step
of the job keeps it. The fleet after a step is `k`: the job is put back in between, which concerns no books. -/
theorem Secluded.run {I : Fleet → Job → Prop} (hr : f.Reachable) (hs : Secluded id f g)
    (start : ∀ j, f.jobs.get? id = some j → I f j)
    (aside : ∀ {g k j}, g.Onward k → k.books = g.books → I g j → I k j)
    (own : ∀ {g h k m j j'}, g.Reachable → f.Onward g → g.interrupts id = false → g.jobs.get? id = some j →
      JobStep g id j m h j' → g.Onward k → k.books = h.books → I g j → I k j')
    {j : Job} (hj : g.jobs.get? id = some j) : I g j := by
  induction hs generalizing j with
  | refl => exact start j hj
  | @tail g k hs hd ih =>
    obtain ⟨d, ha, hd⟩ := hd
    have hg : g.Reachable := hr.later (Secluded.later hs)
    have on := hg.onward hd
    by_cases hn : ∀ i m, d ≠ .event (.job i m)
    · exact aside on (books_aside hd ha hn) (ih (job_aside hd ha hn hj))
    · push Not at hn
      obtain ⟨i, m, rfl⟩ := hn
      simp only [leavesAlone, Bool.and_eq_true, beq_iff_eq, Bool.not_eq_true'] at ha
      obtain ⟨rfl, hi⟩ := ha
      obtain ⟨j₀, h, j', hj₀, step, rfl⟩ := jobStep_of_stepJob (show g.stepJob i m = some k from hd)
      have hb : (h.putJob i j').books = h.books :=
        books_of_framed (framed_putJob h i j') (sameStreams_putJob h i j').sameRegister
      have hij : I (h.putJob i j') j' := own hg (Secluded.onward hr hs) hi hj₀ step on hb (ih hj₀)
      rcases jobs_putJob h i j' with hp | ⟨-, hp⟩
      · rw [hp, KeyMap.get?_insert_self] at hj
        exact Option.some.inj hj ▸ hij
      · rw [hp, KeyMap.get?_erase, if_pos rfl] at hj
        cases hj

theorem get?_of_answer {a : Answer} (h : f.answer? id = some a) : f.jobs.get? id = some (.done a) := by
  unfold answer? at h
  split at h
  · next hj =>
    cases h
    exact hj
  · cases h

/-! ## A stop that is left alone -/

/-- Where the job of a stop request stands. -/
inductive StopJob (f : Fleet) (key : String) (manual : Bool) (b : Books) : Job → Fleet → Prop
  | waiting {g : Fleet} (h : g.books = b) : StopJob f key manual b (.sweep { manual, rest := [key] }) g
  | underway {g : Fleet} {p : StopPlace} (h : StopStage f ⟨key, manual, true⟩ b p g) :
      StopJob f key manual b (.sweep { manual, current := some (key, p), rest := [] }) g
  | finished {g : Fleet} {stopped : List String} (h : StopLeaves f g ⟨key, manual, true⟩ b g.books) :
      StopJob f key manual b (.sweep { manual, rest := [], stopped }) g
  | done {g : Fleet} {stopped : List String} (h : StopLeaves f g ⟨key, manual, true⟩ b g.books) :
      StopJob f key manual b (.done (.stopped stopped)) g

variable {key : String} {manual : Bool} {b : Books}

theorem StopJob.onward {j : Job} (hj : StopJob f key manual b j g) (on : g.Onward k) (hb : k.books = g.books) :
    StopJob f key manual b j k := by
  cases hj with
  | waiting h => exact .waiting (hb.trans h)
  | underway h => exact .underway (h.onward on hb)
  | finished h => exact .finished (by rw [hb]; exact h.onward on)
  | done h => exact .done (by rw [hb]; exact h.onward on)

theorem StopJob.step {j j' : Job} {m : Move} (hj : StopJob f key manual b j g) (hr : g.Reachable) (hf : f.Onward g)
    (step : JobStep g id j m h j') (on : g.Onward k) (hb : k.books = h.books) : StopJob f key manual b j' k := by
  cases hj with
  | waiting hg =>
    cases step with
    | stop hc => cases hc
    | turned _ hrest =>
      cases hrest
      exact .underway (.take (hb.trans hg))
    | swept _ hrest => cases hrest
  | underway hs =>
    cases step with
    | @stop _ _ _ _ _ r hc step =>
      cases hc
      have hafter := step.stage hs (hr.records _).sound hf on hb
      cases r with
      | «at» p => exact .underway hafter
      | done => exact .finished hafter
    | turned hc => cases hc
    | swept hc => cases hc
  | finished hs =>
    cases step with
    | stop hc => cases hc
    | turned _ hrest => cases hrest
    | swept => exact .done (by rw [hb]; exact hs.onward on)
  | done => cases step

/-- What a stop request leaves of the books that is left alone. -/
theorem lone_stop {source : String} {a : Answer} (hr : f.Reachable)
    (hs : Secluded f.nextJob (f.submit (.stop (some source) manual)).2 g) (ha : g.answer? f.nextJob = some a) :
    f.StopLeaves g ⟨Text.fold source, manual, true⟩ (if manual then f.books.noted source else f.books) g.books := by
  have hd : f.perform? (.submit (.stop (some source) manual)) = some (f.submit (.stop (some source) manual)).2 := rfl
  have hon := hr.onward hd
  have hbooks : (f.submit (.stop (some source) manual)).2.books =
      if manual then f.books.noted source else f.books := by
    cases manual with
    | true => exact books_ensure f source
    | false => rfl
  have hjob := Secluded.run (I := fun g j => StopJob f (Text.fold source) manual
      (if manual then f.books.noted source else f.books) j g) (hr.perform hd) hs (fun j hj => ?_)
    (fun on hb hj => hj.onward on hb) (fun hg hf _ _ step on hb hj => hj.step hg (hon.trans hf) step on hb)
    (get?_of_answer ha)
  · cases hjob with
    | done h => exact h
  · rw [(submit_jobs f _).1, KeyMap.get?_insert_self] at hj
    cases hj
    exact .waiting hbooks

end EncoderFleet.Fleet
