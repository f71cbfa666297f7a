import EncoderFleet.Proofs.Fleet.Stories

/-!
# The fate of each encoder

A fleet and the log of what happened on the way to it make a `Fleet.Chronicle`; every fleet that can be reached has one.
The custody of encoders agrees with the log (`Chronicle.agrees`), so each encoder that was launched has one `Fate`, and
has it from one party only: it is owned by a start, tracked by a source, taken away by one job, recorded as crashed, or
abandoned. `encoder_fates` puts this together with what the log says about departures and returned ids.
-/

namespace EncoderFleet

/-- The sources that a stop request has stopped, so far or in all. -/
def Job.stopped : Job → List String
  | sweep s => s.stopped
  | done (.stopped ids) => ids
  | _ => []

/-- What has become of a launched encoder. -/
inductive Fate
  /-- The start under way in a job answers for it. -/
  | owned (job : Nat)
  /-- A source tracks it. -/
  | tracked (key : String)
  /-- A job has taken it away from its source, for it to be killed. -/
  | taken (job : Nat)
  /-- Its source has lost it to a crash. -/
  | crashed
  /-- The start that launched it has given it up. -/
  | abandoned

/-- The fate that a story tells. -/
def fate? : List Happening → Option Fate
  | [.launched _ id] => some (.owned id)
  | [.launched _ _, .committed _ key _ _] => some (.tracked key)
  | [.launched _ _, .committed _ _ _ _, .taken _ _ _ id] => some (.taken id)
  | [.launched _ _, .committed _ _ _ _, .crashed _ _ _] => some .crashed
  | [.launched _ _, .abandoned _ _] => some .abandoned
  | _ => none

namespace Fleet

/-- Deeds lead to this fleet, and this is what happened on the way. -/
inductive Chronicle : Fleet → List Happening → Prop
  | fresh (settings : Settings) (platform : Platform) (d : Document) (archive : Archive) (flags : OutputFlags)
      (files : FileTree) (launcher : Launcher) (table : Option ProcessTable) :
      Chronicle (fresh settings platform d archive flags files launcher table) []
  | perform {f g : Fleet} {d : Deed} {log : List Happening} :
      Chronicle f log → f.perform? d = some g → Chronicle g (log ++ (f.happening? d).toList)

/-- An encoder has ended. -/
def Ended (f : Fleet) (n : Nat) : Prop := ∃ e, f.encoder? n = some e ∧ e.ended.isSome = true

/-- An encoder was killed. -/
def Killed (f : Fleet) (n : Nat) : Prop := ∃ e, f.encoder? n = some e ∧ 0 < e.kills

/-- The watcher of an encoder is asked for a kill, and may have carried it out. -/
def Asked (f : Fleet) (n : Nat) : Prop :=
  ∃ key generation struck, f.keeper? n = some (.watcher key generation true struck)

/-- A source tracks the encoder of a generation. -/
def Tracks (f : Fleet) (key : String) (generation : Nat) : Prop :=
  ∃ t, f.tracked? key = some t ∧ t.generation = generation

/-- The sources that the stop request with this number has stopped. -/
def stopped (f : Fleet) (id : Nat) : List String := ((f.jobs.get? id).map Job.stopped).getD []

/-- What it is for an encoder to have a fate. -/
def HasFate (f : Fleet) (log : List Happening) (n : Nat) : Fate → Prop
  | .owned id => f.owned? id = some n
  | .tracked key => ∃ s t, f.state? key = some s ∧ s.tracked = some t ∧ t.encoder = n ∧ t.generation = s.generation ∧
      f.keeper? n = some (.watcher key s.generation false false)
  | .taken id => (f.Asked n ∨ f.Ended n) ∧ ∃ start key generation,
      story log n = [.launched n start, .committed n key generation start, .taken n key generation id]
  | .crashed => f.Ended n ∧ ∃ start key generation,
      story log n = [.launched n start, .committed n key generation start, .crashed n key generation]
  | .abandoned => f.Killed n ∧ ∃ start, story log n = [.launched n start, .abandoned n start]

variable {f g : Fleet} {log : List Happening}

/-! ## Chronicles -/

theorem Chronicle.reachable (h : f.Chronicle log) : f.Reachable := by
  induction h with
  | fresh => exact .fresh ..
  | perform _ hd ih => exact ih.perform hd

theorem Reachable.chronicle (h : f.Reachable) : ∃ log, f.Chronicle log := by
  induction h with
  | fresh => exact ⟨[], .fresh ..⟩
  | perform _ hd ih =>
    obtain ⟨log, h⟩ := ih
    exact ⟨_, h.perform hd⟩

theorem agrees_fresh (settings : Settings) (platform : Platform) (d : Document) (archive : Archive)
    (flags : OutputFlags) (files : FileTree) (launcher : Launcher) (table : Option ProcessTable) :
    (fresh settings platform d archive flags files launcher table).custody.Agrees [] where
  accounted _ := .unknown fun x => by cases x <;> exact nofun
  departed h := absurd rfl h
  once _ _ := Nat.zero_le _
  pending := nofun
  alone := nofun
  returned h := absurd rfl h
  returnedOnce _ _ := Nat.zero_le _

theorem Chronicle.agrees (h : f.Chronicle log) : f.custody.Agrees log := by
  induction h with
  | fresh => exact agrees_fresh ..
  | perform hf hd ih =>
    have hr := hf.reachable
    exact ih.step ((hr.worked hd).custodyStep hr.records)

/-! ## Fates -/

theorem has_source {key : String} {n : Nat} :
    f.custody.has (.source key) = some n ↔ ∃ t, f.tracked? key = some t ∧ t.encoder = n := by
  rw [tracked?_eq]
  exact Option.map_eq_some_iff

theorem HasFate.told {n : Nat} {x : Fate} (h : f.custody.Agrees log) (hx : f.HasFate log n x) :
    fate? (story log n) = some x := by
  have hacc := h.accounted n
  cases x with
  | owned id =>
    obtain ⟨-, hl, -⟩ := hacc.of_start hx
    rw [hl]
    rfl
  | tracked key =>
    obtain ⟨s, t, hs, ht, hn, -, -⟩ := hx
    have hk : f.tracked? key = some t := by rw [tracked?, hs]; exact ht
    obtain ⟨-, ⟨id, hl⟩, -⟩ := hacc.of_source (has_source.mpr ⟨t, hk, hn⟩)
    rw [hl]
    rfl
  | taken id =>
    obtain ⟨-, start, key, generation, hl⟩ := hx
    rw [hl]
    rfl
  | crashed =>
    obtain ⟨-, start, key, generation, hl⟩ := hx
    rw [hl]
    rfl
  | abandoned =>
    obtain ⟨-, start, hl⟩ := hx
    rw [hl]
    rfl

theorem Reachable.ended_of_gone {n : Nat} {code : ExitCode} (h : f.Reachable) (hk : f.keeper? n = some (.gone code)) :
    f.Ended n := by
  obtain ⟨e, he, hgone⟩ := Option.map_eq_some_iff.mp hk
  have hs := h.honest e.standing (List.mem_map_of_mem (List.mem_of_getElem? he))
  have hended : e.ended = some code := hs.gone hgone
  exact ⟨e, he, by rw [hended]; rfl⟩

theorem Reachable.killed_of_nobody {n : Nat} (h : f.Reachable) (hk : f.keeper? n = some .nobody) : f.Killed n := by
  obtain ⟨e, he, hnobody⟩ := Option.map_eq_some_iff.mp hk
  have hs := h.honest e.standing (List.mem_map_of_mem (List.mem_of_getElem? he))
  exact ⟨e, he, hs.nobody hnobody⟩

theorem keeper?_isSome (n : Nat) : (f.keeper? n).isSome = true ↔ n < f.encoders.length := by
  rw [keeper?, Option.isSome_map, encoder?]
  simp

theorem Chronicle.exists_fate {n : Nat} (h : f.Chronicle log) (hn : n < f.encoders.length) :
    ∃ x, f.HasFate log n x := by
  have hr := h.reachable
  obtain ⟨k, hk⟩ := Option.isSome_iff_exists.mp ((keeper?_isSome n).mpr hn)
  have hacc : f.custody.Accounted n (f.keeper? n) (story log n) := h.agrees.accounted n
  rw [hk] at hacc
  generalize hl : story log n = l at hacc
  cases hacc with
  | @owned id hx => exact ⟨.owned id, (hx _).mpr rfl⟩
  | @tracked id key hx =>
    obtain ⟨t, ht, he⟩ := has_source.mp ((hx (.source key)).mpr rfl)
    obtain ⟨s, hs, hst⟩ := Option.bind_eq_some_iff.mp ht
    have hlife := life_of_state? hs
    have hsound := (hr.records key).sound
    have hgen : s.generation = (f.life key).generation := by rw [hlife]; rfl
    have htg : t.generation = (f.life key).generation := hsound.generation (by rw [hlife]; exact hst)
    refine ⟨.tracked key, s, t, hs, hst, he, htg.trans hgen.symm, ?_⟩
    rw [hgen]
    exact hk
  | taken => exact ⟨.taken _, .inl ⟨_, _, _, hk⟩, _, _, _, hl⟩
  | reaped => exact ⟨.taken _, .inr (hr.ended_of_gone hk), _, _, _, hl⟩
  | crashed => exact ⟨.crashed, hr.ended_of_gone hk, _, _, _, hl⟩
  | abandoned => exact ⟨.abandoned, hr.killed_of_nobody hk, _, hl⟩

/-- Two starts never answer for one encoder, and they answer only for what was launched. -/
theorem Reachable.owner_unique {i j n : Nat} (h : f.Reachable) (hi : f.owned? i = some n) (hj : f.owned? j = some n) :
    i = j ∧ n < f.encoders.length := by
  obtain ⟨log, hlog⟩ := h.chronicle
  obtain ⟨hk, -, hx⟩ := (hlog.agrees.accounted n).of_start hi
  refine ⟨?_, (keeper?_isSome n).mp ?_⟩
  · cases (hx (.start j)).mp hj
    rfl
  · rw [show f.keeper? n = some .launch from hk]
    rfl

/-! ## Departures and returned ids -/

theorem Records.tracks_iff (h : f.Records) {key : String} {generation : Nat} :
    f.Tracks key generation ↔ f.custody.has (.source key) ≠ none ∧ f.custody.generation key = generation := by
  have hsound := (h key).sound
  constructor
  · rintro ⟨t, ht, rfl⟩
    refine ⟨?_, ?_⟩
    · rw [has_source.mpr ⟨t, ht, rfl⟩]
      nofun
    · rw [tracked?_eq] at ht
      exact (hsound.generation ht).symm
  · rintro ⟨hhas, rfl⟩
    obtain ⟨n, hn⟩ := Option.ne_none_iff_exists'.mp hhas
    obtain ⟨t, ht, -⟩ := has_source.mp hn
    refine ⟨t, ht, ?_⟩
    rw [tracked?_eq] at ht
    exact hsound.generation ht

/-- The log counts exactly the departures: a source ceases to track the encoder of a generation when, and only when, it
was taken away or has crashed. -/
theorem Reachable.departs_iff {d : Deed} (h : f.Reachable) (hd : f.perform? d = some g) (key : String)
    (generation : Nat) :
    f.Tracks key generation ∧ ¬g.Tracks key generation ↔
      (f.happening? d).any (Happening.departs key generation) = true := by
  have step := (h.worked hd).custodyStep h.records
  rw [h.records.tracks_iff, (h.perform hd).records.tracks_iff]
  rcases step.departs_cases with ⟨ha, hc⟩ | ⟨k, hhas, hnone, hgen, hother, ha⟩
  · rw [ha]
    refine ⟨fun ⟨⟨hf, hfg⟩, hg⟩ => ?_, nofun⟩
    rcases hc key with ⟨hsame, hs⟩ | ⟨hno, -⟩
    · exact absurd ⟨hs ▸ hf, hsame.trans hfg⟩ hg
    · exact absurd hno hf
  · rw [ha]
    constructor
    · rintro ⟨⟨hf, hfg⟩, hg⟩
      by_cases hk : key = k
      · exact ⟨hk.symm, hk ▸ hfg⟩
      · refine absurd ⟨?_, ?_⟩ hg
        · rw [hother key hk]; exact hf
        · rw [hgen]; exact hfg
    · rintro ⟨rfl, rfl⟩
      exact ⟨⟨hhas, rfl⟩, fun hg => hg.1 hnone⟩

theorem stopped_of_get? {id : Nat} {j : Job} (h : f.jobs.get? id = some j) : f.stopped id = j.stopped := by
  rw [stopped, h]
  rfl

theorem stopped_jobOf (f : Fleet) (r : Request) : (f.jobOf r).stopped = [] := by
  cases r with
  | startConfigured id restart manual =>
    simp only [jobOf]
    cases f.named id <;> rfl
  | stop id manual => cases id <;> rfl
  | _ => rfl

/-- A stop request adds an id to its answer when it is through with an encoder, and at no other time. -/
theorem JobStep.stopped {id : Nat} {j j' : Job} {m : Move} (hj : f.jobs.get? id = some j) (h : JobStep f id j m g j') :
    j'.stopped = j.stopped ∨ ∃ o t code, f.stop? id = some (o, .record t code) ∧
      f.happening? (.event (.job id m)) = some (.returned o.key t.tracked.generation id) ∧
      j'.stopped = j.stopped ++ [t.source] := by
  have hs := start?_of_get? hj
  have ht := stop?_of_get? hj
  cases h with
  | @stop s key p m g r hc step =>
    rw [Job.stop?_sweep hc] at ht
    cases step with
    | @recorded t code =>
      refine .inr ⟨s.order key, t, code, ht, ?_, rfl⟩
      simp [happening?, hs, Job.start?, ht, happeningOfStop, Sweep.order]
    | unknown => exact .inl (List.append_nil _)
    | nothing => exact .inl (List.append_nil _)
    | _ => exact .inl rfl
  | @start b s p m g r => exact .inl (by cases r <;> rfl)
  | @changed p m g a hk ha =>
    cases a with
    | stopped ids => exact absurd rfl (ha ids)
    | _ => exact .inl rfl
  | _ => exact .inl rfl

theorem Reachable.stopped {d : Deed} (h : f.Reachable) (hd : f.perform? d = some g) {id : Nat} {j : Job}
    (hj : g.jobs.get? id = some j) :
    j.stopped = f.stopped id ∨ ∃ o t code, f.stop? id = some (o, .record t code) ∧
      f.happening? d = some (.returned o.key t.tracked.generation id) ∧ j.stopped = f.stopped id ++ [t.source] := by
  rcases (performed hd).job_cases hj with hj | ⟨j₀, m, g', rfl, hj₀, step, -⟩ | ⟨r, rfl, rfl, rfl⟩
  · exact .inl (stopped_of_get? hj).symm
  · rw [stopped_of_get? hj₀]
    exact step.stopped hj₀
  · refine .inl ?_
    rw [stopped_jobOf, Fleet.stopped, h.numbered.get?_nextJob]
    rfl

/-- No encoder is forgotten. -/
theorem Reachable.encoders_le {d : Deed} (h : f.Reachable) (hd : f.perform? d = some g) :
    f.encoders.length ≤ g.encoders.length := by
  by_contra hlt
  have hf := (keeper?_isSome (f := f) g.encoders.length).mpr (by omega)
  have hg := ((h.worked hd).custodyStep h.records).keeper_isSome (n := g.encoders.length) hf
  have := (keeper?_isSome (f := g) g.encoders.length).mp hg
  omega

/-- Who takes an encoder away asks for its kill at the same time. -/
theorem Chronicle.asked_of_taken {d : Deed} {n id generation : Nat} {key : String} (h : f.Chronicle log)
    (hd : f.perform? d = some g) (ht : f.happening? d = some (.taken n key generation id)) : g.Asked n := by
  have hr := h.reachable
  have step := (hr.worked hd).custodyStep hr.records
  rw [ht] at step
  generalize hc : g.custody = c at step
  have hk : g.keeper? n = c.keeper n := by rw [← hc]; rfl
  cases step with
  | taken hs _ _ =>
    obtain ⟨hkeep, -⟩ := (h.agrees.accounted n).of_source hs
    refine ⟨key, f.custody.generation key, false, hk.trans ?_⟩
    dsimp only
    rw [Function.update_self, hkeep]
    rfl
  | finished _ ha => cases ha _ rfl

/-! ## What happens in a deed -/

/-- A stop takes an encoder away, or is through with one. -/
theorem happeningOfStop_eq {id : Nat} {o : StopOrder} {p : StopPlace} {a : Happening}
    (h : f.happeningOfStop id o p = some a) :
    (p = .take ∧ ∃ t, f.tracked? o.key = some t ∧ a = .taken t.encoder o.key t.generation id) ∨
      ∃ t code, p = .record t code ∧ a = .returned o.key t.tracked.generation id := by
  unfold happeningOfStop at h
  split at h
  · obtain ⟨t, ht, rfl⟩ := Option.map_eq_some_iff.mp h
    exact .inl ⟨rfl, t, ht, rfl⟩
  · split at h <;> cases h
    exact .inr ⟨_, _, rfl, rfl⟩
  · cases h

/-- A start that has no stop under way launches an encoder, or commits or abandons one. -/
theorem happeningOfStart_eq {id : Nat} {o : StartOrder} {p : StartPlace} {a : Happening} (hp : p.stop? = none)
    (h : f.happeningOfStart id o p = some a) :
    (∃ c, p = .launch c ∧ a = .launched f.encoders.length id) ∨
      ∃ c n, p = .commit c n ∧ (a = .abandoned n id ∨ ∃ generation, a = .committed n o.key generation id) := by
  unfold happeningOfStart at h
  split at h
  · cases hp
  · split at h <;> cases h
    exact .inl ⟨_, rfl, rfl⟩
  · split at h <;> cases h
    · exact .inr ⟨_, _, rfl, .inl rfl⟩
    · exact .inr ⟨_, _, rfl, .inr ⟨_, rfl⟩⟩
  · cases h

/-- The end of an encoder is a crash, of one that its source tracks. -/
theorem happeningOfEnd_eq {n : Nat} {a : Happening} (h : f.happeningOfEnd n = some a) :
    ∃ key generation asked, a = .crashed n key generation ∧
      f.keeper? n = some (.watcher key generation asked false) ∧
      (f.tracked? key).any (fun t => t.generation == generation) = true := by
  unfold happeningOfEnd at h
  split at h
  · next key generation asked hk =>
    split at h
    · next ht => cases h; exact ⟨key, generation, asked, rfl, hk, ht⟩
    · cases h
  · cases h

/-- What is of consequence in a deed is so in a step of a start, in a step of a stop, or in the end of an encoder. -/
theorem happening_cases {d : Deed} {a : Happening} (h : f.happening? d = some a) :
    (∃ id m o p, d = .event (.job id m) ∧ f.start? id = some (o, p) ∧ p.stop? = none ∧
      f.happeningOfStart id o p = some a) ∨
    (∃ id m o p, d = .event (.job id m) ∧ f.stop? id = some (o, p) ∧ f.happeningOfStop id o p = some a) ∨
    ∃ n, d = .event (.notice n) ∧ f.happeningOfEnd n = some a := by
  unfold happening? at h
  split at h
  · next id m =>
    split at h
    · next o p hs =>
      cases p with
      | retire e p => exact .inr (.inl ⟨id, m, _, p, rfl, stop?_of_start? hs, h⟩)
      | _ => exact .inl ⟨id, m, o, _, rfl, hs, rfl, h⟩
    · obtain ⟨⟨o, p⟩, hs, h⟩ := Option.bind_eq_some_iff.mp h
      exact .inr (.inl ⟨id, m, o, p, rfl, hs, h⟩)
  · next n => exact .inr (.inr ⟨n, rfl, h⟩)
  · cases h

/-- A crash is the end of an encoder that its source tracks. -/
theorem crashed_cases {d : Deed} {n generation : Nat} {key : String}
    (h : f.happening? d = some (.crashed n key generation)) :
    d = .event (.notice n) ∧ (∃ asked, f.keeper? n = some (.watcher key generation asked false)) ∧
      (f.tracked? key).any (fun t => t.generation == generation) = true := by
  rcases happening_cases h with ⟨i, m, o, p, -, -, hp, h⟩ | ⟨i, m, o, p, -, -, h⟩ | ⟨k, rfl, h⟩
  · rcases happeningOfStart_eq hp h with ⟨_, -, ha⟩ | ⟨_, _, -, ha | ⟨_, ha⟩⟩ <;> cases ha
  · rcases happeningOfStop_eq h with ⟨-, _, -, ha⟩ | ⟨_, _, -, ha⟩ <;> cases ha
  · obtain ⟨key', generation', asked, ha, hk, ht⟩ := happeningOfEnd_eq h
    cases ha
    exact ⟨rfl, ⟨asked, hk⟩, ht⟩

/-- A source that loses its encoder to a crash counts as crashed, and its permit is given back. -/
theorem Reachable.life_of_crashed {d : Deed} {n generation : Nat} {key : String} (h : f.Reachable)
    (hd : f.perform? d = some g) (hc : f.happening? d = some (.crashed n key generation)) :
    g.life key = (f.life key).crashed ∧ g.gate = if (f.life key).permit then f.gate.release else f.gate := by
  obtain ⟨rfl, ⟨asked, hk⟩, ht⟩ := crashed_cases hc
  cases h.worked hd with
  | reaped he hk' _ =>
    rw [keeper?_of_encoder? he, hk'] at hk
    cases hk
  | @noticed _ generation' key' _ e code he hk' _ =>
    rw [keeper?_of_encoder? he, hk'] at hk
    cases hk
    obtain ⟨hlife, hgate⟩ := life_recordCrash_of_tracked ht code
    exact ⟨(hlife key).trans (if_pos rfl), hgate⟩
  | idle _ _ _ _ _ hn => exact absurd rfl (hn n)

/-! ## The law of encoders -/

/-- Take a fleet and all that has happened on the way to it. Every encoder that was launched has exactly one fate, and
from one party: it is owned by one start under way; it is tracked by one source, whose latest generation is its own;
one job has taken it away, and its kill is asked for or it has ended; its crash was recorded, once; or it was abandoned
and killed. One that is neither owned, nor tracked, nor ended was killed or its kill is asked for. Each generation
departs from its source at most once, and at most one stop request has returned an id for it.

The log is true to the deeds. No deed forgets an encoder. A source ceases to track the encoder of a generation exactly
when a departure is logged; if it is taken away, its kill is asked for then, and if it has crashed, the source counts
as crashed. A stop request adds an id to its answer only when that is logged. -/
theorem encoder_fates (h : f.Chronicle log) :
    (∀ n, n < f.encoders.length → ∃! x, f.HasFate log n x) ∧
    (∀ n, n < f.encoders.length → (∀ id, f.owned? id ≠ some n) →
      (∀ key t, f.tracked? key = some t → t.encoder ≠ n) → ¬f.Ended n → f.Killed n ∨ f.Asked n) ∧
    (∀ key generation, departures log key generation ≤ 1 ∧ returnings log key generation ≤ 1) ∧
    ∀ d g, f.perform? d = some g →
      f.encoders.length ≤ g.encoders.length ∧
      (∀ key generation, f.Tracks key generation ∧ ¬g.Tracks key generation ↔
        (f.happening? d).any (Happening.departs key generation) = true) ∧
      (∀ n key generation id, f.happening? d = some (.taken n key generation id) → g.Asked n) ∧
      (∀ n key generation, f.happening? d = some (.crashed n key generation) → (g.life key).lifecycle = .crashed) ∧
      ∀ id j, g.jobs.get? id = some j → j.stopped = f.stopped id ∨
        ∃ o t code, f.stop? id = some (o, .record t code) ∧
          f.happening? d = some (.returned o.key t.tracked.generation id) ∧ j.stopped = f.stopped id ++ [t.source] := by
  have hr := h.reachable
  refine ⟨fun n hn => ?_, fun n hn ho ht he => ?_, fun key generation => ?_, fun d g hd => ?_⟩
  · obtain ⟨x, hx⟩ := h.exists_fate hn
    refine ⟨x, hx, fun y hy => ?_⟩
    exact Option.some.inj ((hy.told h.agrees).symm.trans (hx.told h.agrees))
  · obtain ⟨x, hx⟩ := h.exists_fate hn
    cases x with
    | owned id => exact absurd hx (ho id)
    | tracked key =>
      obtain ⟨s, t, hs, hst, hn, -⟩ := hx
      exact absurd hn (ht key t (by rw [tracked?, hs]; exact hst))
    | taken id => exact .inr (hx.1.resolve_right he)
    | crashed => exact absurd hx.1 he
    | abandoned => exact .inl hx.1
  · exact ⟨h.agrees.once key generation, h.agrees.returnedOnce key generation⟩
  · refine ⟨hr.encoders_le hd, hr.departs_iff hd, fun n key generation id ht => ?_, fun n key generation hc => ?_,
      fun id j hj => ?_⟩
    · exact h.asked_of_taken hd ht
    · exact congrArg Life.lifecycle (hr.life_of_crashed hd hc).1
    · exact hr.stopped hd hj

/-- A camera was started, and a user has stopped it: the stop has taken the encoder away, which has not ended yet. It
has one fate, and it was killed or its kill is asked for. -/
theorem fate_of_stopped_camera : ∃ f : Fleet, ∃ log, f.Chronicle log ∧ f.encoders.length = 1 ∧ ¬f.Ended 0 ∧
    (∀ id, f.owned? id ≠ some 0) ∧ (∀ key t, f.tracked? key = some t → t.encoder ≠ 0) ∧
    (∃! x, f.HasFate log 0 x) ∧ (f.Killed 0 ∨ f.Asked 0) ∧ departures log "cam" 1 ≤ 1 := by
  obtain ⟨f, hf, h⟩ := exists_of_run
    (p := fun f => decide (f.encoders.length = 1) && decide (f.keeper? 0 = some (.watcher "cam" 1 true false)) &&
      (f.encoder? 0).all fun e => e.ended.isNone)
    ([.submit (.start camera)] ++ goesOn 0 14 ++ [.submit (.stop (some "cam") true)] ++ goesOn 1 2) (by decide +kernel)
  simp only [Bool.and_eq_true, decide_eq_true_eq] at h
  obtain ⟨⟨hlen, hk⟩, hend⟩ := h
  obtain ⟨log, hlog⟩ := hf.chronicle
  have hacc : f.custody.Accounted 0 (f.keeper? 0) (story log 0) := hlog.agrees.accounted 0
  have hended : ¬f.Ended 0 := by
    rintro ⟨e, he, hsome⟩
    rw [he, Option.all_some] at hend
    rw [Option.isNone_iff_eq_none.mp hend] at hsome
    cases hsome
  have howned : ∀ id, f.owned? id ≠ some 0 := by
    intro id ho
    have hkeep := (hacc.of_start ho).1
    rw [hk] at hkeep
    cases hkeep
  have htracked : ∀ key t, f.tracked? key = some t → t.encoder ≠ 0 := by
    intro key t ht he
    have hkeep := (hacc.of_source (has_source.mpr ⟨t, ht, he⟩)).1
    rw [hk] at hkeep
    simp at hkeep
  obtain ⟨h₁, h₂, h₃, -⟩ := encoder_fates hlog
  exact ⟨f, log, hlog, hlen, hended, howned, htracked, h₁ 0 (by omega), h₂ 0 (by omega) howned htracked hended,
    (h₃ "cam" 1).1⟩

end Fleet

end EncoderFleet
