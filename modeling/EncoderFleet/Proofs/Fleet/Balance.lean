import EncoderFleet.Proofs.Fleet.Fates
import EncoderFleet.Proofs.Fleet.Permits

/-!
# The sum of all permits

The permits that are free and those that sources, jobs and callers hold add up to the capacity of the gate, which is
that of the settings, at least one (`Reachable.balanced`). `permits_conserved` says so with the permits that were
granted and not taken up counted where they belong: with the starts and the callers that wait for them. A source holds
one only while it runs, and a crash of its encoder takes it away (`Reachable.released_by_crash`).
-/

namespace EncoderFleet

namespace Job

/-- How many permits the start under way in a job carries. -/
def startLoad (j : Job) : Nat := (j.start?.map fun s => s.2.carried).getD 0

/-- How many permits the stop under way in a job carries. -/
def stopLoad (j : Job) : Nat := (j.stop?.map fun t => t.2.carried).getD 0

/-- Whether a start waits for a permit. -/
def startWaits (j : Job) : Bool := j.start?.any fun s => s.2.waits

/-- A job that waits for a permit does so for a start or for a caller, never for both. -/
theorem ite_waits (j : Job) (n : Nat) :
    (if j.waits then n else 0) = (if j.startWaits then n else 0) + if j.calls then n else 0 := by
  have hex : j.calls = true → j.startWaits = false := fun h => by
    cases j with
    | permit => rfl
    | _ => cases h
  unfold waits startWaits at *
  cases hc : j.calls with
  | false => simp
  | true => simp [hex hc]

end Job

namespace Fleet

/-- The permits that sources hold. -/
def statePermits (f : Fleet) : Nat := f.states.total fun _ s => s.permit.toNat

/-- The permits that starts under way carry, or were granted and have not taken up. -/
def startPermits (f : Fleet) : Nat :=
  f.jobs.total fun id j => j.startLoad + if j.startWaits then f.gate.granted.count id else 0

/-- The permits that stops under way carry. -/
def stopPermits (f : Fleet) : Nat := f.jobs.total fun _ j => j.stopLoad

/-- The permits that callers hold, or were granted and have not taken up. -/
def callerPermits (f : Fleet) : Nat :=
  (f.lent.total fun _ _ => 1) + f.jobs.total fun id j => if j.calls then f.gate.granted.count id else 0

/-- How many sources count as running. -/
def runningCount (f : Fleet) : Nat := f.states.total fun _ s => if s.lifecycle = .running then 1 else 0

/-- The permits that jobs carry. -/
def jobPermits (f : Fleet) : Nat := f.jobs.total fun _ j => loadOf j.start? j.stop?

/-- The permits that someone holds. -/
def heldPermits (f : Fleet) : Nat := f.statePermits + f.jobPermits + f.lent.total fun _ _ => 1

variable {f g : Fleet}

/-! ## What each holder adds -/

theorem weight_states (f : Fleet) (key : String) :
    (f.states.weight (fun _ s => s.permit.toNat) key) = f.holds (.source key) := by
  simp only [KeyMap.weight, holds, life, state?]
  cases f.states.get? key <;> rfl

theorem weight_jobs (f : Fleet) (id : Nat) :
    (f.jobs.weight (fun _ j => loadOf j.start? j.stop?) id) = f.holds (.job id) := by
  simp only [KeyMap.weight, holds, start?, stop?]
  cases f.jobs.get? id <;> rfl

theorem weight_lent (f : Fleet) (name : String) : (f.lent.weight (fun _ _ => 1) name) = f.holds (.caller name) := by
  simp only [KeyMap.weight, holds, isLent, KeyMap.contains]
  cases f.lent.get? name <;> rfl

theorem statePermits_update {k : String} (h : ∀ j, j ≠ k → g.holds (.source j) = f.holds (.source j)) :
    g.statePermits + f.holds (.source k) = f.statePermits + g.holds (.source k) := by
  have := KeyMap.total_update (m := f.states) (n := g.states) (w := fun _ s => s.permit.toNat) fun j hj => by
    rw [weight_states, weight_states, h j hj]
  rwa [weight_states, weight_states] at this

theorem jobPermits_update {i : Nat} (h : ∀ j, j ≠ i → g.holds (.job j) = f.holds (.job j)) :
    g.jobPermits + f.holds (.job i) = f.jobPermits + g.holds (.job i) := by
  have := KeyMap.total_update (m := f.jobs) (n := g.jobs) (w := fun _ j => loadOf j.start? j.stop?) fun j hj => by
    rw [weight_jobs, weight_jobs, h j hj]
  rwa [weight_jobs, weight_jobs] at this

theorem lent_update {c : String} (h : ∀ b, b ≠ c → g.holds (.caller b) = f.holds (.caller b)) :
    (g.lent.total fun _ _ => 1) + f.holds (.caller c) = (f.lent.total fun _ _ => 1) + g.holds (.caller c) := by
  have := KeyMap.total_update (m := f.lent) (n := g.lent) (w := fun _ _ => 1) fun b hb => by
    rw [weight_lent, weight_lent, h b hb]
  rwa [weight_lent, weight_lent] at this

/-- Where only a source and a job hold more or less than before, the sum follows them. -/
theorem heldPermits_step {i : Nat} {k : String} (h : ∀ a, a ≠ .job i → a ≠ .source k → g.holds a = f.holds a) :
    g.heldPermits + f.holds (.source k) + f.holds (.job i) =
      f.heldPermits + g.holds (.source k) + g.holds (.job i) := by
  have hs := statePermits_update (k := k) fun j hj => h (.source j) nofun (by simpa using hj)
  have hj := jobPermits_update (i := i) fun j hj => h (.job j) (by simpa using hj) nofun
  have hl := lent_update (c := "") fun b _ => h (.caller b) nofun nofun
  rw [h (.caller "") nofun nofun] at hl
  unfold heldPermits
  omega

/-- Where only one holds more or less than before, the sum follows. -/
theorem heldPermits_update {a : Holder} (h : ∀ b, b ≠ a → g.holds b = f.holds b) :
    g.heldPermits + f.holds a = f.heldPermits + g.holds a := by
  cases a with
  | source k =>
    have := heldPermits_step (i := 0) fun b _ hb => h b hb
    rw [h (.job 0) nofun] at this
    omega
  | job i =>
    have := heldPermits_step (k := "") fun b hb _ => h b hb
    rw [h (.source "") nofun] at this
    omega
  | caller c =>
    have hs := statePermits_update (k := "") fun j _ => h (.source j) nofun
    have hj := jobPermits_update (i := 0) fun j _ => h (.job j) nofun
    have hl := lent_update (c := c) fun b hb => h (.caller b) (by simpa using hb)
    rw [h (.source "") nofun] at hs
    rw [h (.job 0) nofun] at hj
    unfold heldPermits
    omega

theorem heldPermits_eq (h : ∀ a, g.holds a = f.holds a) : g.heldPermits = f.heldPermits := by
  have := heldPermits_update (a := .source "") fun b _ => h b
  rw [h] at this
  omega

/-! ## Balance -/

theorem JobStep.settings {id : Nat} {j j' : Job} {m : Move} (h : JobStep f id j m g j') : g.settings = f.settings := by
  cases h with
  | start _ h =>
    rcases h.agenda with ⟨h, -⟩ | ⟨rfl, -⟩ | ⟨rfl, -⟩
    · exact h.settings
    · rfl
    · rfl
  | stop _ h => exact h.agenda.settings
  | changing h => exact h.settings
  | changed h => exact h.settings
  | @lent holder source _ gate => exact (agenda_lend { f with gate := gate } holder source).settings
  | @granted holder source _ gate => exact (agenda_lend { f with gate := gate } holder source).settings
  | _ => rfl

theorem Performed.settings {d : Deed} (h : Performed f d g) : g.settings = f.settings := by
  cases h with
  | @job id _ _ j' g _ h => exact (framed_putJob g id j').settings.trans h.settings
  | @noticed _ generation key _ _ code => exact (agenda_recordCrash f key generation code).settings
  | @submitted r =>
    refine (framed_submit f r).settings.trans ?_
    unfold prepare
    split <;> rfl
  | @borrowed holder source gate => exact (agenda_lend { f with gate := gate } holder source).settings
  | @gaveBack holder => exact (agenda_takeBack f holder).settings
  | quiet _ h => exact h.settings
  | _ => rfl

theorem Lends.balanced {γ : Gate} {name : String} (hc : γ.capacity = f.gate.capacity)
    (hfree : γ.free + 1 = f.gate.free) (hl : Lends f γ g name) :
    g.gate.capacity = f.gate.capacity ∧ g.gate.free + g.heldPermits = f.gate.free + f.heldPermits := by
  have hu := heldPermits_update hl.others
  have hn := hl.now
  rcases hl.gate with ⟨h₀, hg⟩ | ⟨h₁, hg⟩
  · rw [hg]
    exact ⟨hc, by omega⟩
  · rw [hg, Gate.free_release, Gate.capacity_release]
    exact ⟨hc, by omega⟩

/-- Whatever a deed does at the gate, the capacity stays, and what becomes free or ceases to be free is what the holders
lose or gain. -/
theorem DoorMove.balanced (h : DoorMove f g) :
    g.gate.capacity = f.gate.capacity ∧ g.gate.free + g.heldPermits = f.gate.free + f.heldPermits := by
  cases h with
  | quiet hg hh hw => exact ⟨by rw [hg], by rw [hg, heldPermits_eq hh]⟩
  | released a hg ha ha' hh hw =>
    have hu := heldPermits_update hh
    refine ⟨by rw [hg]; exact f.gate.capacity_release, ?_⟩
    rw [hg, f.gate.free_release]
    omega
  | borrowed name γ hγ hl hw =>
    obtain ⟨hc, hfree, -, -⟩ := Gate.tryAcquire_eq hγ
    exact hl.balanced hc hfree
  | collected id name γ hγ hl hw =>
    obtain ⟨hc, hfree, -⟩ := Gate.collect_eq hγ
    exact hl.balanced hc hfree
  | step id key hh hw hs =>
    have hu := heldPermits_step hh
    generalize f.gate = γ at hs
    generalize g.gate = γ' at hs
    generalize f.holds (.source key) = b at hs hu
    generalize g.holds (.source key) = b' at hs hu
    generalize f.holds (.job id) = n at hs hu
    generalize g.holds (.job id) = n' at hs hu
    generalize f.waits id = v at hs
    generalize g.waits id = v' at hs
    cases hs with
    | still => exact ⟨rfl, by omega⟩
    | acquired h =>
      obtain ⟨hc, hfree, -, -⟩ := Gate.tryAcquire_eq h
      exact ⟨hc, by omega⟩
    | joined =>
      refine ⟨rfl, ?_⟩
      rw [Gate.free_enqueue]
      omega
    | granted h =>
      obtain ⟨hc, hfree, -⟩ := Gate.collect_eq h
      exact ⟨hc, by omega⟩
    | withdrew =>
      refine ⟨γ.capacity_withdraw id, ?_⟩
      rw [Gate.free_withdraw]
      omega
    | released =>
      refine ⟨γ.capacity_release, ?_⟩
      rw [Gate.free_release]
      omega
    | recorded => exact ⟨rfl, by omega⟩
    | taken => exact ⟨rfl, by omega⟩

/-- The permits that are free and those that someone holds add up to the capacity. -/
theorem Reachable.balanced (h : f.Reachable) :
    f.gate.capacity = max f.settings.captureCapacity 1 ∧ f.gate.free + f.heldPermits = f.gate.capacity := by
  induction h with
  | fresh => exact ⟨rfl, rfl⟩
  | perform hr hd ih =>
    obtain ⟨hc, hb⟩ := (hr.doorMove hd).balanced
    rw [hc, hb, (performed hd).settings]
    exact ih

/-! ## Conservation -/

/-- Permits that were granted and not taken up belong to starts and callers that wait for them. -/
theorem Tickets.length_granted (h : f.Tickets) :
    f.gate.granted.length = (f.jobs.total fun id j => if j.startWaits then f.gate.granted.count id else 0) +
      f.jobs.total fun id j => if j.calls then f.gate.granted.count id else 0 := by
  have hn : f.gate.granted.Nodup := (List.nodup_append.mp h.nodup).2.1
  have hc := f.jobs.total_count (p := Job.waits) hn fun id hid => by
    have hw := h.waits (List.mem_append_right _ hid)
    exact (Option.any_eq_true _ _).mp hw
  rw [← hc, ← KeyMap.total_add]
  exact KeyMap.total_congr fun id j _ => j.ite_waits _

theorem jobPermits_eq (f : Fleet) :
    f.jobPermits = (f.jobs.total fun _ j => j.startLoad) + f.jobs.total fun _ j => j.stopLoad := by
  rw [← KeyMap.total_add]
  rfl

/-- The sources that count as running are those that hold a permit. -/
theorem Records.runningCount_eq (h : f.Records) : f.runningCount = f.statePermits :=
  KeyMap.total_congr fun key s hs => by
    have hsound : s.life.Sound := life_of_state? hs ▸ (h key).sound
    have hp : s.permit = true ↔ s.lifecycle = .running := by
      rw [show s.permit = s.tracked.isSome from hsound.permit]
      exact hsound.running.symm
    by_cases hr : s.lifecycle = .running
    · rw [if_pos hr, hp.mpr hr]
      rfl
    · rw [if_neg hr, Bool.eq_false_iff.mpr fun hs => hr (hp.mp hs)]
      rfl

theorem AtRest.startPermits_eq_zero (h : f.AtRest) : f.startPermits = 0 :=
  KeyMap.total_eq_zero fun id j hj => by
    cases j with
    | done => rfl
    | _ => cases h id _ hj

theorem AtRest.stopPermits_eq_zero (h : f.AtRest) : f.stopPermits = 0 :=
  KeyMap.total_eq_zero fun id j hj => by
    cases j with
    | done => rfl
    | _ => cases h id _ hj

theorem AtRest.callerPermits_eq_zero (h : f.AtRest) (hl : ∀ name, f.isLent name = false) : f.callerPermits = 0 := by
  have h₁ : (f.lent.total fun _ _ => 1) = 0 := KeyMap.total_eq_zero fun name s hs => by
    have := hl name
    rw [isLent, KeyMap.contains, hs] at this
    cases this
  have h₂ : (f.jobs.total fun id j => if j.calls then f.gate.granted.count id else 0) = 0 :=
    KeyMap.total_eq_zero fun id j hj => by
      cases j with
      | done => rfl
      | _ => cases h id _ hj
  rw [callerPermits, h₁, h₂]

/-- A source that does not run holds no permit. -/
theorem RecordOf.holds_eq_zero {key : String} (h : f.RecordOf key) (hl : (f.life key).lifecycle ≠ .running) :
    f.holds (.source key) = 0 := by
  rw [holds, h.sound.permit, untracked_of_not_running h.sound hl]
  rfl

/-- The end of the encoder that a source tracks is noticed as a crash: the source counts as crashed, and its permit is
given back. -/
theorem Reachable.released_by_crash (h : f.Reachable) {key : String} {t : Tracked} (ht : f.tracked? key = some t)
    (hd : f.perform? (.event (.notice t.encoder)) = some g) :
    (g.life key).lifecycle = .crashed ∧ g.holds (.source key) = 0 ∧ g.gate = f.gate.release := by
  obtain ⟨log, hlog⟩ := h.chronicle
  have hsound := (h.records key).sound
  rw [tracked?_eq] at ht
  have hgen : t.generation = (f.life key).generation := hsound.generation ht
  -- Nobody has asked the watcher of an encoder that is tracked for a kill.
  have hkeeper : f.keeper? t.encoder = some (.watcher key (f.life key).generation false false) :=
    ((hlog.agrees.accounted t.encoder).of_source (has_source.mpr ⟨t, by rw [tracked?_eq, ht], rfl⟩)).1
  have hcrash : f.happening? (.event (.notice t.encoder)) = some (.crashed t.encoder key (f.life key).generation) := by
    simp [happening?, happeningOfEnd, hkeeper, tracked?_eq, ht, hgen]
  obtain ⟨hlife, hgate⟩ := h.life_of_crashed hd hcrash
  have hpermit : (f.life key).permit = true := by
    rw [hsound.permit, ht]
    rfl
  exact ⟨congrArg Life.lifecycle hlife, congrArg (fun l => l.permit.toNat) hlife, hgate.trans (if_pos hpermit)⟩

/-- At every moment the permits that are available and those that sources, starts, stops and callers have add up to the
capacity, so no more sources run than it allows. Whoever ceases to hold a permit, on whatever way, has given it back
once or handed it over to another, and with nothing in flight all permits but those of running sources are available. A
source that does not run holds no permit; so a crash, which makes its source cease to run, gives the permit back. -/
theorem permits_conserved (h : f.Reachable) :
    f.gate.available + f.statePermits + f.startPermits + f.stopPermits + f.callerPermits =
      max f.settings.captureCapacity 1 ∧
    f.runningCount ≤ max f.settings.captureCapacity 1 ∧
    (∀ d g, f.perform? d = some g → ∀ a, g.holds a < f.holds a →
      g.gate = f.gate.release ∧ (∀ b, b ≠ a → g.holds b = f.holds b) ∨
        g.gate = f.gate ∧ ∃ b, b ≠ a ∧ f.holds b = 0 ∧ g.holds b = 1 ∧
          ∀ c, c ≠ a → c ≠ b → g.holds c = f.holds c) ∧
    (f.AtRest → (∀ name, f.isLent name = false) →
      f.gate.available = max f.settings.captureCapacity 1 - f.runningCount) ∧
    (∀ key s, f.state? key = some s → s.lifecycle ≠ .running → f.holds (.source key) = 0) ∧
    (∀ key t g, f.tracked? key = some t → f.perform? (.event (.notice t.encoder)) = some g →
      (g.life key).lifecycle = .crashed ∧ g.holds (.source key) = 0 ∧ g.gate = f.gate.release) := by
  obtain ⟨hc, hb⟩ := h.balanced
  have hg := h.tickets.length_granted
  have hj := f.jobPermits_eq
  have hstart : f.startPermits = (f.jobs.total fun _ j => j.startLoad) +
      f.jobs.total fun id j => if j.startWaits then f.gate.granted.count id else 0 := KeyMap.total_add _ _ _
  have hsum : f.gate.available + f.statePermits + f.startPermits + f.stopPermits + f.callerPermits =
      max f.settings.captureCapacity 1 := by
    rw [← hc, ← hb, hstart]
    simp only [Gate.free, heldPermits, stopPermits, callerPermits]
    omega
  have hrun := h.records.runningCount_eq
  refine ⟨hsum, by omega, fun d g hd a ha => (h.doorMove hd).handover ha, fun hrest hlent => ?_, fun key s hs hl => ?_,
    fun key t g ht hd => h.released_by_crash ht hd⟩
  · have h₁ := hrest.startPermits_eq_zero
    have h₂ := hrest.stopPermits_eq_zero
    have h₃ := hrest.callerPermits_eq_zero hlent
    omega
  · exact (h.records key).holds_eq_zero (by rwa [life_of_state? hs])

/-- The stop of a camera has just given its permit back, and the start of another one was granted it without having
taken it up: no permit is available, and the one that there is counts as carried by that start. And where the encoder of
a camera has ended by itself, its end is about to be noticed while the camera holds the only permit: once it is, the
camera is crashed, holds none, and the permit is available. -/
theorem permits_conserved_at_grant_and_crash :
    (∃ f : Fleet, f.Reachable ∧ f.gate.available = 0 ∧ f.gate.granted = [1] ∧ f.startPermits = 1 ∧
      f.gate.available + f.statePermits + f.startPermits + f.stopPermits + f.callerPermits =
        max f.settings.captureCapacity 1) ∧
    ∃ f g : Fleet, f.Reachable ∧ f.holds (.source "cam") = 1 ∧ f.gate.available = 0 ∧
      f.perform? (.event (.notice 0)) = some g ∧ (g.life "cam").lifecycle = .crashed ∧ g.holds (.source "cam") = 0 ∧
        g.gate = f.gate.release ∧ g.gate.available = 1 := by
  constructor
  · obtain ⟨f, hf, h⟩ := exists_of_run
      (p := fun f => decide (f.gate.available = 0) && decide (f.gate.granted = [1]) && decide (f.startPermits = 1))
      ([.submit (.start camera), .submit (.start { camera with source := .new "door" .url "http://door" }),
          .submit (.stop (some "cam") false)] ++
        goesOn 0 12 ++ goesOn 1 8 ++ goesOn 2 2 ++ [.event (.strike 0), .event (.notice 0)] ++ goesOn 2 2)
      (by decide +kernel)
    simp only [Bool.and_eq_true, decide_eq_true_eq] at h
    obtain ⟨⟨h₁, h₂⟩, h₃⟩ := h
    exact ⟨f, hf, h₁, h₂, h₃, (permits_conserved hf).1⟩
  · obtain ⟨f, hf, h⟩ := exists_of_run
      (p := fun f => decide (f.holds (.source "cam") = 1) && decide (f.gate.available = 0) &&
        decide (f.gate.release.available = 1) && (f.perform? (.event (.notice 0))).isSome &&
        (f.tracked? "cam").any fun t => decide (t.encoder = 0))
      ([.submit (.start camera)] ++ goesOn 0 14 ++ [.exit 0 (some 1)]) (by decide +kernel)
    simp only [Bool.and_eq_true, decide_eq_true_eq] at h
    obtain ⟨⟨⟨⟨hone, hbusy⟩, hfree⟩, hstep⟩, htracked⟩ := h
    obtain ⟨g, hg⟩ := Option.isSome_iff_exists.mp hstep
    obtain ⟨t, ht, hn⟩ := (Option.any_eq_true _ _).mp htracked
    obtain ⟨-, -, -, -, -, hcrash⟩ := permits_conserved hf
    obtain ⟨hlife, hnone, hgate⟩ := hcrash "cam" t g ht (by rw [of_decide_eq_true hn]; exact hg)
    exact ⟨f, g, hf, hone, hbusy, hg, hlife, hnone, hgate, by rw [hgate]; exact hfree⟩

end Fleet

end EncoderFleet
