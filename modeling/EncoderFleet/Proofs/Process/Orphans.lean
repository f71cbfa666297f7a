import EncoderFleet.Proofs.Fleet.Records
import EncoderFleet.Proofs.Process.Visits

/-!
# Which encoders a start takes for orphans

Before it launches, a start asks for the kill of every process that runs the encoder with the signature of its source.
It tracks no encoder for its own source by then, and it does not look at what other sources track. So of the encoders
that are tracked it spares those of its own source, and all others that do not carry the signature
(`tracked_cleared_iff`). One that does carry it is killed under the source that tracks it
(`tracked_encoder_cleared_away`).
-/

namespace EncoderFleet

/-- The pids that a cleanup asks to kill are those of encoders of the source that it does not spare. -/
theorem ProcessTable.mem_orphans {t : ProcessTable} {executable : String} {signature : List String}
    {tracked : Option UInt32} {pid : UInt32} : pid ∈ t.orphans executable signature tracked ↔
      ∃ e ∈ t.processes, isEncoder executable signature e = true ∧ t.spares tracked e = false ∧ e.pid = pid := by
  simp only [orphans, List.mem_map, List.mem_filter, Bool.not_eq_true', and_assoc]

namespace Fleet

/-- How an encoder stands in a process table, as long as it runs. -/
def entry? (f : Fleet) (n : Nat) : Option Entry :=
  (f.encoder? n).bind fun e =>
    if e.ended.isNone then (f.pid? n).map fun pid => .new pid (e.command.program :: e.command.args) else none

/-- The encoders that run, as they stand in a process table. -/
def entries (f : Fleet) : List Entry := (List.range f.encoders.length).filterMap f.entry?

/-- A process table lists each encoder that runs, and under its pid nothing else. -/
def ListedIn (f : Fleet) (t : ProcessTable) : Prop :=
  ∀ x ∈ f.entries, x ∈ t.processes ∧ ∀ y ∈ t.processes, y.pid = x.pid → y = x

instance (f : Fleet) (t : ProcessTable) : Decidable (f.ListedIn t) :=
  inferInstanceAs (Decidable (∀ x ∈ f.entries, x ∈ t.processes ∧ ∀ y ∈ t.processes, y.pid = x.pid → y = x))

/-- A start is about to clear away orphans, in a process table that can be read and lists the encoders which run. -/
structure Clearing (f : Fleet) (id : Nat) (o : StartOrder) (c : Course) (t : ProcessTable) : Prop where
  start : f.start? id = some (o, .clear c)
  enabled : f.settings.killOrphans = true
  table : f.table = some t
  readable : t.broken = none
  listed : f.ListedIn t

variable {f g : Fleet} {id : Nat} {m : Move} {o : StartOrder} {c : Course} {t : ProcessTable}

theorem mem_entries {n : Nat} {x : Entry} (h : f.entry? n = some x) : x ∈ f.entries := by
  refine List.mem_filterMap.mpr ⟨n, List.mem_range.mpr ?_, h⟩
  obtain ⟨e, he, -⟩ := Option.bind_eq_some_iff.mp h
  exact (List.getElem?_eq_some_iff.mp he).1

theorem table_putJob (f : Fleet) (id : Nat) (j : Job) : (f.putJob id j).table = f.table := by
  unfold putJob
  split
  · split <;> rfl
  · rfl

/-- A start that clears away orphans asks for the kill of all encoders that carry its signature. -/
theorem Clearing.table_of_step (h : f.Clearing id o c t) (hd : f.perform? (.event (.job id m)) = some g) :
    g.table = some { t with asked := t.asked ++ t.orphans f.executable c.command.signature none } := by
  obtain ⟨g', r, j, step, rfl, -⟩ := startStep_of_stepJob hd h.start
  cases step with
  | cleared =>
    rw [table_putJob]
    simp only [clearOrphans, h.table, h.enabled, if_true, ProcessTable.cleanup_eq h.readable]

/-- Of the encoders that are tracked and run, a start that clears away orphans asks for the kill of exactly those that
carry the signature of its source and do not have the pid of this process. Each of them is tracked by another source
than that of the start. -/
theorem tracked_cleared_iff (hr : f.Reachable) (h : f.Clearing id o c t)
    (hd : f.perform? (.event (.job id m)) = some g) : ∃ pids, g.table = some { t with asked := t.asked ++ pids } ∧
      ∀ key s x, f.tracked? key = some s → f.entry? s.encoder = some x → key ≠ o.key ∧
        (x.pid ∈ pids ↔ ProcessTable.isEncoder f.executable c.command.signature x = true ∧ x.pid ≠ t.self) := by
  refine ⟨_, h.table_of_step hd, fun key s x hs hx => ⟨?_, ?_⟩⟩
  · -- A start that clears away orphans has seen to it that its source tracks no encoder.
    rintro rfl
    rw [tracked?_eq, hr.records.untracked h.start rfl] at hs
    cases hs
  · obtain ⟨hmem, honly⟩ := h.listed x (mem_entries hx)
    have hspares : ∀ y : Entry, t.spares none y = false ↔ y.pid ≠ t.self := fun y => by simp [ProcessTable.spares]
    rw [ProcessTable.mem_orphans]
    constructor
    · rintro ⟨y, hy, hencoder, hspared, hpid⟩
      obtain rfl := honly y hy hpid
      exact ⟨hencoder, (hspares y).mp hspared⟩
    · rintro ⟨hencoder, hself⟩
      exact ⟨x, hmem, hencoder, (hspares x).mpr hself, rfl⟩

/-! ## Two cameras -/

/-- A fleet with room for two cameras, next to a process table. -/
def roomy : Fleet :=
  fresh { captureCapacity := 2 } .linux {} (.memory {}) {} .empty (.planned (.runs {}))
    (some { processes := [], self := 7 })

/-- A start of a camera. -/
def cameraAt (id locator : String) : StartOrder := { source := .new id .url locator, flags := { flv := true } }

/-- One camera runs and is listed, and the start of another is about to clear away orphans. -/
def secondCamera (locator : String) : Option Fleet :=
  (roomy.performAll? ([.submit (.start (cameraAt "front" "http://camera"))] ++ goesOn 0 14)).bind fun f =>
    f.performAll? ([.processes { processes := f.entries, self := 7 }, .submit (.start (cameraAt "back" locator))] ++
      goesOn 1 6)

/-- Whether a job is a start about to clear away orphans among the encoders that are listed, and a test holds of its
course and the process table. -/
def isClearing (f : Fleet) (id : Nat) (test : Course → ProcessTable → Bool) : Bool :=
  match f.start? id, f.table with
  | some (_, .clear c), some t =>
    f.settings.killOrphans && t.broken.isNone && decide (f.ListedIn t) && test c t
  | _, _ => false

theorem clearing_of_isClearing {test : Course → ProcessTable → Bool} (h : f.isClearing id test = true) :
    ∃ o c t, f.Clearing id o c t ∧ test c t = true := by
  unfold isClearing at h
  split at h
  · next o c t hs ht =>
    simp only [Bool.and_eq_true, Option.isNone_iff_eq_none, decide_eq_true_eq] at h
    obtain ⟨⟨⟨hk, hb⟩, hl⟩, htest⟩ := h
    exact ⟨o, c, t, ⟨hs, hk, ht, hb, hl⟩, htest⟩
  · cases h

theorem reachable_secondCamera {locator : String} (h : secondCamera locator = some f) : f.Reachable := by
  obtain ⟨f', hf', hf⟩ := Option.bind_eq_some_iff.mp h
  have hr : roomy.Reachable := .fresh ..
  exact (hr.performAll hf').performAll hf

/-- The two cameras have addresses of their own: the start of the second spares the encoder of the first. -/
theorem other_camera_spared : ∃ f g : Fleet, ∃ o c t s x pids, f.Reachable ∧ f.Clearing 1 o c t ∧
    f.perform? (.event (.job 1 .proceed)) = some g ∧ f.tracked? "front" = some s ∧ f.entry? s.encoder = some x ∧
    g.table = some { t with asked := t.asked ++ pids } ∧ x.pid ∉ pids := by
  have hrun : (secondCamera "http://porch").any (fun f =>
      f.isClearing 1 (fun c t => (f.tracked? "front").any fun s => (f.entry? s.encoder).any fun x =>
        !ProcessTable.isEncoder f.executable c.command.signature x) &&
      (f.perform? (.event (.job 1 .proceed))).isSome) = true := by
    decide +kernel
  obtain ⟨f, hf, h⟩ := (Option.any_eq_true _ _).mp hrun
  obtain ⟨hclear, hstep⟩ := (Bool.and_eq_true_iff).mp h
  obtain ⟨g, hg⟩ := Option.isSome_iff_exists.mp hstep
  obtain ⟨o, c, t, hc, htest⟩ := clearing_of_isClearing hclear
  obtain ⟨s, hs, htest⟩ := (Option.any_eq_true _ _).mp htest
  obtain ⟨x, hx, hother⟩ := (Option.any_eq_true _ _).mp htest
  have hr := reachable_secondCamera hf
  obtain ⟨pids, htable, hiff⟩ := tracked_cleared_iff hr hc hg
  refine ⟨f, g, o, c, t, s, x, pids, hr, hc, hg, hs, hx, htable, fun hmem => ?_⟩
  have hsame := ((hiff "front" s x hs hx).2.mp hmem).1
  rw [hsame] at hother
  cases hother

/-- The two cameras have one address, under two ids: the start of the second asks for the kill of the encoder that the
first tracks. -/
theorem tracked_encoder_cleared_away : ∃ f g : Fleet, ∃ o c t s pid, f.Reachable ∧ f.Clearing 1 o c t ∧
    f.perform? (.event (.job 1 .proceed)) = some g ∧ f.isRunning "front" = true ∧ f.tracked? "front" = some s ∧
    f.pid? s.encoder = some pid ∧ g.table = some { t with asked := t.asked ++ [pid] } := by
  have hrun : (secondCamera "http://camera").any (fun f =>
      f.isClearing 1 (fun c t => f.isRunning "front" && (f.tracked? "front").any fun s =>
        (f.pid? s.encoder).any fun pid => decide (t.orphans f.executable c.command.signature none = [pid])) &&
      (f.perform? (.event (.job 1 .proceed))).isSome) = true := by
    decide +kernel
  obtain ⟨f, hf, h⟩ := (Option.any_eq_true _ _).mp hrun
  obtain ⟨hclear, hstep⟩ := (Bool.and_eq_true_iff).mp h
  obtain ⟨g, hg⟩ := Option.isSome_iff_exists.mp hstep
  obtain ⟨o, c, t, hc, htest⟩ := clearing_of_isClearing hclear
  obtain ⟨hrunning, htest⟩ := (Bool.and_eq_true_iff).mp htest
  obtain ⟨s, hs, htest⟩ := (Option.any_eq_true _ _).mp htest
  obtain ⟨pid, hpid, horphans⟩ := (Option.any_eq_true _ _).mp htest
  refine ⟨f, g, o, c, t, s, pid, reachable_secondCamera hf, hc, hg, hrunning, hs, hpid, ?_⟩
  rw [hc.table_of_step hg, of_decide_eq_true horphans]

end Fleet

end EncoderFleet
