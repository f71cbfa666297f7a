import EncoderFleet.Proofs.Fleet.Fates
import EncoderFleet.Proofs.Fleet.Streams
import EncoderFleet.Proofs.Flv.Cuts

/-!
# What pumps publish

A pump comes into being when a start opens the hub of its encoder, and from then on nothing changes it but that it reads
(`perform_pumpStays`). An encoder gets no second pump: no other start answers for it, and its own is past that step
(`Reachable.unplugged`, `Past.perform`). So whatever else happens to the fleet, the pump of an FLV encoder feeds one
decoder with all that it reads (`Pumped.decodes`), and what it publishes depends on the bytes alone, not on the pieces
that they came in (`units_of_bytes`).
-/

namespace EncoderFleet

theorem Encoder.pump_finish (e : Encoder) (code : ExitCode) : (e.finish code).pump = e.pump := by
  unfold Encoder.finish
  split <;> rfl

theorem Encoder.pump_kill (e : Encoder) : e.kill.pump = e.pump := by
  unfold Encoder.kill
  dsimp only
  split
  · exact Encoder.pump_finish ..
  · rfl

theorem Encoder.pump_askKill (e : Encoder) : e.askKill.pump = e.pump := by
  unfold Encoder.askKill
  split <;> rfl

namespace Fleet

/-- The pump of an encoder. -/
def pump? (f : Fleet) (n : Nat) : Option Pump := (f.encoder? n).bind Encoder.pump

/-- The pump of an encoder is what it was, or is gone. -/
def PumpStays (f g : Fleet) (n : Nat) : Prop := g.pump? n = f.pump? n ∨ g.pump? n = none

variable {f g h : Fleet} {n : Nat}

/-! ## Pumps after an operation -/

theorem PumpStays.of_encoders (he : g.encoders = f.encoders) : f.PumpStays g n :=
  .inl (by rw [pump?, encoder?, he]; rfl)

theorem PumpStays.trans (hg : f.PumpStays g n) (hh : g.PumpStays h n) : f.PumpStays h n := by
  rcases hh with hh | hh
  · rcases hg with hg | hg
    · exact .inl (hh.trans hg)
    · exact .inr (hh.trans hg)
  · exact .inr hh

theorem pump?_modifyEncoder (f : Fleet) (m n : Nat) (change : Encoder → Encoder) : (f.modifyEncoder m change).pump? n =
    if n = m then (f.encoder? n).bind fun e => (change e).pump else f.pump? n := by
  rw [pump?, encoder?_modifyEncoder]
  split
  · next hn => rw [hn, Option.bind_map]; rfl
  · rfl

/-- A change of an encoder that leaves it its pump or takes it away. -/
theorem pumpStays_modify (f : Fleet) (m : Nat) {change : Encoder → Encoder}
    (hc : ∀ e, (change e).pump = e.pump ∨ (change e).pump = none) : f.PumpStays (f.modifyEncoder m change) n := by
  unfold PumpStays
  rw [pump?_modifyEncoder]
  split
  · rw [pump?]
    cases f.encoder? n with
    | none => exact .inl rfl
    | some e => exact hc e
  · exact .inl rfl

theorem pumpStays_stopPump (f : Fleet) (m : Nat) : f.PumpStays (f.stopPump m) n := by
  unfold stopPump
  split
  · exact .of_encoders rfl
  · exact PumpStays.trans (pumpStays_modify f m fun _ => .inr rfl) (.of_encoders rfl)

theorem StopStep.pumpStays {o : StopOrder} {p : StopPlace} {m : Move} {r : After StopPlace (Option String)}
    (step : StopStep f o p m g r) : f.PumpStays g n := by
  cases step with
  | taken => exact pumpStays_modify (f.putState _ _) _ fun e => .inl e.pump_askKill
  | @released t =>
    refine (pumpStays_stopPump f t.tracked.encoder).trans (.of_encoders ?_)
    unfold letGo
    dsimp only
    split <;> rfl
  | dropped => exact .of_encoders (by split <;> rfl)
  | recorded => exact .of_encoders (sameStreams_recordStop ..).encoders
  | _ => exact .of_encoders rfl

theorem pumpStays_interrupt (f : Fleet) (o : StartOrder) (b : Behaviour) : f.PumpStays (f.interrupt o b) n := by
  unfold interrupt
  split
  · exact .of_encoders rfl
  · next manual _ =>
    refine PumpStays.trans ?_ (takeEncoder_cases _ _).pumpStays
    exact .of_encoders (by split <;> rfl)

/-- A new encoder has no pump. -/
theorem pumpStays_append {e : Encoder} (he : e.pump = none) (hg : g.encoders = f.encoders ++ [e]) :
    f.PumpStays g n := by
  unfold PumpStays pump? encoder?
  rw [hg]
  rcases Nat.lt_trichotomy n f.encoders.length with hn | rfl | hn
  · exact .inl (by rw [List.getElem?_append_left hn])
  · exact .inr (by simp [he])
  · refine .inr ?_
    rw [List.getElem?_eq_none (by rw [List.length_append, List.length_singleton]; omega)]
    rfl

/-- Only where it opens a hub does a start change the pump of an encoder, or give it one. -/
theorem StartStep.pumpStays {id : Nat} {o : StartOrder} {p : StartPlace} {m : Move} {r : After StartPlace StartResult}
    (step : StartStep f id o p m g r) (hp : ∀ c, p ≠ .openHub c n) : f.PumpStays g n := by
  cases step with
  | retiring step => exact step.pumpStays
  | retired step => exact step.pumpStays
  | cleared => exact .of_encoders (sameStreams_clearOrphans ..).encoders
  | madeWay => exact .of_encoders (sameStreams_makeWay ..).encoders
  | @noWay c => exact .of_encoders (sameStreams_makeWay f c.command).encoders
  | @launched c b => exact (pumpStays_interrupt f o b).trans (pumpStays_append rfl rfl)
  | @opened c k =>
    have hk : n ≠ k := fun hk => hp c (by rw [hk])
    refine .inl ?_
    unfold openHub
    split
    · dsimp only
      split
      · exact (pump?_modifyEncoder f k n _).trans (if_neg hk)
      · rfl
    · exact (pump?_modifyEncoder f k n _).trans (if_neg hk)
  | @abandoned c k =>
    exact (pumpStays_stopPump f k).trans (pumpStays_modify (f.stopPump k) k fun e => .inl e.pump_kill)
  | committed => exact pumpStays_modify (f.putState _ _) _ fun _ => .inl rfl
  | restored => exact .of_encoders (sameStreams_restoreLife ..).encoders
  | _ => exact .of_encoders rfl

theorem pumpStays_putJob (f : Fleet) (id : Nat) (j : Job) : f.PumpStays (f.putJob id j) n :=
  .of_encoders (sameStreams_putJob f id j).encoders

/-- A step of a job changes a pump only where its start opens the hub of the encoder. -/
theorem pumpStays_stepJob {id : Nat} {m : Move} (hd : f.stepJob id m = some g)
    (hs : ∀ o c, f.start? id ≠ some (o, .openHub c n)) : f.PumpStays g n := by
  unfold stepJob at hd
  obtain ⟨⟨g', j'⟩, hn, rfl⟩ := Option.map_eq_some_iff.mp hd
  refine PumpStays.trans ?_ (pumpStays_putJob g' id j')
  split at hn
  · cases hn
  · cases hn
  · next b hj =>
    cases jobStep_of_stepBatch hn with
    | start hc step =>
      have hstart := start?_of_get? hj
      rw [Job.start?_batch hc] at hstart
      exact step.pumpStays fun c hp => hs _ c (by rw [hstart, hp])
    | _ => exact .of_encoders rfl
  · next s hj =>
    have hw : JobStep _ id _ _ _ _ := jobStep_of_stepSweep hn
    cases hw with
    | stop hc step => exact step.pumpStays
    | _ => exact .of_encoders rfl
  · exact .of_encoders (sameStreams_stepChange hn).encoders
  · exact .of_encoders (sameStreams_stepPermit hn).encoders

/-- A pump that reads leaves other pumps alone. -/
theorem pumpStays_pumpOnce {k : Nat} (hd : f.pumpOnce k = some g) (hk : k ≠ n) : f.PumpStays g n := by
  unfold pumpOnce at hd
  split at hd
  · cases hd
  · split at hd
    · cases hd
    · split at hd
      · split at hd
        · cases hd
          exact pumpStays_stopPump f k
        · cases hd
      · cases hd
        exact .inl ((pump?_modifyEncoder f k n _).trans (if_neg hk.symm))

/-- What changes the pump of an encoder is that it reads, or that a start opens the hub of the encoder. -/
theorem perform_pumpStays {d : Deed} (hd : f.perform? d = some g) (hp : d ≠ .event (.pump n))
    (hs : ∀ id m o c, d = .event (.job id m) → f.start? id ≠ some (o, .openHub c n)) : f.PumpStays g n := by
  cases d with
  | event e =>
    cases e with
    | job id m => exact pumpStays_stepJob hd fun o c => hs id m o c rfl
    | strike k =>
      have hd : f.strike k = some g := hd
      unfold strike at hd
      split at hd
      · cases hd
        exact pumpStays_modify f k fun e => .inl e.pump_kill
      · cases hd
    | notice k =>
      cases performed_of_notice hd with
      | reaped => exact pumpStays_modify f k fun _ => .inl rfl
      | @noticed _ generation key _ _ code =>
        exact (PumpStays.of_encoders (encoders_recordCrash f key generation code)).trans
          (pumpStays_modify _ k fun _ => .inl rfl)
      | quiet hq => cases hq
    | pump k => exact pumpStays_pumpOnce hd fun hk => hp (by rw [hk])
    | pass ms => exact .of_encoders (perform_sameStreams hd rfl).encoders
  | exit k code => cases hd; exact pumpStays_modify f k fun e => .inl (e.pump_finish code)
  | feed k bs => cases hd; exact pumpStays_modify f k fun _ => .inl rfl
  | breakPipe k => cases hd; exact pumpStays_modify f k fun _ => .inl rfl
  | closePipe k => cases hd; exact pumpStays_modify f k fun _ => .inl rfl
  | subscribe id =>
    obtain ⟨r, hr, rfl⟩ := Option.map_eq_some_iff.mp hd
    simp only [subscribe] at hr
    cases hs : f.sources.get? id with
    | none => rw [hs] at hr; cases hr
    | some s => rw [hs] at hr; cases hr; exact .of_encoders rfl
  | receive s => cases hd; exact .of_encoders rfl
  | unsubscribe s => cases hd; exact .of_encoders rfl
  | _ => exact .of_encoders (perform_sameStreams hd rfl).encoders

/-! ## Reading -/

/-- The pump of an encoder, and what it finds to read at once. -/
def reading? (f : Fleet) (n : Nat) : Option (Pump × Bytes) :=
  (f.encoder? n).bind fun e => e.pump.bind fun p =>
    if e.pipe.queue.isEmpty then none else some (p, e.pipe.queue.take f.settings.readChunk)

theorem pump?_of_reading {p : Pump} {bs : Bytes} (hr : f.reading? n = some (p, bs)) : f.pump? n = some p := by
  obtain ⟨e, he, hr⟩ := Option.bind_eq_some_iff.mp hr
  obtain ⟨q, hq, hr⟩ := Option.bind_eq_some_iff.mp hr
  split at hr
  · cases hr
  · cases hr
    rw [pump?, he]
    exact hq

/-- An encoder without a pump is not read from. -/
theorem pumpOnce_of_none (hp : f.pump? n = none) : f.pumpOnce n = none := by
  unfold pumpOnce
  cases he : f.encoder? n with
  | none => rfl
  | some e =>
    rw [pump?, he] at hp
    dsimp only
    rw [show e.pump = none from hp]

/-- What a pump reads goes through its decoder and from there to its hub. -/
theorem pumpOnce_of_reading {p : Pump} {bs : Bytes} (hd : f.pumpOnce n = some g) (hr : f.reading? n = some (p, bs)) :
    g.pump? n = some { p with decoder := (p.decoder.feed f.now bs).2 } ∧
      g.hubs = publishAll f.hubs p.hub (p.decoder.feed f.now bs).1 := by
  obtain ⟨e, he, hr⟩ := Option.bind_eq_some_iff.mp hr
  obtain ⟨q, hq, hr⟩ := Option.bind_eq_some_iff.mp hr
  split at hr
  · cases hr
  · next hne =>
    cases hr
    simp only [pumpOnce, he, hq] at hd
    rw [if_neg hne] at hd
    cases hd
    refine ⟨(pump?_modifyEncoder f n n _).trans ?_, rfl⟩
    rw [if_pos rfl, he]
    rfl

/-- A pump that finds nothing to read can only come to its end. -/
theorem pumpOnce_of_not_reading (hd : f.pumpOnce n = some g) (hr : f.reading? n = none) : g.pump? n = none := by
  unfold pumpOnce at hd
  unfold reading? at hr
  cases he : f.encoder? n with
  | none => rw [he] at hd; cases hd
  | some e =>
    rw [he] at hd hr
    dsimp only [Option.bind_some] at hd hr
    cases hp : e.pump with
    | none => rw [hp] at hd; cases hd
    | some p =>
      rw [hp] at hd hr
      dsimp only [Option.bind_some] at hd hr
      split at hr
      · next hq =>
        rw [if_pos hq] at hd
        split at hd
        · cases hd
          unfold stopPump
          rw [he, Option.bind_some, hp]
          refine (pump?_modifyEncoder f n n _).trans ?_
          rw [if_pos rfl, he]
          rfl
        · cases hd
      · cases hr

/-! ## One pump for each encoder -/

/-- A start that is about to open a hub was so before, or has just launched its encoder. -/
theorem Reachable.openHub_cases {d : Deed} {id : Nat} {o : StartOrder} {c : Course} (h : f.Reachable)
    (hd : f.perform? d = some g) (hg : g.start? id = some (o, .openHub c n)) :
    f.start? id = some (o, .openHub c n) ∨ n = f.encoders.length := by
  rcases (h.worked hd).start?_cases hg with hs | hq | ⟨m, p, g', -, hs, step, -⟩
  · exact .inl hs
  · cases hq
  · cases step with
    | launched => exact .inr (congrArg List.length (encoders_interrupt (h.records.untracked hs rfl) _))

/-- After it has opened the hub, a start stands before its commitment. -/
theorem start?_of_opened {id : Nat} {m : Move} {o : StartOrder} {c : Course}
    (hd : f.perform? (.event (.job id m)) = some g) (hs : f.start? id = some (o, .openHub c n)) :
    g.start? id = some (o, .commit c n) := by
  obtain ⟨g', r, j, step, -, hg⟩ := startStep_of_stepJob hd hs
  cases step with
  | opened => exact hg

/-- As long as a start has not opened the hub of its encoder, that has no pump. -/
theorem Reachable.unplugged {id : Nat} {o : StartOrder} {c : Course} (h : f.Reachable)
    (hs : f.start? id = some (o, .openHub c n)) : f.pump? n = none := by
  induction h generalizing id o c with
  | fresh => cases hs
  | @perform f g d hf hd ih =>
    have hnone : f.pump? n = none := by
      rcases hf.openHub_cases hd hs with hold | rfl
      · exact ih hold
      · simp [pump?, encoder?]
    have hpump : d ≠ .event (.pump n) := by
      rintro rfl
      rw [show f.perform? (.event (.pump n)) = f.pumpOnce n from rfl, pumpOnce_of_none hnone] at hd
      cases hd
    have hother : ∀ j m o c, d = .event (.job j m) → f.start? j ≠ some (o, .openHub c n) := by
      rintro j m o' c' rfl hj
      have hnext := start?_of_opened hd hj
      rcases hf.openHub_cases hd hs with hold | rfl
      · -- Then the start that opens the hub is this one, and is past that now.
        obtain ⟨rfl, -⟩ := hf.owner_unique (owned?_of_start? hold) (owned?_of_start? hj)
        rw [hs] at hnext
        cases hnext
      · have := (hf.owner_unique (owned?_of_start? hj) (owned?_of_start? hj)).2
        omega
    rcases perform_pumpStays hd hpump hother with hg | hg
    · exact hg.trans hnone
    · exact hg

/-- The encoder was launched, and no start is yet to open its hub. -/
def Past (f : Fleet) (n : Nat) : Prop := n < f.encoders.length ∧ ∀ id o c, f.start? id ≠ some (o, .openHub c n)

theorem Past.perform {d : Deed} (h : f.Past n) (hr : f.Reachable) (hd : f.perform? d = some g) : g.Past n := by
  refine ⟨Nat.lt_of_lt_of_le h.1 (hr.encoders_le hd), fun id o c hg => ?_⟩
  rcases hr.openHub_cases hd hg with hs | hn
  · exact h.2 id o c hs
  · have := h.1
    omega

/-- Once the hub of an encoder is open, no start will open it again. -/
theorem Reachable.past_of_opened {id : Nat} {m : Move} {o : StartOrder} {c : Course} (h : f.Reachable)
    (hd : f.perform? (.event (.job id m)) = some g) (hs : f.start? id = some (o, .openHub c n)) : g.Past n := by
  have hlt := (h.owner_unique (owned?_of_start? hs) (owned?_of_start? hs)).2
  refine ⟨Nat.lt_of_lt_of_le hlt (h.encoders_le hd), fun j o' c' hg => ?_⟩
  rcases h.openHub_cases hd hg with hold | rfl
  · obtain ⟨rfl, -⟩ := h.owner_unique (owned?_of_start? hold) (owned?_of_start? hs)
    rw [start?_of_opened hd hs] at hg
    cases hg
  · omega

/-! ## What a pump makes of what it reads -/

/-- A run in which the pump of an encoder reads chunks, each at its time, and publishes units, each to a hub. -/
inductive Pumped (n : Nat) (f : Fleet) : List (Nat × Bytes) → List (Nat × StreamUnit) → Fleet → Prop
  | begun : Pumped n f [] [] f
  | other {cs : List (Nat × Bytes)} {us : List (Nat × StreamUnit)} {d : Deed} {g h : Fleet} (hg : Pumped n f cs us g)
      (hd : g.perform? d = some h) (hn : d = .event (.pump n) → g.reading? n = none) : Pumped n f cs us h
  | read {cs : List (Nat × Bytes)} {us : List (Nat × StreamUnit)} {g h : Fleet} {p : Pump} {bs : Bytes}
      (hg : Pumped n f cs us g) (hd : g.perform? (.event (.pump n)) = some h) (hr : g.reading? n = some (p, bs)) :
      Pumped n f (cs ++ [(g.now, bs)]) (us ++ (p.decoder.feed g.now bs).1.map fun u => (p.hub, u)) h

/-- A pump feeds one decoder with all that it reads, as long as it is there, and publishes to one hub. -/
theorem Pumped.decodes {cs : List (Nat × Bytes)} {us : List (Nat × StreamUnit)} {p : Pump} (h : f.Pumped n cs us g)
    (hr : f.Reachable) (hp : f.Past n) (hf : f.pump? n = none ∨ f.pump? n = some p) :
    g.Reachable ∧ g.Past n ∧ us = (p.decoder.feedAll cs).1.map (fun u => (p.hub, u)) ∧
      (g.pump? n = none ∨ g.pump? n = some ⟨p.hub, (p.decoder.feedAll cs).2⟩) := by
  induction h with
  | begun => exact ⟨hr, hp, rfl, hf⟩
  | @other cs us d g h _ hd hn ih =>
    obtain ⟨hr, hp, hus, hg⟩ := ih
    refine ⟨hr.perform hd, hp.perform hr hd, hus, ?_⟩
    by_cases hpump : d = .event (.pump n)
    · subst hpump
      exact .inl (pumpOnce_of_not_reading hd (hn rfl))
    · rcases perform_pumpStays hd hpump fun id _ o c _ => hp.2 id o c with hsame | hnone
      · rwa [hsame]
      · exact .inl hnone
  | @read cs us g h q bs _ hd hread ih =>
    obtain ⟨hr, hp, hus, hg⟩ := ih
    have hpump := pump?_of_reading hread
    rcases hg with hg | hg
    · rw [hpump] at hg
      cases hg
    · rw [hpump] at hg
      cases hg
      refine ⟨hr.perform hd, hp.perform hr hd, ?_, .inr ?_⟩
      · rw [hus, Decoder.feedAll_append, Decoder.feedAll_singleton, List.map_append]
      · rw [(pumpOnce_of_reading hd hread).1, Decoder.feedAll_append, Decoder.feedAll_singleton]

/-- The pump of an FLV encoder starts out with a new decoder and the hub that is opened for it. -/
theorem pump?_openHub {o : StartOrder} {c : Command} (hc : c.mode = .flv) (hp : f.pump? n = none) :
    (f.openHub o c n).pump? n = none ∨ (f.openHub o c n).pump? n = some ⟨f.hubs.all.length, .flv {} false⟩ := by
  have hpiped : c.mode.piped = true := by rw [hc]; rfl
  unfold openHub
  rw [if_pos hpiped]
  dsimp only
  split
  · next hdec =>
    rw [hc] at hdec
    cases hdec
    have hg := pump?_modifyEncoder f n n fun e => { e with pump := some ⟨f.hubs.all.length, .flv {} false⟩ }
    rw [if_pos rfl] at hg
    cases he : f.encoder? n with
    | none =>
      rw [he] at hg
      exact .inl hg
    | some e =>
      rw [he] at hg
      exact .inr hg
  · exact .inl hp

theorem Reachable.pump?_of_opened {id : Nat} {m : Move} {o : StartOrder} {c : Course} (h : f.Reachable)
    (hs : f.start? id = some (o, .openHub c n)) (hc : c.command.mode = .flv)
    (hd : f.perform? (.event (.job id m)) = some g) :
    g.pump? n = none ∨ g.pump? n = some ⟨f.hubs.all.length, .flv {} false⟩ := by
  obtain ⟨g', r, j, step, rfl, -⟩ := startStep_of_stepJob hd hs
  cases step with
  | opened =>
    rcases pumpStays_putJob (f.openHub o c.command n) id j with hsame | hnone
    · rw [hsame]
      exact pump?_openHub hc (h.unplugged hs)
    · exact .inl hnone

/-- FLV that is decoded yields the same units, however it is cut into chunks, and the decoder can read on after the one
cut if and only if it can after the other, with the same bytes left.

So what the pump of an FLV encoder publishes is a function of the bytes that it has read, from when its hub was opened
and whatever else happened in the meantime. All of it goes to this hub. -/
theorem units_of_bytes :
    (∀ (limit : Nat) (cs ds : List (Nat × Bytes)), Decoder.bytesOf cs = Decoder.bytesOf ds →
      ∃ us failed d₁ d₂, (Decoder.flv { limit := limit } false).feedAll cs = (us, .flv d₁ failed) ∧
        (Decoder.flv { limit := limit } false).feedAll ds = (us, .flv d₂ failed) ∧ (failed = false → d₁ = d₂)) ∧
    ∀ (f g h : Fleet) (id n : Nat) (o : StartOrder) (c : Course) (cs : List (Nat × Bytes))
      (us : List (Nat × StreamUnit)), f.Reachable → f.start? id = some (o, .openHub c n) → c.command.mode = .flv →
      f.perform? (.event (.job id .proceed)) = some g → g.Pumped n cs us h →
      us = ((Decoder.flv {} false).feed 0 (Decoder.bytesOf cs)).1.map (fun u => (f.hubs.all.length, u)) ∧
      ∀ h' p bs, h.reading? n = some (p, bs) → h.perform? (.event (.pump n)) = some h' →
        p.hub = f.hubs.all.length ∧ h'.hubs = publishAll h.hubs p.hub (p.decoder.feed h.now bs).1 := by
  refine ⟨fun limit cs ds => Decoder.feedAll_of_bytes limit, fun f g h id n o c cs us hr hs hc hd hrun => ?_⟩
  obtain ⟨-, -, hus, hpump⟩ := hrun.decodes (hr.perform hd) (hr.past_of_opened hd hs) (hr.pump?_of_opened hs hc hd)
  refine ⟨?_, fun h' p bs hread hd' => ?_⟩
  · have hbytes : Decoder.bytesOf cs = Decoder.bytesOf [(0, Decoder.bytesOf cs)] := (List.append_nil _).symm
    obtain ⟨vs, failed, d₁, d₂, h₁, h₂, -⟩ := Decoder.feedAll_of_bytes _ hbytes
    rw [hus, h₁, ← Decoder.feedAll_singleton, h₂]
  · have hp := pump?_of_reading hread
    rcases hpump with hnone | hsome
    · rw [hp] at hnone
      cases hnone
    · rw [hp] at hsome
      cases hsome
      exact ⟨rfl, (pumpOnce_of_reading hd' hread).2⟩

/-- The beginning of an FLV stream, cut within the header. -/
def flvHead : Bytes × Bytes := ([0x46, 0x4C, 0x56, 1], [5, 0, 0, 0, 9, 0, 0, 0, 0])

/-- Whether a job is a start about to open the hub of encoder `n`, which writes FLV. -/
def opensFlv (f : Fleet) (id n : Nat) : Bool :=
  match f.start? id with
  | some (_, .openHub c m) => decide (m = n ∧ c.command.mode = .flv)
  | _ => false

theorem of_opensFlv {id : Nat} (h : f.opensFlv id n = true) :
    ∃ o c, f.start? id = some (o, .openHub c n) ∧ c.command.mode = .flv := by
  unfold opensFlv at h
  split at h
  · next o c m hs =>
    obtain ⟨rfl, hc⟩ := of_decide_eq_true h
    exact ⟨o, c, hs, hc⟩
  · cases h

/-- Whether an encoder can write bytes that its pump then reads all at once, such that a test holds afterwards. -/
def readsAll (bs : Bytes) (p : Fleet → Bool) (f : Fleet) : Bool :=
  (f.perform? (.feed 0 bs)).any fun g =>
    (g.reading? 0).any (fun r => decide (r.2 = bs)) && (g.perform? (.event (.pump 0))).any p

theorem Pumped.of_readsAll {bs : Bytes} {p : Fleet → Bool} {cs : List (Nat × Bytes)} {us : List (Nat × StreamUnit)}
    (h : f.Pumped 0 cs us g) (hp : readsAll bs p g = true) :
    ∃ t us k, f.Pumped 0 (cs ++ [(t, bs)]) us k ∧ p k = true := by
  obtain ⟨g', hg, hp⟩ := (Option.any_eq_true _ _).mp hp
  obtain ⟨hr, hp⟩ := (Bool.and_eq_true_iff).mp hp
  obtain ⟨⟨q, bs'⟩, hread, hbs⟩ := (Option.any_eq_true _ _).mp hr
  obtain ⟨k, hk, hpk⟩ := (Option.any_eq_true _ _).mp hp
  obtain rfl : bs' = bs := of_decide_eq_true hbs
  exact ⟨_, _, k, (h.other hg nofun).read hk hread, hpk⟩

/-- The start of a camera opens the hub, and then the encoder writes the beginning of a stream in two pieces. The header
is complete with the second and is published then. -/
theorem units_of_flvHead : ∃ f g h : Fleet, ∃ o c, ∃ s t : Nat, ∃ us,
    f.Reachable ∧ f.start? 0 = some (o, .openHub c 0) ∧ c.command.mode = .flv ∧
      f.perform? (.event (.job 0 .proceed)) = some g ∧ g.Pumped 0 [(s, flvHead.1), (t, flvHead.2)] us h ∧
      us = [(0, .header (flvHead.1 ++ flvHead.2))] := by
  obtain ⟨f, hr, hf⟩ := exists_of_run
    (p := fun f => f.opensFlv 0 0 && decide (f.hubs.all.length = 0) &&
      (f.perform? (.event (.job 0 .proceed))).any (readsAll flvHead.1 (readsAll flvHead.2 fun _ => true)))
    ([.submit (.start camera)] ++ goesOn 0 10) (by decide +kernel)
  simp only [Bool.and_eq_true, decide_eq_true_eq] at hf
  obtain ⟨⟨hopen, hlen⟩, hruns⟩ := hf
  obtain ⟨o, c, hs, hc⟩ := of_opensFlv hopen
  obtain ⟨g, hg, hruns⟩ := (Option.any_eq_true _ _).mp hruns
  obtain ⟨s, us, k, hk, hruns⟩ := Pumped.begun.of_readsAll hruns
  obtain ⟨t, us, h, hh, -⟩ := hk.of_readsAll hruns
  have hus := (units_of_bytes.2 f g h 0 0 o c _ us hr hs hc hg hh).1
  refine ⟨f, g, h, o, c, s, t, us, hr, hs, hc, hg, hh, ?_⟩
  have hunits : ((Decoder.flv {} false).feed 0 (flvHead.1 ++ flvHead.2)).1 =
      [.header (flvHead.1 ++ flvHead.2)] := by decide +kernel
  rw [hus, hlen]
  exact congrArg (List.map fun u => (0, u)) hunits

end Fleet

end EncoderFleet
