import EncoderFleet.Proofs.Fleet.LiveHub

/-!
# Whose units a viewer catches up on

A hub keeps units for viewers who join later, and all that it keeps was published to it by a pump (`kept_or_published`,
`Traced.published`). An encoder *plays* for a source from when its start is about to commit until it is taken away or
seen to end (`Plays`). If its output is piped, its start has registered a new hub, and its pump is the only one that
publishes there (`Reachable.sole_publisher`): what the registered hub keeps is its own (`Traced.fresh_of_piped`). If its
output goes to files, it never publishes anything (`Traced.not_published_of_files`), and its start leaves the registered
hub as it finds it.

So what a viewer catches up on comes from the encoder that the source tracks if and only if the output of that is piped,
or nothing is kept (`catchup_is_fresh_iff`). An encoder that crashed leaves its hub registered, and when the source is
then started with output to files, viewers catch up on what the dead encoder has published (`catchup_outlives_crash`).
-/

namespace EncoderFleet

namespace Hub

variable {h : Hub} {u v : StreamUnit}

theorem mem_catchup : u ∈ h.catchup ↔ h.header = some u ∨ h.config = some u ∨ h.keyframe = some u := by
  simp [catchup, eq_comm]

/-- Of a unit that is published, a hub keeps no more than the unit itself. -/
theorem mem_catchup_publish (hu : u ∈ (h.publish v).2.catchup) : u = v ∨ u ∈ h.catchup := by
  have hkept : u ∈ (h.remember v).catchup := hu
  rw [mem_catchup, remember] at hkept
  rw [mem_catchup]
  split at hkept
  · rcases hkept with hv | hold
    · exact .inl (Option.some.inj hv).symm
    · exact .inr (.inr hold)
  · rcases hkept with hold | hv | hold
    · exact .inr (.inl hold)
    · exact .inl (Option.some.inj hv).symm
    · exact .inr (.inr (.inr hold))
  · split at hkept
    · rcases hkept with hold | hold | hv
      · exact .inr (.inl hold)
      · exact .inr (.inr (.inl hold))
      · exact .inl (Option.some.inj hv).symm
    · exact .inr hkept

end Hub

namespace Hubs

/-- No hub keeps anything for viewers that it did not keep before. -/
def KeepsNoMore (hs hs' : Hubs) : Prop := ∀ k, (hs'.hub k).catchup ⊆ (hs.hub k).catchup

variable {hs hs' hs'' : Hubs}

theorem KeepsNoMore.refl (hs : Hubs) : hs.KeepsNoMore hs := fun _ => List.Subset.refl _

theorem KeepsNoMore.trans (h : hs.KeepsNoMore hs') (h' : hs'.KeepsNoMore hs'') : hs.KeepsNoMore hs'' :=
  fun k => List.Subset.trans (h' k) (h k)

theorem KeepsNoMore.of_all (h : hs'.all = hs.all) : hs.KeepsNoMore hs' := fun k => by
  rw [hub, hub?, h]
  exact List.Subset.refl _

/-- A number that no hub has yet stands for an empty hub. -/
theorem catchup_of_le {k : Nat} (h : hs.all.length ≤ k) : (hs.hub k).catchup = [] := by
  rw [hub, hub?, List.getElem?_eq_none h]
  rfl

/-- A new hub keeps nothing. -/
theorem keepsNoMore_reset (hs : Hubs) (source : String) : hs.KeepsNoMore (hs.reset source).2 := by
  intro k
  simp only [hub, hub?, reset]
  rcases Nat.lt_or_ge k hs.all.length with hk | hk
  · rw [List.getElem?_append_left hk]
    exact List.Subset.refl _
  · have hempty : ((hs.all ++ [Hub.new source hs.capacity])[k]?.getD (.new "" 1)).catchup = [] := by
      rw [List.getElem?_append_right hk]
      cases k - hs.all.length <;> rfl
    rw [hempty]
    exact List.nil_subset _

theorem hub_put_cases (hs : Hubs) (n k : Nat) (h : Hub) :
    (hs.put n h).hub k = hs.hub k ∨ k = n ∧ (hs.put n h).hub k = h := by
  simp only [hub, hub?, put, List.getElem?_set]
  split
  · next hk =>
    subst hk
    split
    · exact .inr ⟨rfl, rfl⟩
    · next hn =>
      rw [List.getElem?_eq_none (Nat.le_of_not_lt hn)]
      exact .inl rfl
  · exact .inl rfl

theorem keepsNoMore_put {n : Nat} {h : Hub} (hh : h.catchup = (hs.hub n).catchup) : hs.KeepsNoMore (hs.put n h) := by
  intro k
  rcases hub_put_cases hs n k h with hk | ⟨rfl, hk⟩
  · rw [hk]
    exact List.Subset.refl _
  · rw [hk, hh]
    exact List.Subset.refl _

theorem keepsNoMore_subscribe (hs : Hubs) (source : String) : hs.KeepsNoMore (hs.subscribe source).2 := by
  have hcreate : hs.KeepsNoMore (hs.getOrCreate source).2 := by
    unfold getOrCreate
    split
    · exact .refl hs
    · exact keepsNoMore_reset hs source
  exact hcreate.trans (keepsNoMore_put rfl)

theorem keepsNoMore_receive (hs : Hubs) (s : Subscription) : hs.KeepsNoMore (hs.receive s).2.2 := by
  refine keepsNoMore_put ?_
  rw [Hub.receive]
  split
  · rfl
  · simp only [Hub.take]
    split
    · rfl
    · split
      · rfl
      · split
        · rfl
        · split <;> rfl

/-- What hubs keep after units were published to one of them. -/
theorem mem_catchup_publishAll {n k : Nat} {u : StreamUnit} (us : List StreamUnit)
    (hu : u ∈ ((Fleet.publishAll hs n us).hub k).catchup) : k = n ∧ u ∈ us ∨ u ∈ (hs.hub k).catchup := by
  induction us generalizing hs with
  | nil => exact .inr hu
  | cons v us ih =>
    rcases ih hu with ⟨hk, hus⟩ | hv
    · exact .inl ⟨hk, List.mem_cons_of_mem v hus⟩
    · have hv : u ∈ ((hs.put n ((hs.hub n).publish v).2).hub k).catchup := hv
      rcases hub_put_cases hs n k ((hs.hub n).publish v).2 with hk | ⟨rfl, hk⟩
      · rw [hk] at hv
        exact .inr hv
      · rw [hk] at hv
        rcases Hub.mem_catchup_publish hv with rfl | hv
        · exact .inl ⟨rfl, List.mem_cons_self⟩
        · exact .inr hv

/-- Who joins the live stream of a source catches up on what the registered hub keeps, and on nothing if there is
none. -/
theorem catchup_subscribe (hs : Hubs) (id : String) :
    (hs.subscribe id).1.viewer.catchup = ((hs.get? id).map fun k => (hs.hub k).catchup).getD [] := by
  unfold subscribe getOrCreate
  cases hk : hs.get? id with
  | some k => rfl
  | none =>
    have hnew := keepsNoMore_reset hs id hs.all.length
    rw [catchup_of_le (Nat.le_refl _)] at hnew
    exact List.subset_nil.mp hnew

end Hubs

namespace Fleet

/-- A deed publishes a unit to a hub: it is the pump of an encoder, and with what it reads the unit is complete. -/
inductive Publishes (f : Fleet) (n k : Nat) (u : StreamUnit) : Deed → Prop
  | pump {p : Pump} {bs : Bytes} (hr : f.reading? n = some (p, bs)) (hk : p.hub = k)
      (hu : u ∈ (p.decoder.feed f.now bs).1) : Publishes f n k u (.event (.pump n))

/-- An encoder plays for a source: it is tracked, or its hub is open and its start is about to commit. -/
inductive Plays (f : Fleet) (key : String) (n : Nat) (c : Command) : Prop
  | tracked {t : Tracked} (ht : f.tracked? key = some t) (hn : t.encoder = n) (hc : t.command = c) : Plays f key n c
  | opened {id : Nat} {o : StartOrder} {course : Course} (hs : f.start? id = some (o, .commit course n))
      (hk : o.key = key) (hc : course.command = c) : Plays f key n c

variable {f g : Fleet} {d : Deed} {key : String} {n k : Nat} {c : Command} {u : StreamUnit} {past : List (Fleet × Deed)}

theorem Publishes.isSome_pump? (h : f.Publishes n k u d) : (f.pump? n).isSome = true := by
  cases h with
  | pump hr =>
    rw [pump?_of_reading hr]
    rfl

/-! ## What hubs keep -/

theorem SameStreams.keepsNoMore (h : f.SameStreams g) : f.hubs.KeepsNoMore g.hubs := .of_all (by rw [h.hubs])

theorem keepsNoMore_stopPump (f : Fleet) (n : Nat) : f.hubs.KeepsNoMore (f.stopPump n).hubs := by
  unfold stopPump
  split
  · exact .refl _
  · exact .of_all rfl

theorem StopStep.keepsNoMore {o : StopOrder} {p : StopPlace} {m : Move} {r : After StopPlace (Option String)}
    (step : StopStep f o p m g r) : f.hubs.KeepsNoMore g.hubs := by
  cases step with
  | @released t =>
    refine (keepsNoMore_stopPump f t.tracked.encoder).trans (.of_all ?_)
    unfold letGo
    dsimp only
    split <;> rfl
  | dropped => exact .of_all (by split <;> rfl)
  | recorded => exact (sameStreams_recordStop ..).keepsNoMore
  | _ => exact .of_all rfl

theorem keepsNoMore_openHub (f : Fleet) (o : StartOrder) (c : Command) (n : Nat) :
    f.hubs.KeepsNoMore (f.openHub o c n).hubs := by
  unfold openHub
  split
  · refine (Hubs.keepsNoMore_reset f.hubs o.source.id).trans (.of_all ?_)
    dsimp only
    split <;> rfl
  · exact .of_all rfl

theorem StartStep.keepsNoMore {id : Nat} {o : StartOrder} {p : StartPlace} {m : Move} {r : After StartPlace StartResult}
    (step : StartStep f id o p m g r) : f.hubs.KeepsNoMore g.hubs := by
  cases step with
  | retiring step => exact step.keepsNoMore
  | retired step => exact step.keepsNoMore
  | cleared => exact (sameStreams_clearOrphans ..).keepsNoMore
  | madeWay => exact (sameStreams_makeWay ..).keepsNoMore
  | @noWay c => exact (sameStreams_makeWay f c.command).keepsNoMore
  | @launched c b => exact .of_all (congrArg Hubs.all (hubs_interrupt f o b))
  | @opened c n => exact keepsNoMore_openHub f o c.command n
  | @abandoned c n => exact keepsNoMore_stopPump f n
  | restored => exact (sameStreams_restoreLife ..).keepsNoMore
  | _ => exact .of_all rfl

theorem keepsNoMore_stepJob {id : Nat} {m : Move} (hd : f.stepJob id m = some g) : f.hubs.KeepsNoMore g.hubs := by
  unfold stepJob at hd
  obtain ⟨⟨g', j'⟩, hn, rfl⟩ := Option.map_eq_some_iff.mp hd
  refine Hubs.KeepsNoMore.trans ?_ (sameStreams_putJob g' id j').keepsNoMore
  split at hn
  · cases hn
  · cases hn
  · cases jobStep_of_stepBatch hn with
    | start hc step => exact step.keepsNoMore
    | _ => exact .of_all rfl
  · have hw : JobStep _ id _ _ _ _ := jobStep_of_stepSweep hn
    cases hw with
    | stop hc step => exact step.keepsNoMore
    | _ => exact .of_all rfl
  · exact (sameStreams_stepChange hn).keepsNoMore
  · exact (sameStreams_stepPermit hn).keepsNoMore

/-- What hubs keep after a pump has read. -/
theorem kept_or_pumped (hd : f.pumpOnce n = some g) (hu : u ∈ (g.hubs.hub k).catchup) :
    u ∈ (f.hubs.hub k).catchup ∨ f.Publishes n k u (.event (.pump n)) := by
  cases hr : f.reading? n with
  | some r =>
    obtain ⟨p, bs⟩ := r
    rw [(pumpOnce_of_reading hd hr).2] at hu
    rcases Hubs.mem_catchup_publishAll _ hu with ⟨hk, hfed⟩ | hu
    · exact .inr (.pump hr hk.symm hfed)
    · exact .inl hu
  | none =>
    -- The pump has come to its end.
    refine .inl ?_
    unfold pumpOnce at hd
    unfold reading? at hr
    cases he : f.encoder? n with
    | none => rw [he] at hd; cases hd
    | some e =>
      cases hp : e.pump with
      | none => simp only [he, hp] at hd; cases hd
      | some p =>
        simp only [he, hp, Option.bind_some] at hd hr
        split at hr
        · next hq =>
          rw [if_pos hq] at hd
          split at hd
          · cases hd
            exact keepsNoMore_stopPump f n k hu
          · cases hd
        · cases hr

/-- What a hub keeps after a deed it kept before, or the deed publishes it there. -/
theorem kept_or_published (hd : f.perform? d = some g) (hu : u ∈ (g.hubs.hub k).catchup) :
    u ∈ (f.hubs.hub k).catchup ∨ ∃ n, f.Publishes n k u d := by
  have kept : f.hubs.KeepsNoMore g.hubs → u ∈ (f.hubs.hub k).catchup ∨ ∃ n, f.Publishes n k u d :=
    fun h => .inl (h k hu)
  cases d with
  | event e =>
    cases e with
    | job id m => exact kept (keepsNoMore_stepJob hd)
    | strike n =>
      have hd : f.strike n = some g := hd
      unfold strike at hd
      split at hd
      · cases hd
        exact .inl hu
      · cases hd
    | notice n =>
      cases performed_of_notice hd with
      | reaped => exact .inl hu
      | @noticed _ generation key _ _ code => exact kept (sameStreams_recordCrash f key generation code).keepsNoMore
      | quiet hq => cases hq
    | pump n => exact (kept_or_pumped hd hu).imp_right fun h => ⟨n, h⟩
    | pass ms => exact kept (perform_sameStreams hd rfl).keepsNoMore
  | subscribe id =>
    obtain ⟨r, hr, rfl⟩ := Option.map_eq_some_iff.mp hd
    simp only [subscribe] at hr
    cases hs : f.sources.get? id with
    | none => rw [hs] at hr; cases hr
    | some s => rw [hs] at hr; cases hr; exact kept (Hubs.keepsNoMore_subscribe f.hubs _)
  | receive s => cases hd; exact kept (Hubs.keepsNoMore_receive f.hubs s)
  | unsubscribe s => cases hd; exact kept (Hubs.keepsNoMore_put rfl)
  | exit | feed | breakPipe | closePipe => cases hd; exact .inl hu
  | _ => exact kept (perform_sameStreams hd rfl).keepsNoMore

/-- What a hub keeps was published to it. -/
theorem Traced.published (h : f.Traced past) (hu : u ∈ (f.hubs.hub k).catchup) :
    ∃ n, ∃ x ∈ past, x.1.Publishes n k u x.2 := by
  induction h with
  | fresh => rw [Hubs.catchup_of_le (Nat.zero_le k)] at hu; cases hu
  | @perform f g d past _ hd ih =>
    rcases kept_or_published hd hu with hu | ⟨n, hp⟩
    · obtain ⟨n, x, hx, hp⟩ := ih hu
      exact ⟨n, x, List.mem_append_left _ hx, hp⟩
    · exact ⟨n, (f, d), List.mem_append_right _ (List.mem_singleton_self _), hp⟩

/-! ## Encoders that play -/

/-- An encoder that plays for a source did so before, or its start opens its hub now. -/
theorem Plays.before (h : g.Plays key n c) (hr : f.Reachable) (hd : f.perform? d = some g) : f.Plays key n c ∨
    ∃ id m o course, d = .event (.job id m) ∧ f.start? id = some (o, .openHub course n) ∧ o.key = key ∧
      course.command = c := by
  cases h with
  | tracked ht hn hc =>
    rcases hr.tracked_cases hd ht with hold | ⟨id, m, o, course, j, rfl, hs, hk, -, rfl⟩
    · exact .inl (.tracked hold hn hc)
    · cases hn
      exact .inl (.opened hs hk hc)
  | @opened id o course hs hk hc =>
    rcases (hr.worked hd).start?_cases hs with hold | hq | ⟨m, p, g', rfl, hs', step, -⟩
    · exact .inl (.opened hold hk hc)
    · cases hq
    · cases step with
      | opened => exact .inr ⟨id, _, o, course, rfl, hs', hk, hc⟩

/-- While an encoder plays for a source, no start of the source opens a hub. -/
theorem Plays.not_opening {id j : Nat} {o : StartOrder} {course : Course} (h : f.Plays key n c) (hr : f.Reachable)
    (hs : f.start? id = some (o, .openHub course j)) : o.key ≠ key := by
  rintro rfl
  cases h with
  | tracked ht =>
    rw [tracked?_eq, hr.records.untracked hs rfl] at ht
    cases ht
  | opened hs' hk =>
    obtain rfl := hr.turns.cleared_alone (stake_cleared.mpr ⟨_, _, hs, rfl, rfl⟩)
      (stake_cleared.mpr ⟨_, _, hs', hk, rfl⟩)
    rw [hs] at hs'
    cases hs'

/-- An encoder that plays is past the opening of its hub. -/
theorem Plays.past_opening (h : f.Plays key n c) (hr : f.Reachable) : f.Past n := by
  induction hr with
  | fresh =>
    cases h with
    | tracked ht => cases ht
    | opened hs => cases hs
  | perform hr hd ih =>
    rcases h.before hr hd with hold | ⟨id, m, o, course, rfl, hs, -, -⟩
    · exact (ih hold).perform hr hd
    · exact hr.past_of_opened hd hs

theorem Reachable.registered_lt (hr : f.Reachable) (hk : f.hubs.registered.get? key = some k) :
    k < f.hubs.all.length := by
  induction hr with
  | fresh => cases hk
  | @perform f g d hr hd ih =>
    have reset : ∀ {source : String}, (f.hubs.reset source).2.SameRegister g.hubs → k < g.hubs.all.length := by
      intro source hg
      rw [hg.registered, Hubs.reset, KeyMap.get?_insert] at hk
      have hlen : g.hubs.all.length = f.hubs.all.length + 1 := by
        rw [hg.count, Hubs.reset, List.length_append, List.length_singleton]
      split at hk
      · cases hk
        omega
      · have := ih hk
        omega
    cases perform_register hd with
    | same hg =>
      rw [hg.registered] at hk
      rw [hg.count]
      exact ih hk
    | opened _ hg => exact reset hg
    | @dropped _ source _ _ hg =>
      rw [hg.registered, Hubs.remove, KeyMap.get?_erase] at hk
      split at hk
      · cases hk
      · rw [hg.count]
        exact ih hk
    | asked _ hg => exact reset hg

/-- The hub that is registered for a source for which an encoder plays was so before, or is new and somebody has asked
for it. -/
theorem Plays.registered_cases (h : f.Plays key n c) (hr : f.Reachable) (hd : f.perform? d = some g)
    (hk : g.hubs.registered.get? key = some k) :
    f.hubs.registered.get? key = some k ∨ k = f.hubs.all.length ∧ ∃ id, d = .subscribe id := by
  cases perform_register hd with
  | same hg =>
    rw [hg.registered] at hk
    exact .inl hk
  | opened hs hg =>
    have hne : key ≠ Text.fold _ := (h.not_opening hr hs).symm
    rw [hg.registered, Hubs.reset, KeyMap.get?_insert, if_neg hne] at hk
    exact .inl hk
  | dropped _ hg =>
    rw [hg.registered, Hubs.remove, KeyMap.get?_erase] at hk
    split at hk
    · cases hk
    · exact .inl hk
  | @asked source id _ _ hg =>
    rw [hg.registered, Hubs.reset, KeyMap.get?_insert] at hk
    split at hk
    · exact .inr ⟨(Option.some.inj hk).symm, id, rfl⟩
    · exact .inl hk

/-- The start of an encoder whose output is piped registers a new hub. -/
theorem registered_of_opened {id : Nat} {m : Move} {o : StartOrder} {course : Course}
    (hd : f.perform? (.event (.job id m)) = some g) (hs : f.start? id = some (o, .openHub course n))
    (hm : course.command.mode.piped = true) : g.hubs.registered.get? o.key = some f.hubs.all.length := by
  obtain ⟨g', r, j, step, rfl, -⟩ := startStep_of_stepJob hd hs
  cases step with
  | opened =>
    have hreg : (f.openHub o course.command n).hubs.registered = (f.hubs.reset o.source.id).2.registered := by
      unfold openHub
      rw [if_pos hm]
      dsimp only
      split <;> rfl
    rw [(sameStreams_putJob ..).hubs, hreg]
    exact KeyMap.get?_insert_self ..

/-! ## Encoders whose output is piped -/

/-- While an encoder whose output is piped plays for a source, no other pump publishes to the hub of the source. -/
theorem Reachable.sole_publisher {j : Nat} {p : Pump} (hr : f.Reachable) (h : f.Plays key n c)
    (hm : c.mode.piped = true) (hk : f.hubs.registered.get? key = some k) (hp : f.pump? j = some p) (hhub : p.hub = k) :
    j = n := by
  induction hr generalizing k j p with
  | fresh => cases hp
  | @perform f g d hr hd ih =>
    rcases h.before hr hd with hold | ⟨id, m, o, course, rfl, hs, rfl, rfl⟩
    · rcases pump?_cases hd hp with ⟨q, hq, hqp⟩ | ⟨id, m, o, course, rfl, hs⟩
      · have hlt := hr.hub_lt hq
        rcases hold.registered_cases hr hd hk with hk' | ⟨rfl, -⟩
        · exact ih hold hk' hq (hqp.trans hhub)
        · omega
      · -- The other pump is opened now, for a new hub.
        have hnew := (hr.hub_of_opened hs hd hp).1
        rcases hold.registered_cases hr hd hk with hk' | ⟨-, id', hd'⟩
        · have := hr.registered_lt hk'
          omega
        · cases hd'
    · -- The hub is opened now, and no other pump publishes there yet.
      rw [registered_of_opened hd hs hm] at hk
      rcases pump?_cases hd hp with ⟨q, hq, hqp⟩ | ⟨id', m', o', course', he, hs'⟩
      · have hlt := hr.hub_lt hq
        have := Option.some.inj hk
        omega
      · cases he
        rw [hs] at hs'
        cases hs'
        rfl

/-- What is kept in the hub of a source for which an encoder plays whose output is piped, the pump of that encoder has
published. -/
theorem Traced.fresh_of_piped (h : f.Traced past) (hp : f.Plays key n c) (hm : c.mode.piped = true)
    (hk : f.hubs.registered.get? key = some k) (hu : u ∈ (f.hubs.hub k).catchup) :
    ∃ x ∈ past, x.1.Publishes n k u x.2 := by
  induction h generalizing k with
  | fresh => cases hk
  | @perform f g d past h hd ih =>
    have hr := h.reachable
    rcases hp.before hr hd with hold | ⟨id, m, o, course, rfl, hs, rfl, rfl⟩
    · rcases hold.registered_cases hr hd hk with hk' | ⟨rfl, id, rfl⟩
      · rcases kept_or_published hd hu with hu | ⟨j, hpub⟩
        · obtain ⟨x, hx, hx'⟩ := ih hold hk' hu
          exact ⟨x, List.mem_append_left _ hx, hx'⟩
        · refine ⟨(f, d), List.mem_append_right _ (List.mem_singleton_self _), ?_⟩
          cases hpub with
          | pump hread hhub hfed =>
            obtain rfl := hr.sole_publisher hold hm hk' (pump?_of_reading hread) hhub
            exact .pump hread hhub hfed
      · -- The hub is new: somebody has asked for it, which publishes nothing.
        rcases kept_or_published hd hu with hu | ⟨j, hpub⟩
        · rw [Hubs.catchup_of_le (Nat.le_refl _)] at hu
          cases hu
        · cases hpub
    · -- The hub is opened now, which publishes nothing.
      rw [registered_of_opened hd hs hm] at hk
      cases hk
      rcases kept_or_published hd hu with hu | ⟨j, hpub⟩
      · rw [Hubs.catchup_of_le (Nat.le_refl _)] at hu
        cases hu
      · cases hpub

/-! ## Encoders whose output goes to files -/

/-- An encoder whose output goes to files has no pump when its start is through with its hub. -/
theorem pump?_openHub_of_files {o : StartOrder} (hm : c.mode.piped = false) : (f.openHub o c n).pump? n = none := by
  unfold openHub
  rw [if_neg (by simp [hm])]
  refine (pump?_modifyEncoder f n n _).trans ?_
  rw [if_pos rfl]
  cases f.encoder? n <;> rfl

/-- An encoder that plays and whose output goes to files has no pump. -/
theorem Plays.unpumped (h : f.Plays key n c) (hr : f.Reachable) (hm : c.mode.piped = false) : f.pump? n = none := by
  induction hr with
  | fresh =>
    cases h with
    | tracked ht => cases ht
    | opened hs => cases hs
  | @perform f g d hr hd ih =>
    rcases h.before hr hd with hold | ⟨id, m, o, course, rfl, hs, -, rfl⟩
    · cases hp : g.pump? n with
      | none => rfl
      | some p =>
        rcases pump?_cases hd hp with ⟨q, hq, -⟩ | ⟨id, m, o, course, rfl, hs⟩
        · rw [ih hold] at hq
          cases hq
        · exact absurd hs ((hold.past_opening hr).2 id o course)
    · obtain ⟨g', r, j, step, rfl, -⟩ := startStep_of_stepJob hd hs
      cases step with
      | opened =>
        rcases pumpStays_putJob (f.openHub o course.command n) id j with hsame | hnone
        · exact hsame.trans (pump?_openHub_of_files hm)
        · exact hnone

/-- An encoder that plays and whose output goes to files has never published anything. -/
theorem Traced.not_published_of_files (h : f.Traced past) (hp : f.Plays key n c) (hm : c.mode.piped = false) :
    ∀ x ∈ past, ∀ k u, ¬x.1.Publishes n k u x.2 := by
  intro x hx k u hpub
  induction h with
  | fresh => cases hx
  | @perform f g d past h hd ih =>
    have hr := h.reachable
    have hpump := hpub.isSome_pump?
    rcases hp.before hr hd with hold | ⟨id, m, o, course, rfl, hs, -, -⟩
    · rcases List.mem_append.mp hx with hx | hx
      · exact ih hold hx
      · obtain rfl := List.mem_singleton.mp hx
        rw [hold.unpumped hr hm] at hpump
        cases hpump
    · -- Its hub is opened now, so that it has had no pump.
      rcases List.mem_append.mp hx with hx | hx
      · exact (h.past_of_pump hx hpump).2 id o course hs
      · obtain rfl := List.mem_singleton.mp hx
        rw [hr.unplugged hs] at hpump
        cases hpump

/-! ## Viewers -/

/-- Take a fleet with its past, and a source that tracks an encoder. Who joins the live stream of the source catches up
on units that the pump of this encoder has published, and no others, if and only if the output of the encoder is piped
or there is nothing to catch up on. Where it is not piped, each of these units is from another encoder. The same goes
for what the hub keeps that is registered for the source. -/
theorem catchup_is_fresh_iff (h : f.Traced past) {id : String} {t : Tracked} (ht : f.tracked? (Text.fold id) = some t) :
    (∀ k, f.hubs.get? id = some k →
      (f.hubs.subscribe id).1.hub = k ∧ (f.hubs.subscribe id).1.viewer.catchup = (f.hubs.hub k).catchup ∧
      ((∀ u ∈ (f.hubs.hub k).catchup, ∃ x ∈ past, x.1.Publishes t.encoder k u x.2) ↔
        t.command.mode.piped = true ∨ (f.hubs.hub k).catchup = []) ∧
      (t.command.mode.piped = false → ∀ u ∈ (f.hubs.hub k).catchup,
        ∃ n, n ≠ t.encoder ∧ ∃ x ∈ past, x.1.Publishes n k u x.2)) ∧
    (f.hubs.get? id = none → (f.hubs.subscribe id).1.viewer.catchup = []) := by
  have hplays : f.Plays (Text.fold id) t.encoder t.command := .tracked ht rfl rfl
  refine ⟨fun k hk => ⟨?_, ?_, ⟨fun hall => ?_, ?_⟩, fun hm u hu => ?_⟩, fun hnone => ?_⟩
  · simp only [Hubs.subscribe, Hubs.getOrCreate, hk]
    rfl
  · rw [Hubs.catchup_subscribe, hk]
    rfl
  · by_contra hno
    rw [not_or] at hno
    obtain ⟨u, hu⟩ := List.exists_mem_of_ne_nil _ hno.2
    obtain ⟨x, hx, hpub⟩ := hall u hu
    exact h.not_published_of_files hplays (by simpa using hno.1) x hx k u hpub
  · rintro (hm | hempty) u hu
    · exact h.fresh_of_piped hplays hm hk hu
    · rw [hempty] at hu
      cases hu
  · obtain ⟨n, x, hx, hpub⟩ := h.published hu
    refine ⟨n, ?_, x, hx, hpub⟩
    rintro rfl
    exact h.not_published_of_files hplays hm x hx k u hpub
  · rw [Hubs.catchup_subscribe, hnone]
    rfl

/-- The header of an FLV stream. -/
def flvHeader : Bytes := flvHead.1 ++ flvHead.2

/-- A camera runs, and the header of its stream comes in: this is what viewers catch up on, and it is from the encoder
that runs. -/
theorem catchup_of_camera : ∃ f : Fleet, ∃ past t k, f.Traced past ∧ f.tracked? "cam" = some t ∧
    f.hubs.get? "cam" = some k ∧ (f.hubs.subscribe "cam").1.viewer.catchup = [.header flvHeader] ∧
    ∃ x ∈ past, x.1.Publishes t.encoder k (.header flvHeader) x.2 := by
  obtain ⟨f, hf, h⟩ := exists_of_run
    (p := fun f => (f.tracked? "cam").any (fun t => t.command.mode.piped) &&
      (f.hubs.get? "cam").any fun k => decide ((f.hubs.hub k).catchup = [.header flvHeader]))
    ([.submit (.start camera)] ++ goesOn 0 14 ++ [.feed 0 flvHeader, .event (.pump 0)]) (by decide +kernel)
  rw [Bool.and_eq_true] at h
  obtain ⟨t, ht, hm⟩ := (Option.any_eq_true _ _).mp h.1
  obtain ⟨k, hk, hkept⟩ := (Option.any_eq_true _ _).mp h.2
  have hkept : (f.hubs.hub k).catchup = [.header flvHeader] := of_decide_eq_true hkept
  obtain ⟨past, hpast⟩ := hf.traced
  have hfold : Text.fold "cam" = "cam" := by decide +kernel
  have htracked : f.tracked? (Text.fold "cam") = some t := by rw [hfold]; exact ht
  obtain ⟨-, hcatchup, hfresh, -⟩ := (catchup_is_fresh_iff hpast htracked).1 k hk
  exact ⟨f, past, t, k, hpast, ht, hk, hcatchup.trans hkept, hfresh.mpr (.inl hm) _ (hkept ▸ List.mem_singleton_self _)⟩

/-- A camera runs, the header of its stream comes in, and then its encoder crashes. When that is over, a user starts the
camera again, with output to files. The camera runs, and viewers catch up on the header, which the encoder that runs has
not published. -/
theorem catchup_outlives_crash : ∃ f : Fleet, ∃ past t k, f.Traced past ∧ f.isRunning "cam" = true ∧
    f.tracked? "cam" = some t ∧ f.hubs.get? "cam" = some k ∧ .header flvHeader ∈ (f.hubs.hub k).catchup ∧
    .header flvHeader ∈ (f.hubs.subscribe "cam").1.viewer.catchup ∧
    ∀ x ∈ past, ¬x.1.Publishes t.encoder k (.header flvHeader) x.2 := by
  obtain ⟨f, hf, h⟩ := exists_of_run
    (p := fun f => f.isRunning "cam" && (f.tracked? "cam").any (fun t => !t.command.mode.piped) &&
      (f.hubs.get? "cam").any fun k => decide (.header flvHeader ∈ (f.hubs.hub k).catchup) &&
        decide (.header flvHeader ∈ (f.hubs.subscribe "cam").1.viewer.catchup))
    ([.submit (.start camera)] ++ goesOn 0 14 ++ [.collect 0, .feed 0 flvHeader, .event (.pump 0), .exit 0 (some 1),
      .event (.notice 0), .event (.pump 0), .submit (.start { camera with flags := {} })] ++ goesOn 1 14)
    (by decide +kernel)
  simp only [Bool.and_eq_true] at h
  obtain ⟨⟨hrunning, h₁⟩, h₂⟩ := h
  obtain ⟨t, ht, hm⟩ := (Option.any_eq_true _ _).mp h₁
  obtain ⟨k, hk, hkept⟩ := (Option.any_eq_true _ _).mp h₂
  simp only [Bool.and_eq_true, decide_eq_true_eq] at hkept
  obtain ⟨past, hpast⟩ := hf.traced
  have hplays : f.Plays "cam" t.encoder t.command := .tracked ht rfl rfl
  exact ⟨f, past, t, k, hpast, hrunning, ht, hk, hkept.1, hkept.2, fun x hx =>
    hpast.not_published_of_files hplays (by simpa using hm) x hx k _⟩

end Fleet

end EncoderFleet
