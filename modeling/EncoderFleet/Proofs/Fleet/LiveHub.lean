import EncoderFleet.Proofs.Fleet.HubMoves
import EncoderFleet.Proofs.Fleet.Pumps
import EncoderFleet.Proofs.Fleet.Service
import EncoderFleet.Proofs.Live.Incarnations

/-!
# The hub that is registered for a source

A start registers a new hub for its source and has the pump of its encoder publish there, before it commits. A stop
takes the hub of its source out of the register after it has waited for the old encoder, by the id of the source alone,
and does not look whether the hub is still that of the encoder which it took away.

As long as an encoder with a pump serves a source, no start of the source opens another hub (`Serves.not_opening`). So
the hub of the pump stays registered until a stop drops the hub of the source, and then it never comes back
(`Traced.registered`). So the registered hub is the one that the pump publishes to if and only if no stop has dropped it
while the pump was there (`registered_hub_is_live_iff`), and it can happen that one does (`running_without_hub`).
-/

namespace EncoderFleet

namespace Hubs

variable {hs : Hubs}

/-- What is published to a hub goes on to wait for a viewer there. -/
theorem unread_publishAll {n viewer : Nat} {before : List StreamUnit} (us : List StreamUnit) (hn : n < hs.all.length)
    (hv : (hs.hub n).viewers.get? viewer = some (.keeping (hs.hub n).depth before)) :
    ((Fleet.publishAll hs n us).hub n).viewers.get? viewer = some (.keeping (hs.hub n).depth (before ++ us)) := by
  induction us generalizing hs before with
  | nil => rw [List.append_nil]; exact hv
  | cons u us ih =>
    have hnext : (hs.publish n u).2.hub n = ((hs.hub n).publish u).2 := hub_put _ hn
    have hcount : n < (hs.publish n u).2.all.length :=
      Nat.lt_of_lt_of_eq hn (sameRegister_put hs n ((hs.hub n).publish u).2).count.symm
    have hdepth : ((hs.hub n).publish u).2.depth = (hs.hub n).depth := by rw [Hub.publish_eq]
    have hunread : ((hs.hub n).publish u).2.viewers.get? viewer =
        some (.keeping (hs.hub n).depth (before ++ [u])) := by
      rw [Hub.publish_eq, KeyMap.get?_map, hv, Option.map_some, Unread.push_keeping]
    have hrest := ih hcount (by rw [hnext, hdepth]; exact hunread)
    rw [hnext, hdepth, List.append_assoc] at hrest
    exact hrest

/-- Who joins the live stream of a source joins the hub that is registered for it, and receives what is published there
from then on. -/
theorem subscribe_of_get? {source : String} {n : Nat} (h : hs.get? source = some n) (hn : n < hs.all.length) :
    (hs.subscribe source).1.hub = n ∧ ∀ us, ((Fleet.publishAll (hs.subscribe source).2 n us).hub n).viewers.get?
      (hs.subscribe source).1.viewer.id = some (.keeping (hs.hub n).depth us) := by
  have hjoin : hs.subscribe source = hs.join n := by simp only [subscribe, getOrCreate, h]
  rw [hjoin]
  refine ⟨rfl, fun us => ?_⟩
  have hhub : (hs.join n).2.hub n = (hs.hub n).subscribe.2 := hub_put _ hn
  have hcount : n < (hs.join n).2.all.length :=
    Nat.lt_of_lt_of_eq hn (sameRegister_put hs n (hs.hub n).subscribe.2).count.symm
  have hempty : ((hs.join n).2.hub n).viewers.get? (hs.join n).1.viewer.id =
      some (.keeping ((hs.join n).2.hub n).depth []) := by
    have hnone : Unread.keeping (hs.hub n).depth [] = {} := by simp [Unread.keeping]
    rw [hhub]
    exact (KeyMap.get?_insert_self ..).trans (congrArg some hnone.symm)
  have hunread := unread_publishAll us hcount hempty
  rw [hhub] at hunread
  exact hunread

end Hubs

namespace Fleet

/-- An encoder that serves a source has a pump. -/
def Feeds (f : Fleet) (key : String) (n : Nat) : Prop := f.Serves key n ∧ (f.pump? n).isSome = true

/-- The deeds that led to a fleet, each with the fleet before it. -/
inductive Traced : Fleet → List (Fleet × Deed) → Prop
  | fresh (settings : Settings) (platform : Platform) (d : Document) (archive : Archive) (flags : OutputFlags)
      (files : FileTree) (launcher : Launcher) (table : Option ProcessTable) :
      Traced (fresh settings platform d archive flags files launcher table) []
  | perform {f g : Fleet} {d : Deed} {past : List (Fleet × Deed)} (h : Traced f past) (hd : f.perform? d = some g) :
      Traced g (past ++ [(f, d)])

variable {f g : Fleet} {d : Deed} {key : String} {n : Nat} {past : List (Fleet × Deed)}

/-! ## The encoder that feeds a source -/

/-- As long as an encoder with a pump serves a source, no start of the source opens a hub. -/
theorem Serves.not_opening {id k : Nat} {o : StartOrder} {c : Course} (h : f.Serves key n) (hr : f.Reachable)
    (hp : (f.pump? n).isSome = true) (hs : f.start? id = some (o, .openHub c k)) : o.key ≠ key := by
  rintro rfl
  cases h with
  | tracked ht =>
    rw [tracked?_eq, hr.records.untracked hs rfl] at ht
    cases ht
  | @owned j o' p hs' hk hpn =>
    have hcl := StartPlace.cleared_of_encoder hpn
    have hown := stake_cleared.mpr ⟨_, _, hs', hk, hcl⟩
    obtain rfl := hr.turns.cleared_alone (stake_cleared.mpr ⟨_, _, hs, rfl, rfl⟩) hown
    rw [hs] at hs'
    cases hs'
    cases hpn
    rw [hr.unplugged hs] at hp
    cases hp

/-- An encoder that serves a source served it before, unless it is new. -/
theorem Serves.before (h : g.Serves key n) (hr : f.Reachable) (hd : f.perform? d = some g) :
    f.Serves key n ∨ n = f.encoders.length := by
  cases h with
  | tracked ht hn =>
    rcases hr.tracked_cases hd ht with hold | ⟨id, m, o, c, k, -, hs, hk, -, rfl⟩
    · exact .inl (.tracked hold hn)
    · cases hn
      exact .inl (.owned hs hk rfl)
  | @owned id o q hs hk hq =>
    rcases (hr.worked hd).start?_cases hs with hold | rfl | ⟨m, p, g', -, hs', step, -⟩
    · exact .inl (.owned hold hk hq)
    · cases hq
    · cases step with
      | launched =>
        cases hq
        exact .inr (congrArg List.length (encoders_interrupt (hr.records.untracked hs' rfl) _))
      | opened => exact .inl (.owned hs' hk hq)
      | _ => cases hq

/-- A pump was there before and publishes to the same hub, or a start opens the hub of its encoder now. -/
theorem pump?_cases {p : Pump} (hd : f.perform? d = some g) (hp : g.pump? n = some p) :
    (∃ q, f.pump? n = some q ∧ q.hub = p.hub) ∨
      ∃ id m o c, d = .event (.job id m) ∧ f.start? id = some (o, .openHub c n) := by
  by_cases hpump : d = .event (.pump n)
  · subst hpump
    cases hr : f.reading? n with
    | none =>
      rw [pumpOnce_of_not_reading hd hr] at hp
      cases hp
    | some r =>
      obtain ⟨q, bs⟩ := r
      rw [(pumpOnce_of_reading hd hr).1] at hp
      cases hp
      exact .inl ⟨q, pump?_of_reading hr, rfl⟩
  · by_contra hno
    rw [not_or] at hno
    rcases perform_pumpStays hd hpump fun id m o c he hs => hno.2 ⟨id, m, o, c, he, hs⟩ with hsame | hnone
    · exact hno.1 ⟨p, hsame ▸ hp, rfl⟩
    · rw [hnone] at hp
      cases hp

/-- The hub that is opened for an encoder is new, registered for the source, and the one that the pump publishes to. -/
theorem openHub_hub {o : StartOrder} {c : Command} {p : Pump} (hnone : f.pump? n = none)
    (hp : (f.openHub o c n).pump? n = some p) :
    p.hub = f.hubs.all.length ∧ (f.hubs.reset o.source.id).2.SameRegister (f.openHub o c n).hubs := by
  unfold openHub at hp ⊢
  split at hp
  · next hm =>
    rw [if_pos hm]
    dsimp only at hp ⊢
    split at hp
    · next _ decoder _ hdec =>
      have hg := pump?_modifyEncoder f n n fun e => { e with pump := some ⟨f.hubs.all.length, decoder⟩ }
      rw [if_pos rfl] at hg
      obtain ⟨e, -, he⟩ := Option.bind_eq_some_iff.mp (hg.symm.trans hp)
      cases he
      exact ⟨rfl, ⟨rfl, rfl⟩⟩
    · rw [show f.pump? n = some p from hp] at hnone
      cases hnone
  · have hg := pump?_modifyEncoder f n n Encoder.detach
    rw [if_pos rfl] at hg
    obtain ⟨e, -, he⟩ := Option.bind_eq_some_iff.mp (hg.symm.trans hp)
    cases he

theorem Reachable.hub_of_opened {id : Nat} {m : Move} {o : StartOrder} {c : Course} {p : Pump} (hr : f.Reachable)
    (hs : f.start? id = some (o, .openHub c n)) (hd : f.perform? (.event (.job id m)) = some g)
    (hp : g.pump? n = some p) :
    p.hub = f.hubs.all.length ∧ (f.hubs.reset o.source.id).2.SameRegister g.hubs := by
  obtain ⟨g', r, j, step, rfl, -⟩ := startStep_of_stepJob hd hs
  cases step with
  | opened =>
    rcases pumpStays_putJob (f.openHub o c.command n) id j with hsame | hnone
    · rw [(sameStreams_putJob ..).hubs]
      exact openHub_hub (hr.unplugged hs) (hsame.symm.trans hp)
    · rw [hnone] at hp
      cases hp

/-- An encoder with a pump that serves a source did so before, with a pump to the same hub; or a start of the source
opens its hub now. -/
theorem Serves.fed_before {p : Pump} (h : g.Serves key n) (hr : f.Reachable) (hd : f.perform? d = some g)
    (hp : g.pump? n = some p) : (f.Serves key n ∧ ∃ q, f.pump? n = some q ∧ q.hub = p.hub) ∨
      ∃ id m o c, d = .event (.job id m) ∧ f.start? id = some (o, .openHub c n) ∧ o.key = key := by
  have hbefore := h.before hr hd
  rcases pump?_cases hd hp with ⟨q, hq, hhub⟩ | ⟨id, m, o, c, rfl, hs⟩
  · refine .inl ⟨hbefore.resolve_right ?_, q, hq, hhub⟩
    rintro rfl
    simp [pump?, encoder?] at hq
  · have hlt := (hr.owner_unique (owned?_of_start? hs) (owned?_of_start? hs)).2
    have hserves := hbefore.resolve_right (Nat.ne_of_lt hlt)
    exact .inr ⟨id, m, o, c, rfl, hs, hserves.key_eq hr hs rfl⟩

/-- Every pump publishes to a hub that there is. -/
theorem Reachable.hub_lt {p : Pump} (hr : f.Reachable) (hp : f.pump? n = some p) : p.hub < f.hubs.all.length := by
  induction hr generalizing p with
  | fresh => cases hp
  | @perform f g d hr hd ih =>
    rcases pump?_cases hd hp with ⟨q, hq, hhub⟩ | ⟨id, m, o, c, rfl, hs⟩
    · rw [← hhub]
      exact Nat.lt_of_lt_of_le (ih hq) (perform_register hd).count_le
    · obtain ⟨hhub, hreg⟩ := hr.hub_of_opened hs hd hp
      rw [hhub, hreg.count]
      simp [Hubs.reset]

/-! ## The past of a fleet -/

theorem Traced.reachable (h : f.Traced past) : f.Reachable := by
  induction h with
  | fresh => exact .fresh ..
  | perform _ hd ih => exact ih.perform hd

theorem Reachable.traced (h : f.Reachable) : ∃ past, f.Traced past := by
  induction h with
  | fresh => exact ⟨[], .fresh ..⟩
  | perform _ hd ih =>
    obtain ⟨past, hpast⟩ := ih
    exact ⟨_, hpast.perform hd⟩

/-- An encoder that has a pump is past the opening of its hub. -/
theorem Reachable.past_of_pump (hr : f.Reachable) (hp : (f.pump? n).isSome = true) : f.Past n := by
  obtain ⟨p, hp⟩ := Option.isSome_iff_exists.mp hp
  obtain ⟨e, he, -⟩ := Option.bind_eq_some_iff.mp hp
  refine ⟨(List.getElem?_eq_some_iff.mp he).1, fun id o c hs => ?_⟩
  rw [hr.unplugged hs] at hp
  cases hp

/-- An encoder that ever had a pump is past the opening of its hub. -/
theorem Traced.past_of_pump (h : f.Traced past) {x : Fleet × Deed} (hx : x ∈ past)
    (hp : (x.1.pump? n).isSome = true) : f.Past n := by
  induction h with
  | fresh => cases hx
  | perform h hd ih =>
    rcases List.mem_append.mp hx with hx | hx
    · exact (ih hx).perform h.reachable hd
    · obtain rfl := List.mem_singleton.mp hx
      exact (h.reachable.past_of_pump hp).perform h.reachable hd

/-! ## The registered hub -/

/-- While an encoder feeds a source, its hub stays registered, or stays out of the register, unless it is dropped. -/
theorem Serves.registered_iff {p : Pump} (h : f.Serves key n) (hp : f.pump? n = some p) (hr : f.Reachable)
    (hd : f.perform? d = some g) (hn : ¬f.Drops key d) :
    g.hubs.registered.get? key = some p.hub ↔ f.hubs.registered.get? key = some p.hub := by
  cases perform_register hd with
  | same hg => rw [hg.registered]
  | opened hs hg =>
    have hk := h.not_opening hr (by rw [hp]; rfl) hs
    rw [hg.registered]
    exact iff_of_eq (congrArg (· = some p.hub) (KeyMap.get?_insert_of_ne _ _ hk.symm))
  | @dropped _ source _ hdrop hg =>
    have hk : key ≠ Text.fold source := fun hk => hn (hk ▸ hdrop)
    rw [hg.registered]
    show (f.hubs.registered.erase _).get? key = _ ↔ _
    rw [KeyMap.get?_erase, if_neg hk]
  | @asked source id _ hnone hg =>
    rw [hg.registered]
    show (f.hubs.registered.insert _ _).get? key = _ ↔ _
    rw [KeyMap.get?_insert]
    split
    · next hk =>
      have hlt := hr.hub_lt hp
      rw [hk, show f.hubs.registered.get? (Text.fold source) = none from hnone]
      refine iff_of_false (fun hhub => ?_) (by simp)
      have heq : f.hubs.all.length = p.hub := Option.some.inj hhub
      omega
    · rfl

/-- The hub that an encoder feeds for a source is registered if and only if no stop has dropped the hub of the source
while the encoder fed it. -/
theorem Traced.registered {p : Pump} (h : f.Traced past) (hs : f.Serves key n) (hp : f.pump? n = some p) :
    f.hubs.registered.get? key = some p.hub ↔ ∀ x ∈ past, x.1.Feeds key n → ¬x.1.Drops key x.2 := by
  induction h generalizing p with
  | fresh => cases hp
  | @perform f g d past h hd ih =>
    have hr := h.reachable
    have hsnoc : (∀ x ∈ past ++ [(f, d)], x.1.Feeds key n → ¬x.1.Drops key x.2) ↔
        (∀ x ∈ past, x.1.Feeds key n → ¬x.1.Drops key x.2) ∧ (f.Feeds key n → ¬f.Drops key d) := by
      rw [List.forall_mem_append, List.forall_mem_singleton]
    rw [hsnoc]
    rcases hs.fed_before hr hd hp with ⟨hserves, q, hq, hhub⟩ | ⟨id, m, o, c, rfl, hopen, rfl⟩
    · have hfeeds : f.Feeds key n := ⟨hserves, by rw [hq]; rfl⟩
      by_cases hdrop : f.Drops key d
      · rw [hdrop.registered_eq_none hd]
        exact iff_of_false nofun fun hall => hall.2 hfeeds hdrop
      · rw [← hhub, hserves.registered_iff hq hr hd hdrop, ih hserves hq]
        exact (and_iff_left fun _ => hdrop).symm
    · -- The hub is opened now, and the encoder had no pump before.
      obtain ⟨hhub, hreg⟩ := hr.hub_of_opened hopen hd hp
      refine iff_of_true ?_ ⟨fun x hx hfed => ?_, fun hfed => ?_⟩
      · rw [hreg.registered, hhub]
        exact KeyMap.get?_insert_self ..
      · exact absurd hopen ((h.past_of_pump hx hfed.2).2 id o c)
      · rw [Feeds, hr.unplugged hopen] at hfed
        cases hfed.2

/-- Take a fleet with its past, and a source that tracks an encoder with a pump. The hub that is registered for the
source is the one that the pump publishes to if and only if no stop has dropped the hub of the source while this encoder
fed it. Whatever happens from then on, the pump publishes to no other hub, and who joins the live stream of the source
joins this hub as long as it is registered, and receives what is published there. -/
theorem registered_hub_is_live_iff (h : f.Traced past) {id : String} {t : Tracked} {p : Pump}
    (ht : f.tracked? (Text.fold id) = some t) (hp : f.pump? t.encoder = some p) :
    (f.hubs.get? id = some p.hub ↔
      ∀ x ∈ past, x.1.Feeds (Text.fold id) t.encoder → ¬x.1.Drops (Text.fold id) x.2) ∧
    (∀ cs us g, f.Pumped t.encoder cs us g → ∀ u ∈ us, u.1 = p.hub) ∧
    (f.hubs.get? id = some p.hub → (f.hubs.subscribe id).1.hub = p.hub ∧
      ∀ us, ((publishAll (f.hubs.subscribe id).2 p.hub us).hub p.hub).viewers.get?
        (f.hubs.subscribe id).1.viewer.id = some (.keeping (f.hubs.hub p.hub).depth us)) := by
  have hr := h.reachable
  refine ⟨h.registered (.tracked ht rfl) hp, fun cs us g hrun u hu => ?_, fun hget => ?_⟩
  · obtain ⟨-, -, hus, -⟩ := hrun.decodes hr (hr.past_of_pump (by rw [hp]; rfl)) (.inr hp)
    rw [hus] at hu
    obtain ⟨v, -, rfl⟩ := List.mem_map.mp hu
    rfl
  · exact Hubs.subscribe_of_get? hget (hr.hub_lt hp)

/-- A camera that was started and never stopped runs: its pump and the viewers who join meet at one hub, and no stop has
dropped it. -/
theorem registered_hub_of_camera : ∃ f : Fleet, ∃ past t p, f.Traced past ∧ f.tracked? "cam" = some t ∧
    f.pump? t.encoder = some p ∧ f.hubs.get? "cam" = some p.hub ∧ (f.hubs.subscribe "cam").1.hub = p.hub ∧
    ∀ x ∈ past, x.1.Feeds "cam" t.encoder → ¬x.1.Drops "cam" x.2 := by
  obtain ⟨f, hf, h⟩ := exists_of_run
    (p := fun f => (f.tracked? "cam").any fun t => (f.pump? t.encoder).any fun p =>
      decide (f.hubs.get? "cam" = some p.hub))
    ([.submit (.start camera)] ++ goesOn 0 14) (by decide +kernel)
  obtain ⟨t, ht, h⟩ := (Option.any_eq_true _ _).mp h
  obtain ⟨p, hp, h⟩ := (Option.any_eq_true _ _).mp h
  have hget : f.hubs.get? "cam" = some p.hub := of_decide_eq_true h
  obtain ⟨past, hpast⟩ := hf.traced
  have hfold : Text.fold "cam" = "cam" := by decide +kernel
  have htracked : f.tracked? (Text.fold "cam") = some t := by rw [hfold]; exact ht
  obtain ⟨hiff, -, hjoin⟩ := registered_hub_is_live_iff hpast htracked hp
  rw [hfold] at hiff
  exact ⟨f, past, t, p, hpast, ht, hp, hget, (hjoin hget).1, hiff.mp hget⟩

/-- A stop of a camera has given the permit back, and before it drops the hub another start of the camera is through.
Then the camera runs and its pump publishes, but no hub is registered, and who joins the live stream gets another. -/
theorem running_without_hub : ∃ f : Fleet, ∃ t p, f.Reachable ∧ f.isRunning "cam" = true ∧ f.tracked? "cam" = some t ∧
    f.pump? t.encoder = some p ∧ f.hubs.get? "cam" = none ∧ (f.hubs.subscribe "cam").1.hub ≠ p.hub := by
  obtain ⟨f, hf, h⟩ := exists_of_run
    (p := fun f => f.isRunning "cam" && decide (f.hubs.get? "cam" = none) &&
      (f.tracked? "cam").any fun t => (f.pump? t.encoder).any fun p =>
        decide ((f.hubs.subscribe "cam").1.hub ≠ p.hub))
    ([.submit (.start camera)] ++ goesOn 0 14 ++ [.submit (.stop (some "cam") false)] ++ goesOn 1 2 ++
      [.event (.strike 0), .event (.notice 0)] ++ goesOn 1 2 ++ [.submit (.start camera)] ++ goesOn 2 14 ++ goesOn 1 1)
    (by decide +kernel)
  simp only [Bool.and_eq_true, decide_eq_true_eq] at h
  obtain ⟨⟨hrunning, hget⟩, h⟩ := h
  obtain ⟨t, ht, h⟩ := (Option.any_eq_true _ _).mp h
  obtain ⟨p, hp, h⟩ := (Option.any_eq_true _ _).mp h
  exact ⟨f, t, p, hf, hrunning, ht, hp, hget, of_decide_eq_true h⟩

end Fleet

end EncoderFleet
