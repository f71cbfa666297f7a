import EncoderFleet.Proofs.Fleet.Balance
import EncoderFleet.Proofs.Fleet.Fates
import EncoderFleet.Proofs.Fleet.LiveHub

/-!
# How many encoders are at large

An encoder is *at large* from its launch until its end has been noticed, and may use the capture device all that time.
One that is at large and was not abandoned has someone who holds a permit on its account (`Guards`): the start that
launched it, the source that tracks it, or a stop that waits for its end. A stop waits for as long as the settings say
and not longer, so this needs that encoders end in time (`InTime`, `Traced.guarded`). No one holds a permit on account
of two encoders, hence of those encoders there are as many as permits at most.

`encoders_excluded` says so. What a start abandons has no permit behind it any more: `launch_beside_abandoned` is a
fleet with one permit in which two encoders are at large.
-/

namespace EncoderFleet

/-- Whether the one who answers for an encoder waits for its end, or is yet to do so. -/
def Keeper.awaits : Keeper → Bool
  | launch | watcher _ _ _ _ => true
  | nobody | gone _ => false

/-- Whether the end of an encoder has not been noticed. Of one that nobody answers for it is noticed when it ends. -/
def Encoder.isAtLarge (e : Encoder) : Bool := e.keeper.awaits || decide (e.keeper = .nobody) && e.ended.isNone

/-- What is known about an encoder that nobody answers for, or whose end was noticed, stays. -/
theorem Custody.Agrees.settled_step {c c' : Custody} {log : List Happening} {a : Option Happening} {n : Nat}
    {k : Keeper} (h : c.Agrees log) (step : Step c a c') (hk : c.keeper n = some k) (hs : k.awaits = false) :
    c'.keeper n = some k := by
  have other : ∀ {m : Nat} {v : Option Keeper}, m ≠ n → Function.update c.keeper m v n = some k := fun hm => by
    rw [Function.update_of_ne hm.symm, hk]
  -- A step concerns an encoder whose keeper awaits its end, or a new one.
  have awaited : ∀ {m : Nat} {k' : Keeper}, c.keeper m = some k' → k'.awaits = true → m ≠ n := by
    rintro m k' hm hk' rfl
    rw [hk] at hm
    cases hm
    rw [hs] at hk'
    cases hk'
  cases step with
  | still => exact hk
  | finished => exact hk
  | @launched id m hi hm =>
    refine other ?_
    rintro rfl
    rw [hk] at hm
    cases hm
  | @committed id m key hi _ => exact other (awaited ((h.accounted m).of_start hi).1 rfl)
  | @abandoned id m hi => exact other (awaited ((h.accounted m).of_start hi).1 rfl)
  | @taken id m key t hm _ _ => exact other (awaited ((h.accounted m).of_source hm).1 rfl)
  | struck hm => exact other (awaited hm rfl)
  | reaped hm _ => exact other (awaited hm rfl)
  | crashed hm _ => exact other (awaited hm rfl)

namespace Holder

/-- The source that holds a permit. -/
def source? : Holder → Option String
  | source key => some key
  | _ => none

/-- The job that holds a permit. -/
def job? : Holder → Option Nat
  | job id => some id
  | _ => none

/-- The caller that holds a permit. -/
def caller? : Holder → Option String
  | caller name => some name
  | _ => none

theorem length_eq (l : List Holder) :
    l.length = (l.filterMap source?).length + (l.filterMap job?).length + (l.filterMap caller?).length := by
  induction l with
  | nil => rfl
  | cons a l ih =>
    cases a <;> simp only [source?, job?, caller?, List.filterMap_cons, List.length_cons] <;> omega

end Holder

namespace Fleet

/-- An encoder is at large: it was launched, and its end has not been noticed. -/
def isAtLarge (f : Fleet) (n : Nat) : Bool := (f.encoder? n).any Encoder.isAtLarge

/-- The start that launched an encoder has given it up. -/
def isAbandoned (f : Fleet) (n : Nat) : Bool := decide (f.keeper? n = some .nobody)

/-- A deed takes an encoder away from its source, and asks for its kill. -/
def Asks (f : Fleet) (n : Nat) (d : Deed) : Prop :=
  ∃ key generation id, f.happening? d = some (.taken n key generation id)

/-- An encoder that is asked to end has not been so for as long as a stop waits. -/
def InTime (past : List (Fleet × Deed)) (n : Nat) : Prop :=
  ∀ x ∈ past, x.1.Asks n x.2 → ∀ y ∈ past, y.1.now < x.1.now + x.1.settings.stopTimeout

/-- All that has happened, read off the past. -/
def happenings (past : List (Fleet × Deed)) : List Happening := past.flatMap fun x => (x.1.happening? x.2).toList

/-- Someone holds a permit on account of an encoder. -/
inductive Guards (f : Fleet) : Holder → Nat → Prop
  | owned {id n : Nat} (h : f.owned? id = some n) : Guards f (.job id) n
  | tracked {key : String} {t : Tracked} {n : Nat} (ht : f.tracked? key = some t) (hn : t.encoder = n) :
      Guards f (.source key) n
  | reaping {id deadline n : Nat} {o : StopOrder} {t : Taken} (hs : f.stop? id = some (o, .reap t deadline))
      (hn : t.tracked.encoder = n) (hp : t.permit = true) : Guards f (.job id) n

variable {f g : Fleet} {past : List (Fleet × Deed)} {d : Deed} {n : Nat}

/-! ## Permits and their holders -/

/-- The holders of one kind `c` in a list are no more than the total of a map in which each weighs as many permits as it
holds. -/
theorem length_filterMap_le {κ α : Type} [DecidableEq κ] {m : KeyMap κ α} {w : κ → α → Nat} {v : Holder → Option κ}
    {c : κ → Holder} {l : List Holder} (hv : ∀ a k, v a = some k → a = c k) (hw : ∀ k, m.weight w k = f.holds (c k))
    (hl : l.Nodup) (h : ∀ a ∈ l, 1 ≤ f.holds a) : (l.filterMap v).length ≤ m.total w := by
  refine KeyMap.length_le_total (hl.filterMap fun a b k ha hb => ?_) fun k hk => ?_
  · rw [hv a k ha, hv b k hb]
  · obtain ⟨a, hmem, ha⟩ := List.mem_filterMap.mp hk
    rw [hw, ← hv a k ha]
    exact h a hmem

/-- Distinct holders hold distinct permits. -/
theorem length_le_heldPermits {l : List Holder} (hl : l.Nodup) (h : ∀ a ∈ l, 1 ≤ f.holds a) :
    l.length ≤ f.heldPermits := by
  have hsources : (l.filterMap Holder.source?).length ≤ f.statePermits :=
    length_filterMap_le (fun a k ha => by cases a <;> cases ha; rfl) f.weight_states hl h
  have hjobs : (l.filterMap Holder.job?).length ≤ f.jobPermits :=
    length_filterMap_le (fun a k ha => by cases a <;> cases ha; rfl) f.weight_jobs hl h
  have hcallers : (l.filterMap Holder.caller?).length ≤ f.lent.total fun _ _ => 1 :=
    length_filterMap_le (fun a k ha => by cases a <;> cases ha; rfl) f.weight_lent hl h
  rw [Holder.length_eq, heldPermits]
  omega

theorem Reachable.heldPermits_le (h : f.Reachable) : f.heldPermits ≤ max f.settings.captureCapacity 1 := by
  obtain ⟨hc, hb⟩ := h.balanced
  omega

theorem Guards.holds {a : Holder} (h : f.Guards a n) (hr : f.Reachable) : 1 ≤ f.holds a := by
  cases h with
  | @owned id _ hid =>
    obtain ⟨⟨o, p⟩, hs, hp⟩ := Option.bind_eq_some_iff.mp hid
    have hcarried : p.carried = 1 := by cases p <;> first | rfl | cases hp
    rw [Fleet.holds, hs, loadOf, Option.map_some, Option.getD_some, hcarried]
    exact Nat.le_add_right ..
  | @tracked key t _ ht _ =>
    have hpermit : (f.life key).permit = true := by
      rw [(hr.records key).sound.permit, ← tracked?_eq, ht]
      rfl
    rw [Fleet.holds, hpermit]
    exact Nat.le_refl 1
  | reaping hs _ hp =>
    rw [Fleet.holds, hs, loadOf, Option.map_some, Option.getD_some, StopPlace.carried, hp]
    exact Nat.le_add_left ..

/-- Nobody holds a permit on account of two encoders. -/
theorem Guards.unique {a : Holder} {m : Nat} (h : f.Guards a n) (h' : f.Guards a m) : n = m := by
  -- A start that answers for an encoder has no stop under way.
  have apart : ∀ {id k deadline : Nat} {o : StopOrder} {t : Taken}, f.owned? id = some k →
      f.stop? id = some (o, .reap t deadline) → False := by
    intro id k deadline o t hid hs
    obtain ⟨⟨o', p⟩, hstart, hp⟩ := Option.bind_eq_some_iff.mp hid
    have hnone : p.stop? = none := by cases p <;> first | rfl | cases hp
    rw [stop?_of_start? hstart, StartOrder.stop?, hnone] at hs
    cases hs
  cases h with
  | owned hid =>
    cases h' with
    | owned hid' =>
      rw [hid] at hid'
      exact Option.some.inj hid'
    | reaping hs _ _ => exact (apart hid hs).elim
  | tracked ht hn =>
    cases h' with
    | tracked ht' hn' =>
      rw [ht] at ht'
      cases ht'
      exact hn.symm.trans hn'
  | reaping hs hn _ =>
    cases h' with
    | owned hid' => exact (apart hid' hs).elim
    | reaping hs' hn' _ =>
      rw [hs] at hs'
      cases hs'
      exact hn.symm.trans hn'

/-- Encoders on whose account someone holds a permit are no more than there are permits. -/
theorem length_le_of_guarded {ns : List Nat} (hr : f.Reachable) (hns : ns.Nodup)
    (h : ∀ n ∈ ns, ∃ a, f.Guards a n) : ns.length ≤ max f.settings.captureCapacity 1 := by
  have : Nonempty Holder := ⟨.job 0⟩
  choose! a ha using h
  have hnodup : (ns.map a).Nodup := hns.map_on fun n hn m hm ham => by
    have hm := ha m hm
    rw [← ham] at hm
    exact (ha n hn).unique hm
  have hholds : ∀ b ∈ ns.map a, 1 ≤ f.holds b := by
    intro b hb
    obtain ⟨n, hn, rfl⟩ := List.mem_map.mp hb
    exact (ha n hn).holds hr
  calc ns.length = (ns.map a).length := by rw [List.length_map]
    _ ≤ f.heldPermits := length_le_heldPermits hnodup hholds
    _ ≤ max f.settings.captureCapacity 1 := hr.heldPermits_le

/-! ## Who takes away and who launches -/

/-- Who takes an encoder away is a stop that is about to. -/
theorem taken_cases {key : String} {id generation : Nat} (h : f.happening? d = some (.taken n key generation id)) :
    ∃ m o t, d = .event (.job id m) ∧ f.stop? id = some (o, .take) ∧ f.tracked? o.key = some t ∧ t.encoder = n := by
  rcases happening_cases h with ⟨i, m, o, p, -, -, hp, h⟩ | ⟨i, m, o, p, rfl, hs, h⟩ | ⟨k, -, h⟩
  · rcases happeningOfStart_eq hp h with ⟨_, -, ha⟩ | ⟨_, _, -, ha | ⟨_, ha⟩⟩ <;> cases ha
  · rcases happeningOfStop_eq h with ⟨rfl, t, ht, ha⟩ | ⟨_, _, -, ha⟩
    · cases ha
      exact ⟨m, o, t, rfl, hs, ht, rfl⟩
    · cases ha
  · obtain ⟨_, _, _, ha, -⟩ := happeningOfEnd_eq h
    cases ha

/-- Who launches an encoder is a start that is about to. -/
theorem launched_cases {id : Nat} (h : f.happening? d = some (.launched n id)) :
    ∃ m o c, d = .event (.job id m) ∧ f.start? id = some (o, .launch c) := by
  rcases happening_cases h with ⟨i, m, o, p, rfl, hs, hp, h⟩ | ⟨i, m, o, p, -, -, h⟩ | ⟨k, -, h⟩
  · rcases happeningOfStart_eq hp h with ⟨c, rfl, ha⟩ | ⟨_, _, -, ha | ⟨_, ha⟩⟩
    · cases ha
      exact ⟨m, o, c, rfl, hs⟩
    · cases ha
    · cases ha
  · rcases happeningOfStop_eq h with ⟨-, _, -, ha⟩ | ⟨_, _, -, ha⟩ <;> cases ha
  · obtain ⟨_, _, _, ha, -⟩ := happeningOfEnd_eq h
    cases ha

/-! ## Stops that wait -/

/-- Who has taken an encoder away has its permit as well, and waits for its end as long as the settings say. -/
theorem Reachable.reaping_of_taken {key : String} {id generation : Nat} (hr : f.Reachable)
    (hd : f.perform? d = some g) (h : f.happening? d = some (.taken n key generation id)) :
    ∃ o t, g.stop? id = some (o, .reap t (f.now + f.settings.stopTimeout)) ∧ t.tracked.encoder = n ∧
      t.permit = true := by
  obtain ⟨m, o, t, rfl, hs, ht, hn⟩ := taken_cases h
  obtain ⟨s, hstate, htracked⟩ := Option.bind_eq_some_iff.mp ht
  rcases (hr.worked hd).stop?_change id with ⟨-, hno⟩ | ⟨hno, -⟩ | ⟨m', o', p, g', r, -, hs', step, -, hg⟩
  · rw [hno m rfl] at hs
    cases hs
  · rw [hno] at hs
    cases hs
  · rw [hs] at hs'
    cases hs'
    cases step with
    | unknown hnone =>
      rw [hnone] at hstate
      cases hstate
    | nothing hstate' hnone =>
      rw [hstate'] at hstate
      cases hstate
      rw [hnone] at htracked
      cases htracked
    | taken hstate' htracked' =>
      rw [hstate'] at hstate
      cases hstate
      rw [htracked'] at htracked
      cases htracked
      have hlife := life_of_state? hstate'
      have hpermit : (f.life o.key).permit = (f.life o.key).tracked.isSome := (hr.records o.key).sound.permit
      rw [hlife] at hpermit
      exact ⟨o, _, hg, hn, hpermit.trans (by rw [SourceState.life, htracked']; rfl)⟩

theorem keeper?_of_seen {code : ExitCode} (h : (f.encoder? n).bind Encoder.seen? = some code) :
    f.keeper? n = some (.gone code) := by
  obtain ⟨e, he, hseen⟩ := Option.bind_eq_some_iff.mp h
  rw [keeper?_of_encoder? he]
  unfold Encoder.seen? at hseen
  split at hseen
  · next hk =>
    cases hseen
    rw [hk]
  · cases hseen

theorem Reachable.settled_step {k : Keeper} (hr : f.Reachable) (hd : f.perform? d = some g)
    (hk : f.keeper? n = some k) (hs : k.awaits = false) : g.keeper? n = some k := by
  obtain ⟨log, hlog⟩ := hr.chronicle
  exact hlog.agrees.settled_step ((hr.worked hd).custodyStep hr.records) hk hs

/-- What has been taken away is waited for by the stop that has taken it, unless its end was noticed or the time of the
stop was up. -/
theorem Traced.reaping_or_late {key : String} {id generation : Nat} {x : Fleet × Deed} (h : f.Traced past)
    (hx : x ∈ past) (ht : x.1.happening? x.2 = some (.taken n key generation id)) :
    (∃ o t, f.stop? id = some (o, .reap t (x.1.now + x.1.settings.stopTimeout)) ∧ t.tracked.encoder = n ∧
      t.permit = true) ∨
    (∃ k, f.keeper? n = some k ∧ k.awaits = false) ∨
    ∃ y ∈ past, x.1.now + x.1.settings.stopTimeout ≤ y.1.now := by
  induction h with
  | fresh => cases hx
  | @perform f g d past h hd ih =>
    have hr := h.reachable
    rcases List.mem_append.mp hx with hx | hx
    · rcases ih hx with ⟨o, t, hs, hn, hp⟩ | ⟨k, hk, hawaits⟩ | ⟨y, hy, hlate⟩
      · rcases (hr.worked hd).stop?_change id with ⟨hsame, -⟩ | ⟨hno, -⟩ | ⟨m, o', p, g', r, -, hs', step, -, -⟩
        · exact .inl ⟨o, t, hsame.trans hs, hn, hp⟩
        · rw [hno] at hs
          cases hs
        · rw [hs] at hs'
          cases hs'
          cases step with
          | seen hseen =>
            rw [hn] at hseen
            exact .inr (.inl ⟨_, hr.settled_step hd (keeper?_of_seen hseen) rfl, rfl⟩)
          | late hlate => exact .inr (.inr ⟨(f, d), List.mem_append_right _ (List.mem_singleton_self _), hlate⟩)
      · exact .inr (.inl ⟨k, hr.settled_step hd hk hawaits, hawaits⟩)
      · exact .inr (.inr ⟨y, List.mem_append_left _ hy, hlate⟩)
    · obtain rfl := List.mem_singleton.mp hx
      exact .inl (hr.reaping_of_taken hd ht)

/-! ## The past of an encoder -/

theorem Traced.chronicle (h : f.Traced past) : f.Chronicle (happenings past) := by
  induction h with
  | fresh => exact .fresh ..
  | @perform f g d past h hd ih =>
    rw [happenings, List.flatMap_append, List.flatMap_singleton]
    exact ih.perform hd

/-- What a story tells has happened. -/
theorem mem_past_of_story {a : Happening} (h : a ∈ story (happenings past) n) :
    ∃ x ∈ past, x.1.happening? x.2 = some a := by
  obtain ⟨x, hx, ha⟩ := List.mem_flatMap.mp (List.mem_filter.mp h).1
  exact ⟨x, hx, Option.mem_toList.mp ha⟩

theorem Traced.accounted {k : Keeper} (h : f.Traced past) (hk : f.keeper? n = some k) :
    f.custody.Accounted n (some k) (story (happenings past) n) := by
  rw [← hk]
  exact h.chronicle.agrees.accounted n

/-- An encoder whose watcher was not asked for a kill, and whose end was not noticed, has not been asked to end. -/
theorem Traced.inTime {k : Keeper} (h : f.Traced past) (hk : f.keeper? n = some k)
    (hasked : ∀ key generation struck, k ≠ .watcher key generation true struck) (hgone : ∀ code, k ≠ .gone code) :
    InTime past n := by
  rintro x hx ⟨key, generation, id, hhap⟩
  have hmem : .taken n key generation id ∈ story (happenings past) n := by
    refine List.mem_filter.mpr ⟨List.mem_flatMap.mpr ⟨x, hx, ?_⟩, by simp [Happening.concerns]⟩
    rw [hhap]
    exact List.mem_singleton_self _
  have hacc := h.accounted hk
  generalize story (happenings past) n = l at hacc hmem
  cases hacc with
  | taken => exact (hasked _ _ _ rfl).elim
  | reaped => exact (hgone _ rfl).elim
  | crashed => exact (hgone _ rfl).elim
  | _ => simp at hmem

theorem keeper_of_isAtLarge (h : f.isAtLarge n = true) :
    ∃ k, f.keeper? n = some k ∧ (k.awaits = true ∨ k = .nobody) := by
  obtain ⟨e, he, hlarge⟩ := (Option.any_eq_true _ _).mp h
  rw [Encoder.isAtLarge, Bool.or_eq_true, Bool.and_eq_true, decide_eq_true_eq] at hlarge
  exact ⟨e.keeper, keeper?_of_encoder? he, hlarge.imp_right And.left⟩

/-- Someone holds a permit on account of each encoder that is at large, unless it was abandoned, or has been asked to
end for longer than a stop waits. -/
theorem Traced.guarded (h : f.Traced past) (hn : f.isAtLarge n = true) (ht : InTime past n) :
    f.isAbandoned n = true ∨ ∃ a, f.Guards a n := by
  obtain ⟨k, hk, hkeeper⟩ := keeper_of_isAtLarge hn
  have hacc := h.accounted hk
  generalize hl : story (happenings past) n = l at hacc
  cases hacc with
  | @owned id hx => exact .inr ⟨.job id, .owned ((hx (.start id)).mpr rfl)⟩
  | @tracked id key hx =>
    obtain ⟨t, ht, he⟩ := has_source.mp ((hx (.source key)).mpr rfl)
    exact .inr ⟨.source key, .tracked ht he⟩
  | @taken id stop generation key struck _ =>
    have hmem : .taken n key generation stop ∈ story (happenings past) n := by simp [hl]
    obtain ⟨x, hx, hhap⟩ := mem_past_of_story hmem
    rcases h.reaping_or_late hx hhap with ⟨o, t, hs, he, hp⟩ | ⟨k, hk', hawaits⟩ | ⟨y, hy, hlate⟩
    · exact .inr ⟨.job stop, .reaping hs he hp⟩
    · rw [hk] at hk'
      cases hk'
      cases hawaits
    · exact absurd (ht x hx ⟨key, generation, stop, hhap⟩ y hy) (Nat.not_lt.mpr hlate)
  | abandoned => exact .inl (decide_eq_true hk)
  | reaped => rcases hkeeper with hk | hk <;> cases hk
  | crashed => rcases hkeeper with hk | hk <;> cases hk

/-- What is abandoned was killed, by the start that had launched it. -/
theorem Traced.killed_of_abandoned (h : f.Traced past) (hn : f.isAbandoned n = true) :
    f.Killed n ∧ ∃ x ∈ past, ∃ id, x.1.happening? x.2 = some (.abandoned n id) := by
  have hk : f.keeper? n = some .nobody := of_decide_eq_true hn
  refine ⟨h.reachable.killed_of_nobody hk, ?_⟩
  have hacc := h.accounted hk
  generalize hl : story (happenings past) n = l at hacc
  cases hacc with
  | @abandoned id _ =>
    have hmem : .abandoned n id ∈ story (happenings past) n := by simp [hl]
    obtain ⟨x, hx, hhap⟩ := mem_past_of_story hmem
    exact ⟨x, hx, id, hhap⟩

/-- A start that is about to launch has a permit, and if that is the only one, nobody holds one on account of an
encoder. -/
theorem Reachable.unguarded_at_launch {id : Nat} {o : StartOrder} {c : Course} {a : Holder} (hr : f.Reachable)
    (hcap : f.settings.captureCapacity ≤ 1) (hs : f.start? id = some (o, .launch c)) : ¬f.Guards a n := by
  intro ha
  have hload : 1 ≤ f.holds (.job id) := by
    rw [Fleet.holds, hs]
    exact Nat.le_add_right ..
  have hne : a ≠ .job id := by
    rintro rfl
    cases ha with
    | owned hid =>
      rw [owned?_of_start? hs] at hid
      cases hid
    | reaping hs' _ _ =>
      rw [stop?_of_start? hs] at hs'
      cases hs'
  have htwo : [a, .job id].length ≤ f.heldPermits := length_le_heldPermits (by simp [hne]) fun b hb => by
    rcases List.mem_pair.mp hb with rfl | rfl
    · exact ha.holds hr
    · exact hload
  have hone := hr.heldPermits_le
  rw [List.length_cons, List.length_singleton] at htwo
  omega

/-! ## The law of exclusion -/

/-- Take a fleet with its past. Of the encoders that are at large, leaving out those that have been asked to end for as
long as a stop waits or longer, those that were not abandoned are no more than the capacity. What was abandoned was
killed, by the start that had launched it. And where the capacity is one, whenever an encoder is launched, those of an
earlier launch have ended, were abandoned, or have been asked to end for too long. -/
theorem encoders_excluded (h : f.Traced past) :
    (∀ ns : List Nat, ns.Nodup → (∀ n ∈ ns, f.isAtLarge n = true ∧ InTime past n) →
      ns.length ≤ max f.settings.captureCapacity 1 + ns.countP f.isAbandoned) ∧
    (∀ n, f.isAbandoned n = true → f.Killed n ∧
      ∃ x ∈ past, ∃ id, x.1.happening? x.2 = some (.abandoned n id)) ∧
    (f.settings.captureCapacity ≤ 1 → ∀ d g n id, f.perform? d = some g → f.happening? d = some (.launched n id) →
      ∀ m, f.isAtLarge m = true → InTime past m → f.isAbandoned m = true) := by
  have hr := h.reachable
  refine ⟨fun ns hnodup hns => ?_, fun n hn => h.killed_of_abandoned hn,
    fun hcap d g n id hd hlaunch m hm htime => ?_⟩
  · have hguarded : (ns.filter fun n => !f.isAbandoned n).length ≤ max f.settings.captureCapacity 1 := by
      refine length_le_of_guarded hr (hnodup.filter _) fun n hn => ?_
      obtain ⟨hmem, hnot⟩ := List.mem_filter.mp hn
      obtain ⟨hlarge, htime⟩ := hns n hmem
      refine (h.guarded hlarge htime).resolve_left fun hyes => ?_
      simp [hyes] at hnot
    have hsplit := List.length_eq_countP_add_countP f.isAbandoned (l := ns)
    rw [← List.countP_eq_length_filter] at hguarded
    simp only [Bool.not_eq_true, Bool.decide_eq_false] at hsplit
    omega
  · obtain ⟨move, o, c, -, hs⟩ := launched_cases hlaunch
    exact (h.guarded hm htime).resolve_right fun ⟨a, ha⟩ => hr.unguarded_at_launch hcap hs ha

/-- A camera is about to be committed when a stop of it comes in, so that its encoder is abandoned; a kill does not end
this encoder at once. Then another camera is to be started. -/
def overtakenLaunch : List Deed :=
  [.replan (.runs { onKill := none }), .submit (.start camera)] ++ goesOn 0 11 ++
    [.submit (.stop (some "cam") false)] ++ goesOn 1 2 ++ goesOn 0 1 ++
    [.submit (.start { camera with source := .new "door" .url "http://door" })]

/-- The start of the second camera is about to launch its encoder. The one that is still at large was abandoned. -/
theorem excluded_at_second_launch : ∃ f g : Fleet, ∃ past d, f.Traced past ∧ f.settings.captureCapacity = 1 ∧
    f.isAtLarge 0 = true ∧ InTime past 0 ∧ f.perform? d = some g ∧ f.happening? d = some (.launched 1 2) ∧
    f.isAbandoned 0 = true ∧ f.Killed 0 ∧ [0].length ≤ max f.settings.captureCapacity 1 + [0].countP f.isAbandoned := by
  obtain ⟨f, hf, h⟩ := exists_of_run
    (p := fun f => decide (f.settings.captureCapacity = 1) && f.isAtLarge 0 && decide (f.keeper? 0 = some .nobody) &&
      decide (f.happening? (.event (.job 2 .proceed)) = some (.launched 1 2)) &&
      (f.perform? (.event (.job 2 .proceed))).isSome)
    (overtakenLaunch ++ goesOn 2 9) (by decide +kernel)
  simp only [Bool.and_eq_true, decide_eq_true_eq] at h
  obtain ⟨⟨⟨⟨hcap, hlarge⟩, hk⟩, hlaunch⟩, hsome⟩ := h
  obtain ⟨g, hd⟩ := Option.isSome_iff_exists.mp hsome
  obtain ⟨past, hpast⟩ := hf.traced
  have htime : InTime past 0 := hpast.inTime hk nofun nofun
  obtain ⟨hcount, hkilled, hexcluded⟩ := encoders_excluded hpast
  have habandoned := hexcluded (Nat.le_of_eq hcap) _ g 1 2 hd hlaunch 0 hlarge htime
  exact ⟨f, g, past, _, hpast, hcap, hlarge, htime, hd, hlaunch, habandoned, (hkilled 0 habandoned).1,
    hcount [0] (List.nodup_singleton 0) (by simp [hlarge, htime])⟩

/-- There is one permit. A start has given up its encoder and killed it, and before this one has ended, another encoder
is launched. Both are at large, and neither has been asked by a stop to end; the first ends at once after that. -/
theorem launch_beside_abandoned : ∃ f g : Fleet, ∃ past, f.Traced past ∧ f.settings.captureCapacity = 1 ∧
    f.isAtLarge 0 = true ∧ f.isAtLarge 1 = true ∧ InTime past 0 ∧ InTime past 1 ∧ f.Killed 0 ∧
    f.perform? (.exit 0 (some 0)) = some g ∧ g.isAtLarge 0 = false ∧ g.now < g.settings.stopTimeout := by
  obtain ⟨f, hf, h⟩ := exists_of_run
    (p := fun f => decide (f.settings.captureCapacity = 1) && f.isAtLarge 0 && f.isAtLarge 1 &&
      decide (f.keeper? 0 = some .nobody) && decide (f.keeper? 1 = some .launch) &&
      !(f.exit 0 (some 0)).isAtLarge 0 && decide ((f.exit 0 (some 0)).now < (f.exit 0 (some 0)).settings.stopTimeout))
    (overtakenLaunch ++ goesOn 2 10) (by decide +kernel)
  simp only [Bool.and_eq_true, Bool.not_eq_true', decide_eq_true_eq] at h
  obtain ⟨⟨⟨⟨⟨⟨hcap, h₀⟩, h₁⟩, hk₀⟩, hk₁⟩, hend⟩, hnow⟩ := h
  obtain ⟨past, hpast⟩ := hf.traced
  exact ⟨f, f.exit 0 (some 0), past, hpast, hcap, h₀, h₁, hpast.inTime hk₀ nofun nofun, hpast.inTime hk₁ nofun nofun,
    hf.killed_of_nobody hk₀, rfl, hend, hnow⟩

end Fleet

end EncoderFleet
