import EncoderFleet.Proofs.Fleet.Work
import Mathlib.Data.List.Nodup

/-!
# Whose turn it is

`Turns f` says that the lines of a fleet are as they should be: in the line of a source stand exactly the starts of that
source that have got in line, each of them once, and a start that has the turn is the first of them. It holds in all
fleets that can be reached (`Reachable.turns`), so two starts of one source never have the turn at once
(`Turns.alone`).
-/

namespace EncoderFleet.Fleet

/-- Whether a job stands in the line of a source. -/
def stands (f : Fleet) (key : String) (id : Nat) : Bool := (f.start? id).any fun s => s.1.key == key && s.2.queued

/-- Whether a job has the turn of a source. -/
def acts (f : Fleet) (key : String) (id : Nat) : Bool := (f.start? id).any fun s => s.1.key == key && s.2.admitted

/-- In line are those who should be, once each, and first the one who has the turn. -/
structure Turns (f : Fleet) : Prop where
  nodup (key : String) : (f.line key).Nodup
  mem (key : String) (id : Nat) : id ∈ f.line key ↔ f.stands key id = true
  first {key : String} {id : Nat} (h : f.acts key id = true) : (f.line key).head? = some id

variable {f g : Fleet}

theorem stands_of_acts {key : String} {id : Nat} (h : f.acts key id = true) : f.stands key id = true := by
  unfold acts at h
  unfold stands
  cases hs : f.start? id with
  | none => rw [hs] at h; cases h
  | some s =>
    rw [hs, Option.any_some, Bool.and_eq_true] at h
    rw [Option.any_some, Bool.and_eq_true]
    exact ⟨h.1, StartPlace.queued_of_admitted h.2⟩

theorem acts_of_start? {id : Nat} {o : StartOrder} {p : StartPlace} (h : f.start? id = some (o, p))
    (hp : p.admitted = true) : f.acts o.key id = true := by
  simp [acts, h, hp]

/-- Two starts of one source never have the turn at once. -/
theorem Turns.alone (h : f.Turns) {key : String} {i j : Nat} (hi : f.acts key i = true) (hj : f.acts key j = true) :
    i = j :=
  Option.some.inj ((h.first hi).symm.trans (h.first hj))

/-! ## Moves in the lines -/

/-- What a deed does to the lines. -/
inductive LineMove (f g : Fleet) : Prop
  /-- Nobody gets in line or out of it, and whoever gets the turn is the first. -/
  | same (hl : g.lines = f.lines) (hs : ∀ key id, g.stands key id = f.stands key id)
      (ha : ∀ key id, g.acts key id = true → f.acts key id = true ∨ (f.line key).head? = some id)
  | entered (key : String) (id : Nat) (hl : g.lines = f.lines.insert key (f.line key ++ [id]))
      (hn : f.stands key id = false)
      (hs : ∀ k i, g.stands k i = true ↔ f.stands k i = true ∨ (k = key ∧ i = id))
      (ha : ∀ k i, g.acts k i = true → f.acts k i = true)
  | left (key : String) (id : Nat) (hl : g.lines = f.lines.insert key ((f.line key).erase id))
      (hs : ∀ k i, g.stands k i = true ↔ f.stands k i = true ∧ ¬(k = key ∧ i = id))
      (ha : ∀ k i, g.acts k i = true → f.acts k i = true)

theorem line_of_insert {key : String} {l : List Nat} (h : g.lines = f.lines.insert key l) (k : String) :
    g.line k = if k = key then l else f.line k := by
  unfold line
  rw [h, KeyMap.get?_insert]
  split <;> rfl

theorem Turns.move (h : f.Turns) (hm : LineMove f g) : g.Turns := by
  cases hm with
  | same hl hs ha =>
    have hline : ∀ k, g.line k = f.line k := fun k => by unfold line; rw [hl]
    refine ⟨fun k => hline k ▸ h.nodup k, fun k i => by rw [hline, hs]; exact h.mem k i, ?_⟩
    intro k i hi
    rw [hline]
    rcases ha k i hi with hi | hi
    · exact h.first hi
    · exact hi
  | entered key id hl hn hs ha =>
    have hline := line_of_insert hl
    have hid : id ∉ f.line key := by rw [h.mem, hn]; exact Bool.false_ne_true
    refine ⟨fun k => ?_, fun k i => ?_, fun {k i} hi => ?_⟩
    · rw [hline]
      split
      · rw [List.nodup_append]
        refine ⟨h.nodup key, List.nodup_singleton id, ?_⟩
        intro a ha b hb hab
        rw [List.mem_singleton.mp hb] at hab
        exact hid (hab ▸ ha)
      · exact h.nodup k
    · rw [hline, hs]
      split
      · next hk => rw [List.mem_append, List.mem_singleton, hk, h.mem]; simp
      · next hk => rw [h.mem]; simp [hk]
    · rw [hline]
      have hf := h.first (ha k i hi)
      split
      · next hk => rw [hk] at hf; rw [List.head?_append, hf, Option.some_or]
      · exact hf
  | left key id hl hs ha =>
    have hline := line_of_insert hl
    refine ⟨fun k => ?_, fun k i => ?_, fun {k i} hi => ?_⟩
    · rw [hline]
      split
      · exact (h.nodup key).erase id
      · exact h.nodup k
    · rw [hline, hs]
      split
      · next hk => rw [(h.nodup key).mem_erase_iff, hk, h.mem, and_comm]; simp
      · next hk => rw [h.mem]; simp [hk]
    · rw [hline]
      have hf := h.first (ha k i hi)
      have hne := ((hs k i).mp (stands_of_acts hi)).2
      split
      · next hk =>
        rw [hk] at hf hne
        obtain ⟨rest, hrest⟩ := List.head?_eq_some_iff.mp hf
        have hne : i ≠ id := fun h => hne ⟨rfl, h⟩
        rw [hrest, List.erase_cons_tail (by simpa using hne)]
        rfl
      · exact hf

/-! ## Deeds -/

/-- Where nobody moves, nobody gets in line. -/
theorem Unmoved.lineMove (hl : g.lines = f.lines) (h : f.Unmoved g) : LineMove f g := by
  refine .same hl (fun key id => ?_) fun key id ha => .inl ?_
  · rw [stands, h.start?]; rfl
  · rwa [acts, h.start?] at ha

/-- Whoever is not in line and does not get there changes nothing. -/
theorem Passed.lineMove {id : Nat} {s : Option (StartOrder × StartPlace)} {t : Option (StopOrder × StopPlace)}
    (hl : g.lines = f.lines) (hf : f.start? id = none) (hs : s.all fun s => !s.2.queued) (h : f.Passed g id s t) :
    LineMove f g := by
  have hq : ∀ key, g.stands key id = false := fun key => by
    rw [stands, h.start?, if_pos rfl]
    cases s with
    | none => rfl
    | some s => simp_all
  refine .same hl (fun key k => ?_) fun key k ha => .inl ?_
  · by_cases hk : k = id
    · rw [hk, hq, stands, hf]; rfl
    · rw [stands, h.start?, if_neg hk]; rfl
  · by_cases hk : k = id
    · rw [hk] at ha
      exact absurd (stands_of_acts ha) (by simp [hq])
    · rwa [acts, h.start?, if_neg hk] at ha

theorem StartStep.lineMove {id : Nat} {o : StartOrder} {p : StartPlace} {m : Move} {h : Fleet}
    {r : After StartPlace StartResult} {t : Option (StopOrder × StopPlace)} (hs : f.start? id = some (o, p))
    (step : StartStep f id o p m g r) (hf : g.Framed h) (hp : f.Passed h id (r.place?.map fun p => (o, p)) t) :
    LineMove f h := by
  have hstands : ∀ k i, h.stands k i =
      if i = id then o.key == k && r.place?.any StartPlace.queued else f.stands k i := fun k i => by
    rw [stands, hp.start?]
    split
    · cases r.place? <;> simp
    · rfl
  have hacts : ∀ k i, h.acts k i =
      if i = id then o.key == k && r.place?.any StartPlace.admitted else f.acts k i := fun k i => by
    rw [acts, hp.start?]
    split
    · cases r.place? <;> simp
    · rfl
  have hfs : ∀ k, f.stands k id = (o.key == k && p.queued) := fun k => by rw [stands, hs]; rfl
  have hfa : ∀ k, f.acts k id = (o.key == k && p.admitted) := fun k => by rw [acts, hs]; rfl
  rcases step.agenda with ⟨ha, hq, hadm⟩ | ⟨rfl, hq, e, rfl⟩ | ⟨rfl, hq, a, rfl⟩
  · refine .same (hf.lines.trans ha.lines) (fun k i => ?_) fun k i hi => ?_
    · rw [hstands]
      split
      · next hi => rw [hi, hfs, hq]
      · rfl
    · rw [hacts] at hi
      split at hi
      · next hid =>
        rw [Bool.and_eq_true, beq_iff_eq] at hi
        rw [hid, hfa, ← hi.1]
        rcases hadm hi.2 with hadm | hadm
        · exact .inl (by simp [hadm])
        · exact .inr hadm
      · exact .inl hi
  · refine .entered o.key id hf.lines (by simp [hfs, hq]) (fun k i => ?_) fun k i hi => ?_
    · rw [hstands]
      split
      · next hid =>
        have ht : (StartPlace.turn e).queued = true := rfl
        subst hid
        simpa [hfs, hq, After.place?, ht] using eq_comm
      · next hid => simp [hid]
    · rw [hacts] at hi
      split at hi
      · simp [After.place?, StartPlace.admitted] at hi
      · exact hi
  · refine .left o.key id hf.lines (fun k i => ?_) fun k i hi => ?_
    · rw [hstands]
      split
      · next hid => subst hid; simp [hfs, hq, After.place?]; exact fun h => h.symm
      · next hid => simp [hid]
    · rw [hacts] at hi
      split at hi
      · simp [After.place?] at hi
      · exact hi

theorem lines_prepare (f : Fleet) (r : Request) : (f.prepare r).lines = f.lines := by
  unfold prepare
  split <;> rfl

theorem Worked.lineMove {d : Deed} (h : Worked f d g) : LineMove f g := by
  cases h with
  | start hs _ step hf hp => exact step.lineMove hs hf hp
  | stop hs _ _ step hf hp => exact hp.lineMove (hf.lines.trans step.agenda.lines) hs rfl
  | begun hs _ hf hp => exact hp.lineMove hf.lines hs rfl
  | unmarked hs _ _ _ _ _ hf hp => exact hp.lineMove hf.lines hs rfl
  | turned hs _ _ hf hp => exact hp.lineMove hf.lines hs rfl
  | @noticed n generation key _ _ code =>
    have h := agenda_noticed f key generation n code
    exact Unmoved.lineMove h.lines h.unmoved
  | @submitted r _ hf hu => exact hu.lineMove (hf.lines.trans (lines_prepare f r))
  | idle _ _ hl _ hu => exact hu.lineMove hl
  | struck => exact Unmoved.lineMove rfl (SameAgenda.unmoved ⟨rfl, rfl, rfl, rfl⟩)
  | reaped => exact Unmoved.lineMove rfl (SameAgenda.unmoved ⟨rfl, rfl, rfl, rfl⟩)
  | noted => exact Unmoved.lineMove rfl (SameAgenda.unmoved ⟨rfl, rfl, rfl, rfl⟩)
  | marked => exact Unmoved.lineMove rfl (SameAgenda.unmoved ⟨rfl, rfl, rfl, rfl⟩)
  | exited => exact Unmoved.lineMove rfl (SameAgenda.unmoved ⟨rfl, rfl, rfl, rfl⟩)

theorem Reachable.worked {d : Deed} (h : f.Reachable) (hd : f.perform? d = some g) : Worked f d g :=
  (performed hd).worked h.numbered

theorem Reachable.turns (h : f.Reachable) : f.Turns := by
  induction h with
  | fresh => exact ⟨fun _ => .nil, fun _ _ => ⟨nofun, nofun⟩, nofun⟩
  | perform hr hd ih => exact ih.move (hr.worked hd).lineMove

end EncoderFleet.Fleet
