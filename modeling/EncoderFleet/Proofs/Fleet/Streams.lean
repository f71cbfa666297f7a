import EncoderFleet.Proofs.Fleet.Steps

/-!
# What leaves encoders and hubs alone

Units go from encoders to hubs, and most of what happens to a fleet touches neither: it changes what is known about
sources, permits, files or the configuration. Two fleets have the same streams when they have the same encoders and the
same hubs (`Fleet.SameStreams`). Deeds that keep the streams are *clerical* (`perform_sameStreams`).
-/

namespace EncoderFleet

/-- Deeds that touch neither encoders nor hubs. -/
def Deed.isClerical : Deed → Bool
  | .event (.pass _) | .submit _ | .collect _ | .forget _ | .note _ | .mark _ _ | .borrow _ _ | .giveBack _ | .replan _
  | .setFlags _ | .replaceProfiles _ | .files _ | .processes _ => true
  | _ => false

namespace Fleet

/-- Two fleets with the same encoders and the same hubs. -/
structure SameStreams (f g : Fleet) : Prop where
  encoders : g.encoders = f.encoders
  hubs : g.hubs = f.hubs

variable {f g h : Fleet}

theorem SameStreams.refl (f : Fleet) : f.SameStreams f := ⟨rfl, rfl⟩

theorem SameStreams.trans (hg : f.SameStreams g) (hh : g.SameStreams h) : f.SameStreams h :=
  ⟨hh.encoders.trans hg.encoders, hh.hubs.trans hg.hubs⟩

theorem SameStreams.standings (h : f.SameStreams g) : g.standings = f.standings :=
  congrArg (List.map Encoder.standing) h.encoders

theorem sameStreams_putJob (f : Fleet) (id : Nat) (j : Job) : f.SameStreams (f.putJob id j) := by
  unfold putJob
  split
  · split <;> exact ⟨rfl, rfl⟩
  · exact ⟨rfl, rfl⟩

theorem sameStreams_lend (f : Fleet) (holder source : String) : f.SameStreams (f.lend holder source) := by
  unfold lend
  dsimp only
  split <;> exact ⟨rfl, rfl⟩

theorem sameStreams_lendFrom (f : Fleet) (gate : Gate) (holder source : String) :
    f.SameStreams ({ f with gate := gate }.lend holder source) :=
  SameStreams.trans (g := { f with gate := gate }) ⟨rfl, rfl⟩ (sameStreams_lend ..)

theorem sameStreams_clearOrphans (f : Fleet) (c : Command) : f.SameStreams (f.clearOrphans c) := by
  unfold clearOrphans
  split
  · exact .refl f
  · split <;> exact ⟨rfl, rfl⟩

theorem sameStreams_makeWay (f : Fleet) (c : Command) : f.SameStreams (f.makeWay c).1 := by
  unfold makeWay
  split <;> exact ⟨rfl, rfl⟩

theorem sameStreams_restoreLife (f : Fleet) (o : StartOrder) (prior : Lifecycle) :
    f.SameStreams (f.restoreLife o prior) := by
  unfold restoreLife
  split
  · exact .refl f
  · split <;> exact ⟨rfl, rfl⟩

theorem sameStreams_recordStop (f : Fleet) (key : String) (t : Taken) (code : ExitCode) :
    f.SameStreams (f.recordStop key t code) := by
  unfold recordStop
  split <;> exact ⟨rfl, rfl⟩

theorem sameStreams_recordCrash (f : Fleet) (key : String) (generation : Nat) (code : ExitCode) :
    f.SameStreams (f.recordCrash key generation code) := by
  unfold recordCrash
  split
  · exact .refl f
  · split
    · split <;> exact ⟨rfl, rfl⟩
    · exact .refl f

theorem sameStreams_stepChange {p : ChangePlace} {m : Move} {j : Job} (h : f.stepChange p m = some (g, j)) :
    f.SameStreams g := by
  unfold stepChange at h
  split at h
  · next c =>
    cases c with
    | activate name =>
      simp only [change] at h
      cases hc : f.catalog.activate name with
      | ok r => rw [hc] at h; cases h; exact ⟨rfl, rfl⟩
      | error e => rw [hc] at h; cases h; exact .refl f
    | _ => cases h; exact ⟨rfl, rfl⟩
  · cases h; exact .refl f
  · cases h; exact ⟨rfl, rfl⟩
  · cases h

theorem sameStreams_stepPermit {id : Nat} {holder source : String} {p : PermitPlace} {m : Move} {j : Job}
    (h : f.stepPermit id holder source p m = some (g, j)) : f.SameStreams g := by
  cases jobStep_of_stepPermit h with
  | @lent _ _ _ gate => exact sameStreams_lendFrom f gate holder source
  | @granted _ _ _ gate => exact sameStreams_lendFrom f gate holder source
  | _ => exact ⟨rfl, rfl⟩

theorem perform_sameStreams {d : Deed} (hd : f.perform? d = some g) (hc : d.isClerical = true) : f.SameStreams g := by
  cases d with
  | event e =>
    cases e with
    | pass ms => cases hd; exact ⟨rfl, rfl⟩
    | _ => cases hc
  | submit r =>
    cases hd
    unfold submit prepare
    dsimp only
    split <;> exact ⟨rfl, rfl⟩
  | collect id =>
    obtain ⟨r, hr, rfl⟩ := Option.map_eq_some_iff.mp hd
    obtain ⟨a, -, rfl⟩ := Option.map_eq_some_iff.mp hr
    exact ⟨rfl, rfl⟩
  | forget id =>
    cases hd
    unfold forget
    split
    · exact .refl f
    · exact ⟨rfl, rfl⟩
    · exact ⟨rfl, rfl⟩
  | borrow holder source =>
    simp only [perform?, tryLend] at hd
    split at hd
    · next gate _ =>
      cases hd
      exact sameStreams_lendFrom f gate holder source
    · cases hd
  | giveBack holder =>
    cases hd
    unfold takeBack
    split
    · exact ⟨rfl, rfl⟩
    · exact .refl f
  | replan plan =>
    cases hd
    unfold replan
    split
    · exact ⟨rfl, rfl⟩
    · exact .refl f
  | note | mark | setFlags | replaceProfiles | files | processes => cases hd; exact ⟨rfl, rfl⟩
  | exit | feed | breakPipe | closePipe | subscribe | receive | unsubscribe => cases hc

end Fleet

end EncoderFleet
