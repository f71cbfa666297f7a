import EncoderFleet.Proofs.Fleet.Places
import EncoderFleet.Proofs.Fleet.Deeds

/-!
# What an operation leaves as it is

Most operations of a fleet touch files, hubs, pumps or the process table. Two fleets are *framed* when what is known
about sources, the lines, the gate, the lent permits and the standings of all encoders are the same in both; the
standing of an encoder is who answers for it, how often it was killed and how it ended. They are *kept* when their jobs
are the same as well. Most operations on what is framed leave alone what there is to do, which is the *agenda*: jobs
and lines. Those that only keep records leave the *accounts* alone as well: the gate and the lent permits.
-/

namespace EncoderFleet

/-- Who answers for an encoder, how often it was killed, and how it ended. -/
structure Standing where
  keeper : Keeper
  kills : Nat
  ended : Option ExitCode
deriving DecidableEq

/-- The standing of an encoder. -/
def Encoder.standing (e : Encoder) : Standing := ⟨e.keeper, e.kills, e.ended⟩

namespace Standing

/-- The encoder ends. -/
def finish (s : Standing) (code : ExitCode) : Standing := { s with ended := s.ended <|> some code }

end Standing

namespace Fleet

/-- The standings of all encoders. -/
def standings (f : Fleet) : List Standing := f.encoders.map Encoder.standing

theorem standings_getElem? (f : Fleet) (n : Nat) : f.standings[n]? = (f.encoder? n).map Encoder.standing :=
  List.getElem?_map

theorem map_modify {α β : Type} {h : α → β} {c : α → α} {d : β → β} (hc : ∀ a, h (c a) = d (h a)) (l : List α)
    (n : Nat) : (l.modify n c).map h = (l.map h).modify n d := by
  refine List.ext_getElem? fun i => ?_
  rw [List.getElem?_map, List.getElem?_modify, List.getElem?_modify, List.getElem?_map]
  cases l[i]? with
  | none => rfl
  | some a => by_cases hi : n = i <;> simp [hi, hc]

/-- Two fleets that agree on sources, lines, permits and the standings of encoders. -/
structure Framed (f g : Fleet) : Prop where
  settings : g.settings = f.settings
  states : g.states = f.states
  lines : g.lines = f.lines
  gate : g.gate = f.gate
  lent : g.lent = f.lent
  standings : g.standings = f.standings

/-- Two fleets that agree on all that is framed and on their jobs. -/
structure Kept (f g : Fleet) : Prop extends Framed f g where
  jobs : g.jobs = f.jobs
  nextJob : g.nextJob = f.nextJob

/-- Two fleets in which the same is to be done: they agree on settings, jobs and lines. -/
structure SameAgenda (f g : Fleet) : Prop where
  settings : g.settings = f.settings
  lines : g.lines = f.lines
  jobs : g.jobs = f.jobs
  nextJob : g.nextJob = f.nextJob

/-- Two fleets in which the same is to be done and the same permits are free and lent. -/
structure SameAccounts (f g : Fleet) : Prop extends SameAgenda f g where
  gate : g.gate = f.gate
  lent : g.lent = f.lent

variable {f g h : Fleet}

theorem Framed.refl (f : Fleet) : f.Framed f := ⟨rfl, rfl, rfl, rfl, rfl, rfl⟩

theorem Kept.refl (f : Fleet) : f.Kept f := ⟨.refl f, rfl, rfl⟩

theorem Framed.trans (hg : f.Framed g) (hh : g.Framed h) : f.Framed h :=
  ⟨hh.settings.trans hg.settings, hh.states.trans hg.states, hh.lines.trans hg.lines, hh.gate.trans hg.gate,
    hh.lent.trans hg.lent, hh.standings.trans hg.standings⟩

theorem SameAgenda.refl (f : Fleet) : f.SameAgenda f := ⟨rfl, rfl, rfl, rfl⟩

theorem SameAgenda.trans (hg : f.SameAgenda g) (hh : g.SameAgenda h) : f.SameAgenda h :=
  ⟨hh.settings.trans hg.settings, hh.lines.trans hg.lines, hh.jobs.trans hg.jobs, hh.nextJob.trans hg.nextJob⟩

theorem SameAccounts.refl (f : Fleet) : f.SameAccounts f := ⟨.refl f, rfl, rfl⟩

theorem SameAccounts.trans (hg : f.SameAccounts g) (hh : g.SameAccounts h) : f.SameAccounts h :=
  ⟨hg.toSameAgenda.trans hh.toSameAgenda, hh.gate.trans hg.gate, hh.lent.trans hg.lent⟩

theorem Kept.agenda (h : f.Kept g) : f.SameAgenda g := ⟨h.settings, h.lines, h.jobs, h.nextJob⟩

/-- A change that spares the standing of an encoder spares all standings. -/
theorem map_standing_modify (es : List Encoder) (n : Nat) {change : Encoder → Encoder}
    (hc : ∀ e, (change e).standing = e.standing) :
    (es.modify n change).map Encoder.standing = es.map Encoder.standing := by
  rw [map_modify (d := id) hc, List.modify_id]

theorem kept_stopPump (f : Fleet) (n : Nat) : f.Kept (f.stopPump n) := by
  unfold stopPump
  split
  · exact .refl f
  · exact ⟨⟨rfl, rfl, rfl, rfl, rfl, @map_standing_modify f.encoders n Encoder.detach fun _ => rfl⟩, rfl, rfl⟩

theorem kept_clearOrphans (f : Fleet) (c : Command) : f.Kept (f.clearOrphans c) := by
  unfold clearOrphans
  split
  · exact .refl f
  · split
    · exact ⟨⟨rfl, rfl, rfl, rfl, rfl, rfl⟩, rfl, rfl⟩
    · exact .refl f

theorem kept_makeWay (f : Fleet) (c : Command) : f.Kept (f.makeWay c).1 := by
  unfold makeWay
  split
  · exact .refl f
  · exact ⟨⟨rfl, rfl, rfl, rfl, rfl, rfl⟩, rfl, rfl⟩

theorem kept_openHub (f : Fleet) (o : StartOrder) (c : Command) (n : Nat) : f.Kept (f.openHub o c n) := by
  unfold openHub
  split
  · dsimp only
    split
    · exact ⟨⟨rfl, rfl, rfl, rfl, rfl, map_standing_modify f.encoders n fun _ => rfl⟩, rfl, rfl⟩
    · exact ⟨⟨rfl, rfl, rfl, rfl, rfl, rfl⟩, rfl, rfl⟩
  · exact ⟨⟨rfl, rfl, rfl, rfl, rfl, map_standing_modify f.encoders n fun _ => rfl⟩, rfl, rfl⟩

theorem kept_pumpOnce {n : Nat} (h : f.pumpOnce n = some g) : f.Kept g := by
  unfold pumpOnce at h
  split at h
  · cases h
  · split at h
    · cases h
    · split at h
      · split at h
        · cases h; exact kept_stopPump f n
        · cases h
      · cases h; exact ⟨⟨rfl, rfl, rfl, rfl, rfl, map_standing_modify f.encoders n fun _ => rfl⟩, rfl, rfl⟩

theorem kept_modifyPipe (f : Fleet) (n : Nat) (change : Pipe → Pipe) : f.Kept (f.modifyPipe n change) :=
  ⟨⟨rfl, rfl, rfl, rfl, rfl, map_standing_modify f.encoders n fun _ => rfl⟩, rfl, rfl⟩

end Fleet

end EncoderFleet
