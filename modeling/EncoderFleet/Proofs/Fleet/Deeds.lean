import EncoderFleet.Fleet.Request
import EncoderFleet.Fleet.Surroundings
import Mathlib.Logic.Relation

/-!
# Everything that can happen to a fleet

A `Deed` is anything that changes a fleet: an event of its own, a request that is taken in, an answer that is collected,
what callers do to marks and permits, what encoders and viewers do. Deeds happen one after another, in any order in
which each of them is possible. A fleet is *reachable* when deeds lead to it from a fleet in which nothing has happened
yet (`Fleet.Reachable`); `Fleet.Later` relates a fleet to those that deeds lead to from it.
-/

namespace EncoderFleet

/-- Something that changes a fleet. -/
inductive Deed
  /-- The fleet goes on by itself. -/
  | event (e : Event)
  /-- A request is taken in. -/
  | submit (r : Request)
  /-- The answer of a finished job is taken. -/
  | collect (id : Nat)
  /-- Nobody will take the answer of a job. -/
  | forget (id : Nat)
  /-- A source is taken note of; setting its mark begins with this. -/
  | note (id : String)
  /-- The mark that a user stopped a source is set or cleared. -/
  | mark (id : String) (value : Bool)
  /-- A caller takes a permit that is free right now. -/
  | borrow (holder source : String)
  /-- A caller gives its permit back. -/
  | giveBack (holder : String)
  /-- An encoder ends by itself. -/
  | exit (encoder : Nat) (code : ExitCode)
  | feed (encoder : Nat) (bs : Bytes)
  | breakPipe (encoder : Nat)
  | closePipe (encoder : Nat)
  | replan (plan : LaunchPlan)
  | setFlags (flags : OutputFlags)
  | replaceProfiles (profiles : List Profile)
  | subscribe (id : String)
  | receive (s : Subscription)
  | unsubscribe (s : Subscription)
  /-- The files change. -/
  | files (t : FileTree)
  /-- The process table changes. -/
  | processes (t : ProcessTable)

namespace Fleet

/-- What a deed does, if it is possible. -/
def perform? (f : Fleet) : Deed → Option Fleet
  | .event e => f.step? e
  | .submit r => some (f.submit r).2
  | .collect id => (f.collect id).map Prod.snd
  | .forget id => some (f.forget id)
  | .note id => some (f.ensure id)
  | .mark id value => some (f.setManualStop id value)
  | .borrow holder source => (f.tryLend holder source).toOption
  | .giveBack holder => some (f.takeBack holder)
  | .exit n code => some (f.exit n code)
  | .feed n bs => some (f.feed n bs)
  | .breakPipe n => some (f.breakPipe n)
  | .closePipe n => some (f.closePipe n)
  | .replan plan => some (f.replan plan)
  | .setFlags flags => some (f.setFlags flags)
  | .replaceProfiles profiles => some (f.replaceProfiles profiles)
  | .subscribe id => (f.subscribe id).toOption.map Prod.snd
  | .receive s => some { f with hubs := (f.hubs.receive s).2.2 }
  | .unsubscribe s => some { f with hubs := f.hubs.unsubscribe s }
  | .files t => some { f with files := t }
  | .processes t => some { f with table := f.table.map fun _ => t }

/-- Deeds, one after another. -/
def performAll? (f : Fleet) (ds : List Deed) : Option Fleet := ds.foldlM perform? f

/-- A fleet in which nothing has happened yet, in given surroundings. -/
def fresh (settings : Settings) (platform : Platform) (d : Document) (archive : Archive) (flags : OutputFlags)
    (files : FileTree) (launcher : Launcher) (table : Option ProcessTable) : Fleet :=
  { Fleet.new settings platform d archive with flags := flags, files := files, launcher := launcher, table := table }

/-- The fleets that deeds lead to. -/
inductive Reachable : Fleet → Prop
  | fresh (settings : Settings) (platform : Platform) (d : Document) (archive : Archive) (flags : OutputFlags)
      (files : FileTree) (launcher : Launcher) (table : Option ProcessTable) :
      Reachable (fresh settings platform d archive flags files launcher table)
  | perform {f g : Fleet} {d : Deed} : Reachable f → f.perform? d = some g → Reachable g

/-- Deeds lead from one fleet to the other. -/
abbrev Later : Fleet → Fleet → Prop := Relation.ReflTransGen fun f g => ∃ d, f.perform? d = some g

theorem Reachable.later {f g : Fleet} (h : f.Reachable) (hg : f.Later g) : g.Reachable := by
  induction hg with
  | refl => exact h
  | tail _ hs ih => obtain ⟨d, hd⟩ := hs; exact ih.perform hd

theorem Reachable.performAll {f g : Fleet} (h : f.Reachable) {ds : List Deed} (hg : f.performAll? ds = some g) :
    g.Reachable := by
  induction ds generalizing f with
  | nil => cases hg; exact h
  | cons d ds ih =>
    obtain ⟨e, he, hg⟩ := Option.bind_eq_some_iff.mp hg
    exact ih (h.perform he) hg

/-! ## A plain fleet -/

/-- A fleet with plain settings, for which every launch goes well. -/
def plain : Fleet := fresh {} .linux {} (.memory {}) {} .empty (.planned (.runs {})) none

/-- A start of a camera. -/
def camera : StartOrder := { source := .new "cam" .url "http://camera", flags := { flv := true } }

/-- A job goes on, several times. -/
def goesOn (id steps : Nat) : List Deed := List.replicate steps (.event (.job id .proceed))

/-- What a run of the plain fleet shows is shown by a fleet that can be reached. -/
theorem exists_of_run {p : Fleet → Bool} (ds : List Deed) (h : (plain.performAll? ds).any p = true) :
    ∃ f : Fleet, f.Reachable ∧ p f = true := by
  obtain ⟨f, hf, hp⟩ := (Option.any_eq_true _ _).mp h
  have hr : plain.Reachable := .fresh ..
  exact ⟨f, hr.performAll hf, hp⟩

end Fleet

end EncoderFleet
