import EncoderFleet.Device.Gate
import EncoderFleet.Document.Archive
import EncoderFleet.Encoder.Basic
import EncoderFleet.Fleet.Job
import EncoderFleet.Live.Hubs
import EncoderFleet.Process.Cleanup

/-!
# The fleet

A `Fleet` is everything at one moment: the configuration, what is known about each source, the gate before the capture
device, the hubs, the encoders that were ever launched, the jobs under way, and the surroundings that encoders are
launched in. Here are its parts and what can be asked and changed in one step; what takes several steps is a job.
-/

namespace EncoderFleet

/-- Everything at one moment. -/
structure Fleet where
  settings : Settings
  catalog : Catalog
  sources : Sources
  flags : OutputFlags := {}
  archive : Archive
  files : FileTree := .empty
  launcher : Launcher := .planned (.runs {})
  /-- The process table in which orphans are looked for. -/
  table : Option ProcessTable := none
  hubs : Hubs
  gate : Gate
  /-- The permits that are with callers outside of the fleet: the source of each, by the name of its holder. -/
  lent : KeyMap String String := {}
  /-- What is known about each source, by its key. -/
  states : KeyMap String SourceState := {}
  /-- The jobs that stand in line for the turn of each source; the first of them has it. -/
  lines : KeyMap String (List Nat) := {}
  /-- All encoders that were ever launched, in order. -/
  encoders : List Encoder := []
  /-- All jobs whose answer was not taken, by number. -/
  jobs : KeyMap Nat Job := {}
  nextJob : Nat := 0
  /-- Jobs whose answer nobody will take. -/
  orphaned : List Nat := []
  /-- The clock, in milliseconds. -/
  now : Nat := 0

namespace Fleet

/-- A fleet with this configuration, in which nothing has happened yet. -/
def new (settings : Settings) (platform : Platform) (d : Document) (archive : Archive) : Fleet where
  settings := settings
  catalog := .new platform d.profiles d.activeProfile
  sources := .ofList d.sources
  archive := archive
  hubs := { capacity := settings.hubCapacity }
  gate := .new settings.captureCapacity

/-- The platform that encoders run on. -/
def platform (f : Fleet) : Platform := f.catalog.platform

/-! ## Sources -/

/-- What is known about a source. -/
def state? (f : Fleet) (key : String) : Option SourceState := f.states.get? key

/-- Keep what is known about a source. -/
def putState (f : Fleet) (key : String) (s : SourceState) : Fleet := { f with states := f.states.insert key s }

/-- What is known about a source, and what there is to know about one never heard of. -/
def stateOrNew (f : Fleet) (id : String) : SourceState := (f.state? (Text.fold id)).getD { source := id }

/-- Take note of a source. -/
def ensure (f : Fleet) (id : String) : Fleet := f.putState (Text.fold id) (f.stateOrNew id)

/-- Set or clear the mark that a user stopped the source. -/
def setManualStop (f : Fleet) (id : String) (value : Bool) : Fleet :=
  f.putState (Text.fold id) { f.stateOrNew id with manualStop := value }

/-- Whether a user stopped the source. -/
def isManualStop (f : Fleet) (id : String) : Bool := (f.state? (Text.fold id)).any SourceState.manualStop

/-- Whether an encoder runs for the source. -/
def isRunning (f : Fleet) (id : String) : Bool := (f.state? (Text.fold id)).any SourceState.isRunning

/-- What a caller sees of a source. -/
def status? (f : Fleet) (id : String) : Option Status := (f.state? (Text.fold id)).map SourceState.status

/-- The keys of all sources ever heard of, sorted. -/
def keys (f : Fleet) : List String := f.states.keys.mergeSort fun a b => !decide (b < a)

/-- What a caller sees of all sources ever heard of. -/
def statuses (f : Fleet) : List Status := (f.keys.filterMap f.state?).map SourceState.status

/-! ## Encoders -/

/-- The pid of the first encoder. -/
def firstPid : Nat := 1000

/-- The pid of an encoder. -/
def pidOf (n : Nat) : UInt32 := UInt32.ofNat (firstPid + n)

/-- A launched encoder. -/
def encoder? (f : Fleet) (n : Nat) : Option Encoder := f.encoders[n]?

/-- The pid of a launched encoder, if it is known. -/
def pid? (f : Fleet) (n : Nat) : Option UInt32 :=
  (f.encoder? n).bind fun e => if e.behaviour.hasPid then some (pidOf n) else none

/-- Change an encoder. -/
def modifyEncoder (f : Fleet) (n : Nat) (change : Encoder → Encoder) : Fleet :=
  { f with encoders := f.encoders.modify n change }

/-- Take the pump of an encoder away, if it has one; the hub that it published to is let go. -/
def stopPump (f : Fleet) (n : Nat) : Fleet :=
  match (f.encoder? n).bind Encoder.pump with
  | none => f
  | some p => { f.modifyEncoder n Encoder.detach with hubs := f.hubs.release p.hub }

/-- The name under which encoders stand in a process table. -/
def executable (f : Fleet) : String := f.platform.executableName f.settings.encoderPath

/-! ## The capture device -/

/-- Give a permit back. -/
def releasePermit (f : Fleet) : Fleet := { f with gate := f.gate.release }

/-- Whether a caller holds a permit. -/
def isLent (f : Fleet) (holder : String) : Bool := f.lent.contains holder

/-- Let a caller hold a permit that was acquired for it. A caller holds one permit at most: one that it held before goes
back. -/
def lend (f : Fleet) (holder source : String) : Fleet :=
  let g := { f with lent := f.lent.insert holder source }
  if f.isLent holder then g.releasePermit else g

/-- Lend a permit to a caller, if one is free right now. -/
def tryLend (f : Fleet) (holder source : String) : Except Failure Fleet :=
  match f.gate.tryAcquire with
  | some g => .ok ({ f with gate := g }.lend holder source)
  | none => .error (.captureBusy source)

/-- Take back the permit that a caller holds, if it holds one. -/
def takeBack (f : Fleet) (holder : String) : Fleet :=
  if f.isLent holder then { f.releasePermit with lent := f.lent.erase holder } else f

end Fleet

end EncoderFleet
