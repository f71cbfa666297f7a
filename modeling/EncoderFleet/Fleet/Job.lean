import EncoderFleet.Document.Basic
import EncoderFleet.Fleet.State

/-!
# Jobs

A request to the fleet becomes a `Job`, and a job is worked off in small steps. Between two steps of a job anything else
may happen. So what a job has to remember from one step to the next is its *place*, and a place names everything that
the job holds there: an epoch, a turn, a permit, an encoder.

* `StopPlace`: take the encoder away and ask for its kill, wait for its end, give the permit back, drop the hub, record.
* `StartPlace`: get the source's turn, stop the old encoder if asked to, clear away orphans, get a permit, make way for
  the output, launch, open a hub, commit; on a failure go back to what was before.
* A batch does one start after another, and a sweep one stop after another.
-/

namespace EncoderFleet

/-! ## Stops -/

/-- What a stop took away from a source. -/
structure Taken where
  source : String
  tracked : Tracked
  permit : Bool
deriving DecidableEq

/-- Where the stop of one source stands. -/
inductive StopPlace
  /-- Before it takes the encoder away. -/
  | take
  /-- Waiting for the encoder to end, at most until the deadline. -/
  | reap (taken : Taken) (deadline : Nat)
  /-- Before it gives the permit back. -/
  | release (taken : Taken) (code : Option Int)
  /-- Before it drops the hub. -/
  | dropHub (taken : Taken) (code : Option Int)
  /-- Before it records the end. -/
  | record (taken : Taken) (code : Option Int)
deriving DecidableEq

/-- What is to be stopped, and how. -/
structure StopOrder where
  key : String
  manual : Bool
  /-- Whether starts under way are overtaken. -/
  overtakes : Bool
deriving DecidableEq

/-! ## Starts -/

/-- What is to be started, and how. -/
structure StartOrder where
  source : Source
  flags : OutputFlags
  restart : Bool := false
  force : Bool := false
deriving DecidableEq

namespace StartOrder

/-- The key of the source. -/
def key (o : StartOrder) : String := Text.fold o.source.id

/-- Whether a running encoder is replaced. -/
def replaces (o : StartOrder) : Bool := o.restart || o.force

end StartOrder

/-- How a start ended well. -/
structure StartOutcome where
  source : String
  /-- Whether an encoder was launched, or one ran already. -/
  started : Bool
  pid : Option UInt32
  mode : OutputMode
  command : String
deriving DecidableEq

/-- The outcome for a command. -/
def StartOutcome.of (source : String) (started : Bool) (pid : Option UInt32) (c : Command) : StartOutcome :=
  ⟨source, started, pid, c.mode, c.display⟩

/-- How a start ended. -/
abbrev StartResult := Except Failure StartOutcome

instance StartResult.decidableEq : DecidableEq StartResult
  | .ok a, .ok b => decidable_of_iff (a = b) (by simp)
  | .error a, .error b => decidable_of_iff (a = b) (by simp)
  | .ok _, .error _ => isFalse nofun
  | .error _, .ok _ => isFalse nofun

/-- What a start knows once it has its command. -/
structure Course where
  /-- The epoch in which the start began. -/
  epoch : Nat
  /-- The life of the source before the start. -/
  prior : Lifecycle
  command : Command
deriving DecidableEq

/-- Where a start stands. From `turn` on it stands in the line of its source, and from `look` on it is the first there.
-/
inductive StartPlace
  /-- Before it has seen the source. -/
  | enter
  /-- Before it gets in line for the source's turn. -/
  | line (epoch : Nat)
  /-- In line. -/
  | turn (epoch : Nat)
  /-- Before it looks whether an encoder runs already. -/
  | look (epoch : Nat)
  /-- Stopping the old encoder. -/
  | retire (epoch : Nat) (stop : StopPlace)
  /-- Before it declares the source as starting. -/
  | declare (epoch : Nat)
  /-- Before it clears away orphans. -/
  | clear (course : Course)
  /-- Before it asks for a permit. -/
  | ask (course : Course)
  /-- Waiting for a permit, at most until the deadline. -/
  | await (course : Course) (deadline : Nat)
  /-- With a permit, before it makes the output directory. -/
  | makeWay (course : Course)
  /-- With a permit, before the launch. -/
  | launch (course : Course)
  /-- With a permit and an encoder, before it opens the hub. -/
  | openHub (course : Course) (encoder : Nat)
  /-- With a permit and an encoder, before it commits. -/
  | commit (course : Course) (encoder : Nat)
  /-- Failed, before it puts the old life back. -/
  | restore (course : Course) (failure : Failure)
  /-- Before it gives the turn to the next in line. -/
  | leave (result : StartResult)
deriving DecidableEq

/-! ## Batches, sweeps and all other jobs -/

/-- How a start of a batch went. -/
inductive Verdict
  /-- It was not attempted, because a user had stopped the source. -/
  | skipped
  | ended (result : StartResult)
deriving DecidableEq

/-- The report on one source of a batch. -/
structure StartReport where
  source : String
  verdict : Verdict
deriving DecidableEq

/-- Whether nothing went wrong. -/
def StartReport.isOk (r : StartReport) : Bool :=
  match r.verdict with
  | .ended (.error _) => false
  | _ => true

/-- How a batch treats the mark that a user stopped a source. -/
inductive ManualRule
  /-- It does not look at the mark. -/
  | ignore
  /-- It takes the mark off: a user asked for the start. -/
  | clear
  /-- It skips sources with the mark: nobody asked for the start. -/
  | respect
deriving DecidableEq

/-- Starts, one after another. -/
structure Batch where
  flags : OutputFlags
  restart : Bool
  force : Bool
  rule : ManualRule
  /-- The start under way. -/
  current : Option (Source × StartPlace) := none
  rest : List Source
  reports : List StartReport := []
deriving DecidableEq

/-- The order for one source of a batch. -/
def Batch.order (b : Batch) (s : Source) : StartOrder := ⟨s, b.flags, b.restart, b.force⟩

/-- Stops, one after another. -/
structure Sweep where
  manual : Bool
  /-- The stop under way. -/
  current : Option (String × StopPlace) := none
  rest : List String
  /-- The sources that were stopped. -/
  stopped : List String := []
deriving DecidableEq

/-- The order for one key of a sweep. -/
def Sweep.order (s : Sweep) (key : String) : StopOrder := ⟨key, s.manual, true⟩

/-- A change of the configuration. -/
inductive Change
  | upsert (source : Source)
  | replace (sources : List Source)
  | activate (name : String)
deriving DecidableEq

/-- A section of the document, as it is to be kept. -/
inductive Section
  | sources (list : List Source)
  | activeProfile (name : String)
deriving DecidableEq

/-- Where a change of the configuration stands. -/
inductive ChangePlace
  | change (c : Change)
  /-- Done, before it looks at what is to be kept. -/
  | look (c : Change) (active : String)
  /-- Before it keeps what it saw. -/
  | save (s : Section) (active : String)
deriving DecidableEq

/-- Where a caller stands who wants the capture device for itself. -/
inductive PermitPlace
  | ask (timeout : Nat)
  | await (deadline : Nat)
deriving DecidableEq

/-- The answer to a finished job. -/
inductive Answer
  | reports (list : List StartReport)
  | stopped (ids : List String)
  /-- The profile that became active, and how keeping that went. -/
  | changed (active : String) (saved : SaveOutcome)
  /-- A permit for a source; its holder has it from then on, whether the answer is taken or not. -/
  | permit (source : String)
  | failed (f : Failure)
deriving DecidableEq

/-- A request that is worked off. -/
inductive Job
  | batch (b : Batch)
  | sweep (s : Sweep)
  | change (p : ChangePlace)
  | permit (holder source : String) (p : PermitPlace)
  | done (a : Answer)
deriving DecidableEq

/-- What a job can do next, where it has a choice. -/
inductive Move
  /-- Go on. -/
  | proceed
  /-- Give up, because a stop has overtaken it. -/
  | cancel
  /-- Give up waiting, because time is up. -/
  | timeout
deriving DecidableEq

end EncoderFleet
