import EncoderFleet.Encoder.Command

/-!
# What is known about a source

The supervisor keeps a `SourceState` for every source that it ever heard of, and keeps it after the encoder is gone. At
most one encoder is *tracked* for a source at a time. Each encoder that comes to be tracked opens a new *generation*, so
that news about an earlier one are recognised as old. Each stop opens a new *epoch*, so that a start that began before
it is recognised as overtaken.
-/

namespace EncoderFleet

/-- The life of a source's encoder. -/
inductive Lifecycle
  | notStarted
  | starting
  | running
  | stopping
  | stopped
  /-- The encoder ended without being asked to. -/
  | crashed
deriving DecidableEq

namespace Lifecycle

/-- All states. -/
def all : List Lifecycle := [notStarted, starting, running, stopping, stopped, crashed]

/-- The name of a state. -/
def name : Lifecycle → String
  | notStarted => "notStarted"
  | starting => "starting"
  | running => "running"
  | stopping => "stopping"
  | stopped => "stopped"
  | crashed => "crashed"

end Lifecycle

/-- The encoder that is tracked for a source. -/
structure Tracked where
  /-- Its place among all launched encoders. -/
  encoder : Nat
  pid : Option UInt32
  generation : Nat
  command : Command
deriving DecidableEq

/-- What is known about a source. Times are those of the fleet's clock. -/
structure SourceState where
  /-- The id, as it was spelled when the source was last started. -/
  source : String
  lifecycle : Lifecycle := .notStarted
  tracked : Option Tracked := none
  /-- Whether the source holds a permit for the capture device. -/
  permit : Bool := false
  startedAt : Option Nat := none
  lastExitAt : Option Nat := none
  lastExitCode : Option Int := none
  /-- Whether a user stopped the source. -/
  manualStop : Bool := false
  generation : Nat := 0
  epoch : Nat := 0
deriving DecidableEq

namespace SourceState

/-- Whether an encoder runs for the source. -/
def isRunning (s : SourceState) : Bool := s.tracked.isSome && s.lifecycle == .running

/-- Note that the encoder is gone. -/
def recordExit (s : SourceState) (now : Nat) (code : Option Int) : SourceState :=
  { s with lastExitAt := some now, lastExitCode := code }

end SourceState

/-- What a caller sees of a source. -/
structure Status where
  source : String
  lifecycle : Lifecycle
  pid : Option UInt32
  mode : Option OutputMode
  command : Option String
  startedAt : Option Nat
  lastExitAt : Option Nat
  lastExitCode : Option Int
  holdsPermit : Bool
  manualStop : Bool
deriving DecidableEq

/-- What a caller sees of a source in this state. -/
def SourceState.status (s : SourceState) : Status where
  source := s.source
  lifecycle := s.lifecycle
  pid := s.tracked.bind Tracked.pid
  mode := s.tracked.map fun t => t.command.mode
  command := s.tracked.map fun t => t.command.display
  startedAt := s.startedAt
  lastExitAt := s.lastExitAt
  lastExitCode := s.lastExitCode
  holdsPermit := s.permit
  manualStop := s.manualStop

end EncoderFleet
