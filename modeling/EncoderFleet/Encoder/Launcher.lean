import EncoderFleet.Encoder.Command
import EncoderFleet.Files.Tree

/-!
# Launching encoders

What the surroundings do when an encoder is to be launched. A `LaunchPlan` fixes how a launch goes and how the encoder
behaves once it runs. The host itself holds no encoder, so that launching a program of the host always fails; how it
fails depends on the name of the program.
-/

namespace EncoderFleet

/-- How an encoder behaves once it runs. -/
structure Behaviour where
  /-- What it writes at once; none when nobody can read what it writes. -/
  stdout : Option Bytes := some []
  /-- Whether its pid is known. -/
  hasPid : Bool := true
  /-- The exit code that is seen after a kill, none inside when no code can be seen; none for an encoder that a kill
  does not end. -/
  onKill : Option (Option Int) := some none
  /-- A stop request for the source that comes in while the encoder is being launched, and whether it is manual. -/
  stopMeanwhile : Option Bool := none
deriving DecidableEq

/-- How a launch goes. -/
inductive LaunchPlan
  | fails (fault : Fault)
  | runs (behaviour : Behaviour)
deriving DecidableEq

/-- Where encoders are launched. -/
inductive Launcher
  /-- In surroundings that follow a plan. -/
  | planned (plan : LaunchPlan)
  /-- On the host. -/
  | host
deriving DecidableEq

/-- Why a program that is no program cannot be launched. A name without a slash is looked up among the programs of the
host, where one dot or two are directories; any other is a path. -/
def FileTree.launchFault (t : FileTree) (c : Command) : Fault :=
  if (c.program :: c.args).any fun a => a.toList.contains '\x00' then .nulInArgument
  else if c.program.toList.contains '/' then
    match t.resolve c.program >>= t.find with
    | .error f => f
    | .ok none => .notFound
    | .ok (some .directory) => .accessDenied
    | .ok (some (.file _)) => if Path.namesDirectory c.program then .notDirectory else .accessDenied
  else if c.program = "." ∨ c.program = ".." then .accessDenied
  else if c.program.utf8ByteSize ≤ FileTree.nameLimit then .notFound
  else .nameTooLong

/-- How the launch of a command goes. -/
def Launcher.plan (l : Launcher) (files : FileTree) (c : Command) : LaunchPlan :=
  match l with
  | .planned plan => plan
  | .host => .fails (files.launchFault c)

end EncoderFleet
