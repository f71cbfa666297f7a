import EncoderFleet.Fleet.Basic

/-!
# What the surroundings do

The fleet launches encoders, and from then on they do as they please: they write, close their output, or end. None of
this is a step of the fleet; it finds out later, by its watchers and pumps.
-/

namespace EncoderFleet.Fleet

/-- From now on launches go by this plan. The host keeps its own way. -/
def replan (f : Fleet) (plan : LaunchPlan) : Fleet :=
  match f.launcher with
  | .planned _ => { f with launcher := .planned plan }
  | .host => f

/-- Change the pipe of an encoder. -/
def modifyPipe (f : Fleet) (n : Nat) (change : Pipe → Pipe) : Fleet :=
  f.modifyEncoder n fun e => { e with pipe := change e.pipe }

/-- An encoder ends by itself. -/
def exit (f : Fleet) (n : Nat) (code : ExitCode) : Fleet := f.modifyEncoder n fun e => e.finish code

/-- An encoder writes. -/
def feed (f : Fleet) (n : Nat) (bs : Bytes) : Fleet := f.modifyPipe n fun p => p.write bs

/-- Reading what an encoder writes fails from here on. -/
def breakPipe (f : Fleet) (n : Nat) : Fleet := f.modifyPipe n Pipe.fail

/-- An encoder closes its output. -/
def closePipe (f : Fleet) (n : Nat) : Fleet := f.modifyPipe n Pipe.endWriting

end EncoderFleet.Fleet
