import EncoderFleet.Encoder.Launcher
import EncoderFleet.Live.Decoder

/-!
# Launched encoders

An `Encoder` is a process from its launch until the moment when its end has been noticed. Someone answers for it all the
time: at first the start that launched it, then the watcher of its source, or nobody any more when the start gave it up.
The watcher waits for its end, and kills it first if that is asked for; `Keeper` says how far it has come.

What the encoder writes goes through a pipe. Its writing end is open until the encoder ends or closes it, its reading
end until the pump that reads from it is gone.
-/

namespace EncoderFleet

/-- An exit code; none when the process was ended by a signal, or when its code cannot be told. -/
abbrev ExitCode := Option Int

/-- A pipe, as it stands between its two ends. -/
structure Pipe where
  /-- What was written and not yet read. -/
  queue : Bytes := []
  writing : Bool := true
  reading : Bool := true
  /-- Whether reading fails once the queue is empty. -/
  broken : Bool := false
deriving DecidableEq

namespace Pipe

/-- A pipe whose reading end nobody has. -/
def unread : Pipe := { reading := false }

/-- Whether both ends are open. -/
def isOpen (p : Pipe) : Bool := p.writing && p.reading

/-- Write bytes, if both ends are open. -/
def write (p : Pipe) (bs : Bytes) : Pipe := if p.isOpen then { p with queue := p.queue ++ bs } else p

/-- Let reading fail from here on, if both ends are open. -/
def fail (p : Pipe) : Pipe := if p.isOpen then { p with broken := true } else p

/-- Close the writing end. -/
def endWriting (p : Pipe) : Pipe := { p with writing := false }

/-- Close the reading end; what was not read is lost. -/
def endReading (p : Pipe) : Pipe := { p with reading := false, queue := [] }

end Pipe

/-- Who answers for an encoder. -/
inductive Keeper
  /-- The start that launched it. -/
  | launch
  /-- The watcher of a source, for a generation of it; whether a kill was asked for, and whether it was carried out. -/
  | watcher (key : String) (generation : Nat) (asked struck : Bool)
  /-- Nobody: it was killed, and its end is of no interest. -/
  | nobody
  /-- It was seen to end. -/
  | gone (code : ExitCode)
deriving DecidableEq

/-- The pump between an encoder and a hub. -/
structure Pump where
  hub : Nat
  decoder : Decoder

/-- A launched encoder. -/
structure Encoder where
  /-- The source, as it was named at the launch. -/
  source : String
  command : Command
  behaviour : Behaviour
  /-- How often it was killed. -/
  kills : Nat := 0
  /-- Its exit code, once it has ended. -/
  ended : Option ExitCode := none
  pipe : Pipe := {}
  keeper : Keeper := .launch
  pump : Option Pump := none

namespace Encoder

/-- An encoder right after its launch. -/
def launched (source : String) (command : Command) (behaviour : Behaviour) : Encoder where
  source := source
  command := command
  behaviour := behaviour
  pipe := match behaviour.stdout with
    | some bs => { queue := bs }
    | none => Pipe.unread

/-- The encoder ends. What ended before stays as it ended. -/
def finish (e : Encoder) (code : ExitCode) : Encoder :=
  match e.ended with
  | some _ => e
  | none => { e with ended := some code, pipe := e.pipe.endWriting }

/-- Kill the encoder; it ends unless it withstands. -/
def kill (e : Encoder) : Encoder :=
  let e := { e with kills := e.kills + 1 }
  match e.behaviour.onKill with
  | some code => e.finish code
  | none => e

/-- Take the pump away and close the reading end of the pipe. -/
def detach (e : Encoder) : Encoder := { e with pump := none, pipe := e.pipe.endReading }

/-- Ask the watcher for a kill. -/
def askKill (e : Encoder) : Encoder :=
  match e.keeper with
  | .watcher key generation _ struck => { e with keeper := .watcher key generation true struck }
  | _ => e

/-- The exit code that was seen, once the encoder is gone. -/
def seen? (e : Encoder) : Option ExitCode :=
  match e.keeper with
  | .gone code => some code
  | _ => none

end Encoder

end EncoderFleet
