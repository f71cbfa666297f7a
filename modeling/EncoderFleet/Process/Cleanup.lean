import EncoderFleet.Data.KeyMap
import EncoderFleet.Failure
import EncoderFleet.Process.Entry

/-!
# Encoders left behind

An encoder can outlive the program that started it, and then keeps the capture device from every later start. A
`cleanup` goes through the process table, one process after the other (`visit`), and kills what runs the encoder and
carries the signature of a source. It spares the encoder that is tracked for the source and this very process. It is
best effort: what could not be done is reported, not raised.
-/

namespace EncoderFleet

/-- A process table and how it answers. -/
structure ProcessTable where
  processes : List Entry
  /-- The pids that refuse to be killed, and why. -/
  refuse : KeyMap UInt32 String := {}
  /-- Why the table cannot be read, if that is so. -/
  broken : Option String := none
  /-- The pid of this process. -/
  self : UInt32
  /-- The pids that the table was asked to kill, in order. -/
  asked : List UInt32 := []

/-- What a cleanup did. -/
structure Cleanup where
  /-- How many processes are encoders of the source. -/
  matched : Nat := 0
  /-- The pids of those killed. -/
  killed : List UInt32 := []
  /-- Why others could not be killed. -/
  failures : List Failure := []
  /-- Why the table could not be read. -/
  scanError : Option String := none

/-- The report with the answer to one kill: why it was refused, or nothing. -/
def Cleanup.note (c : Cleanup) (pid : UInt32) : Option String → Cleanup
  | none => { c with killed := c.killed ++ [pid] }
  | some reason => { c with failures := c.failures ++ [.orphanKillFailed pid reason] }

namespace ProcessTable

/-- Whether the process is an encoder of a source. -/
def isEncoder (executable : String) (signature : List String) (e : Entry) : Bool :=
  e.runs executable && e.carries signature

/-- Whether a cleanup spares a process. -/
def spares (t : ProcessTable) (tracked : Option UInt32) (e : Entry) : Bool := tracked == some e.pid || e.pid == t.self

/-- Ask for the kill of a process; why it was refused, if it was. -/
def kill (t : ProcessTable) (pid : UInt32) : ProcessTable × Option String :=
  ({ t with asked := t.asked ++ [pid] }, t.refuse.get? pid)

/-- What a cleanup does about one process. One that is no encoder of the source is passed over; an encoder is counted,
and if it is not spared, the table is asked to kill it and the answer is noted. -/
def visit (executable : String) (signature : List String) (tracked : Option UInt32) (r : ProcessTable × Cleanup)
    (e : Entry) : ProcessTable × Cleanup :=
  let (t, report) := r
  if isEncoder executable signature e then
    let report := { report with matched := report.matched + 1 }
    if t.spares tracked e then (t, report)
    else
      let (t, answer) := t.kill e.pid
      (t, report.note e.pid answer)
  else (t, report)

/-- Kill the encoders left behind by a source. -/
def cleanup (t : ProcessTable) (executable : String) (signature : List String) (tracked : Option UInt32) :
    ProcessTable × Cleanup :=
  match t.broken with
  | some reason => (t, { scanError := some reason })
  | none => t.processes.foldl (visit executable signature tracked) (t, {})

end ProcessTable

/-- Signals can be sent to pids below this one; from it on a pid has the sign bit of a 32-bit word set. -/
def signalLimit : Nat := 0x80000000

/-- Why no signal can be sent to a pid of the host, if that is so. -/
def hostKill? (pid : UInt32) : Option Failure :=
  if pid.toNat < signalLimit then none else some (.io (.other "pid out of range"))

end EncoderFleet
