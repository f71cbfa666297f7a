import EncoderFleet.Files.Fault
import EncoderFleet.Json.Record

/-!
# Failures

Every way in which an operation of the fleet can fail, as a cause. A request layer reads the `code`, a person the
`message`; a `FailureReport` carries both.
-/

namespace EncoderFleet

/-- What a name was looked up among. -/
inductive Directory
  | profiles
  | sources
deriving DecidableEq

/-- The word for one entry of a directory. -/
def Directory.entry : Directory → String
  | .profiles => "profile"
  | .sources => "source"

/-- Why an operation failed. -/
inductive Failure
  /-- The capture device did not come free in time. -/
  | captureBusy (source : String)
  /-- A stop overtook the start. -/
  | startCancelled (source : String)
  | spawnFailed (source reason : String)
  | notFound (directory : Directory) (name : String)
  | sourceDisabled (source : String)
  | orphanKillFailed (pid : UInt32) (reason : String)
  /-- A subscriber fell so far behind that `skipped` units are lost to it. -/
  | subscriberOverrun (skipped : Nat)
  | hubClosed
  | io (fault : Fault)
  /-- A text is not the JSON form of what it should be. -/
  | malformed
deriving DecidableEq

namespace Failure

/-- The stable code of a failure. -/
def code : Failure → String
  | captureBusy _ => "CAPTURE_BUSY"
  | startCancelled _ => "START_CANCELLED"
  | spawnFailed _ _ => "SPAWN_FAILED"
  | notFound _ _ => "NOT_FOUND"
  | sourceDisabled _ => "SOURCE_DISABLED"
  | orphanKillFailed _ _ => "ORPHAN_KILL_FAILED"
  | subscriberOverrun _ => "SUBSCRIBER_OVERRUN"
  | hubClosed => "HUB_CLOSED"
  | io _ => "IO_ERROR"
  | malformed => "SERIALIZATION_ERROR"

/-- The wording of a failure. -/
def message : Failure → String
  | captureBusy source => "capture device busy, could not start source " ++ source
  | startCancelled source => "start of " ++ source ++ " cancelled by stop"
  | spawnFailed source reason => "failed to spawn encoder for " ++ source ++ ": " ++ reason
  | notFound directory name => directory.entry ++ " not found: " ++ name
  | sourceDisabled source => "source is disabled: " ++ source
  | orphanKillFailed pid reason => "failed to kill orphaned encoder " ++ toString pid.toNat ++ ": " ++ reason
  | subscriberOverrun skipped => "subscriber overrun, " ++ toString skipped ++ " units skipped"
  | hubClosed => "stream hub closed"
  | io fault => "IO error: " ++ fault.message
  | malformed => "Serialization error"

/-- Whether the same request may succeed later without anything being changed. -/
def retryable : Failure → Bool
  | captureBusy _ => true
  | _ => false

end Failure

/-- A failure as the request layer sees it. -/
structure FailureReport where
  code : String
  message : String
deriving DecidableEq

namespace FailureReport

/-- The report on a failure. -/
def of (f : Failure) : FailureReport := ⟨f.code, f.message⟩

def toJson (r : FailureReport) : Json := .record [("code", .text r.code), ("message", .text r.message)]

def ofJson? (j : Json) : Option FailureReport := do
  match ← j.slots ["code", "message"] 2 with
  | [code, message] => some ⟨← Json.required Json.text? code, ← Json.required Json.text? message⟩
  | _ => none

end FailureReport

end EncoderFleet
