import EncoderFleet.Fleet.Step

/-!
# What a place holds

The place of a start or a stop names everything that it holds. Here this is read off: whether a start stands in the line
of its source (`StartPlace.queued`) or has the turn (`StartPlace.admitted`), its epoch, its course, its encoder, whether
it carries a permit; what a stop has taken away (`StopPlace.taken?`) and whether it still carries the permit. A stop is
in flight as a job of its own or as a part of a start that replaces its encoder, so `Job.stop?` looks into both.
-/

namespace EncoderFleet

/-- The place after a step, if the work is not done. -/
def Fleet.After.place? {π ρ : Type} : Fleet.After π ρ → Option π
  | .at p => some p
  | .done _ => none

namespace StopPlace

/-- What the stop has taken away. -/
def taken? : StopPlace → Option Taken
  | take => none
  | reap t _ | release t _ | dropHub t _ | record t _ => some t

/-- How many permits the stop carries. -/
def carried : StopPlace → Nat
  | reap t _ | release t _ => t.permit.toNat
  | _ => 0

end StopPlace

namespace StartPlace

/-- Whether the start stands in the line of its source. -/
def queued : StartPlace → Bool
  | enter | line _ => false
  | _ => true

/-- Whether the start has got the turn of its source. -/
def admitted : StartPlace → Bool
  | enter | line _ | turn _ => false
  | _ => true

/-- The stop of the old encoder, while it is under way. -/
def stop? : StartPlace → Option StopPlace
  | retire _ p => some p
  | _ => none

/-- The course of a start that has declared its source as starting. -/
def course? : StartPlace → Option Course
  | clear c | ask c | await c _ | makeWay c | launch c | openHub c _ | commit c _ | restore c _ => some c
  | _ => none

/-- Whether the start has seen to it that no encoder is tracked, and has not committed one. -/
def cleared : StartPlace → Bool
  | declare _ => true
  | retire _ p => p.taken?.isSome
  | p => p.course?.isSome

/-- The epoch in which the start began, as long as it matters. -/
def epoch? : StartPlace → Option Nat
  | line e | turn e | look e | retire e _ | declare e => some e
  | p => p.course?.map Course.epoch

/-- How many permits the start itself carries. -/
def carried : StartPlace → Nat
  | makeWay _ | launch _ | openHub _ _ | commit _ _ => 1
  | _ => 0

/-- The encoder that the start answers for. -/
def encoder? : StartPlace → Option Nat
  | openHub _ n | commit _ n => some n
  | _ => none

/-- Whether the start waits for a permit. -/
def waits : StartPlace → Bool
  | await _ _ => true
  | _ => false

theorem admitted_of_cleared {p : StartPlace} (h : p.cleared = true) : p.admitted = true := by
  cases p <;> simp_all [cleared, course?, admitted]

theorem queued_of_admitted {p : StartPlace} (h : p.admitted = true) : p.queued = true := by
  cases p <;> simp_all [queued, admitted]

theorem cleared_of_course {p : StartPlace} {c : Course} (h : p.course? = some c) : p.cleared = true := by
  cases p <;> simp_all [cleared, course?]

theorem cleared_of_encoder {p : StartPlace} {n : Nat} (h : p.encoder? = some n) : p.cleared = true := by
  cases p <;> simp_all [cleared, course?, encoder?]

end StartPlace

namespace Job

/-- The start under way in a job, and where it stands. -/
def start? : Job → Option (StartOrder × StartPlace)
  | batch b => b.current.map fun c => (b.order c.1, c.2)
  | _ => none

/-- The stop under way in a job, and where it stands. -/
def stop? : Job → Option (StopOrder × StopPlace)
  | batch b => b.current.bind fun c => c.2.stop?.map fun p => (⟨(b.order c.1).key, false, false⟩, p)
  | sweep s => s.current.map fun c => (s.order c.1, c.2)
  | _ => none

/-- Whether a caller waits for a permit. -/
def calls : Job → Bool
  | permit _ _ (.await _) => true
  | _ => false

/-- Whether the job waits for a permit. -/
def waits (j : Job) : Bool := j.calls || j.start?.any fun s => s.2.waits

/-- A job in which nothing is under way: no start, no stop, and nobody who waits for a permit. -/
structure Vacant (j : Job) : Prop where
  start? : j.start? = none
  stop? : j.stop? = none
  waits : j.waits = false

/-- Whether the job is done. -/
def isDone : Job → Bool
  | done _ => true
  | _ => false

/-- How many starts of a batch are over. -/
def ordinal : Job → Nat
  | batch b => b.reports.length
  | _ => 0

end Job

namespace Fleet

/-- The start under way in a job, and where it stands. -/
def start? (f : Fleet) (id : Nat) : Option (StartOrder × StartPlace) := (f.jobs.get? id).bind Job.start?

/-- The stop under way in a job, and where it stands. -/
def stop? (f : Fleet) (id : Nat) : Option (StopOrder × StopPlace) := (f.jobs.get? id).bind Job.stop?

/-- Whether a job waits for a permit. -/
def waits (f : Fleet) (id : Nat) : Bool := (f.jobs.get? id).any Job.waits

/-- The encoder that is tracked under a key. -/
def tracked? (f : Fleet) (key : String) : Option Tracked := (f.state? key).bind SourceState.tracked

/-- No request is in flight. -/
def AtRest (f : Fleet) : Prop := ∀ id j, f.jobs.get? id = some j → j.isDone = true

end Fleet

end EncoderFleet
