import EncoderFleet.Fleet.Request

/-!
# Running the fleet

One way to choose among the events that are possible: whoever can act gets in line, acts until it has to wait, and then
lets the next one act. Two kinds of actors stand back until the line is empty: first whoever is *patient*, such as the
job that a caller waits for, and after that all whose next step is *slow*, because it looks through the process table or
makes directories. Time passes only while everyone waits, and then jumps to the next deadline.

Everything that happens here is a sequence of events that are possible one after another, so what holds for all such
sequences holds for these.
-/

namespace EncoderFleet

/-- Someone who acts. -/
inductive Actor
  | job (id : Nat)
  | watcher (encoder : Nat)
  | pump (encoder : Nat)
deriving DecidableEq

/-- What an actor may do, what it would rather do first. -/
def Actor.events : Actor → List Event
  | job id => [.job id .cancel, .job id .proceed, .job id .timeout]
  | watcher n => [.notice n, .strike n]
  | pump n => [.pump n]

/-- When a stop gives up waiting. -/
def StopPlace.deadline? : StopPlace → Option Nat
  | reap _ deadline => some deadline
  | _ => none

/-- When a start gives up waiting. -/
def StartPlace.deadline? : StartPlace → Option Nat
  | await _ deadline => some deadline
  | retire _ p => p.deadline?
  | _ => none

namespace Job

/-- When a job gives up waiting. -/
def deadline? : Job → Option Nat
  | batch b => b.current.bind fun c => c.2.deadline?
  | sweep s => s.current.bind fun c => c.2.deadline?
  | permit _ _ (.await deadline) => some deadline
  | _ => none

/-- More steps than a job can still make; encoders that it launches have steps of their own, at most `perLaunch` each.
-/
def work (perLaunch : Nat) : Job → Nat
  | batch b => (b.rest.length + 2) * (32 + perLaunch)
  | sweep s => (s.rest.length + 2) * 8
  | change _ => 4
  | permit _ _ _ => 4
  | done _ => 0

end Job

namespace Fleet

/-- Let someone act, if it can. -/
def act (f : Fleet) (a : Actor) : Option Fleet := a.events.findSome? f.step?

/-- Everyone, jobs first and in order. -/
def actors (f : Fleet) : List Actor :=
  let encoders := List.range f.encoders.length
  f.jobs.keys.map .job ++ encoders.map .watcher ++ encoders.map .pump

/-- Those who can act, except some. -/
def ready (f : Fleet) (except : List Actor) : List Actor :=
  f.actors.filter fun a => !except.contains a && (f.act a).isSome

/-- Whether the next step of someone takes long. -/
def isSlow (f : Fleet) : Actor → Bool
  | .job id =>
    match f.jobs.get? id with
    | some (.batch { current := some (_, .clear _), .. }) => f.settings.killOrphans
    | some (.batch { current := some (_, .makeWay c), .. }) => c.command.target != .pipe
    | _ => false
  | _ => false

/-- How much an encoder that is launched now writes at once. -/
def planned (f : Fleet) : Nat :=
  match f.launcher with
  | .planned (.runs b) => (b.stdout.getD []).length
  | _ => 0

/-- More steps than can be made before everyone waits. -/
def work (f : Fleet) : Nat :=
  let jobs := f.jobs.values.foldl (fun n j => n + j.work (f.planned + 8)) 0
  let encoders := f.encoders.foldl (fun n e => n + e.pipe.queue.length + 8) 0
  jobs + encoders + 1

/-- Let those in `line` act, one after another; whoever becomes able to act gets in line. Those who are patient act when
the line is empty, and those in `slow` when nobody else can. -/
def settleWithin (patient : List Actor) : Nat → List Actor → List Actor → Fleet → Fleet
  | 0, _, _, f => f
  | fuel + 1, a :: line, slow, f =>
    if f.isSlow a then settleWithin patient fuel line (slow ++ [a]) f
    else
      match f.act a with
      | none => settleWithin patient fuel line slow f
      | some f => settleWithin patient fuel (a :: line ++ f.ready (a :: line ++ slow ++ patient)) slow f
  | fuel + 1, [], slow, f =>
    match f.ready (slow ++ patient), f.ready slow, slow with
    | a :: line, _, _ => settleWithin patient fuel (a :: line) slow f
    | [], a :: line, _ => settleWithin patient fuel (a :: line) slow f
    | [], [], a :: slow =>
      match f.act a with
      | none => settleWithin patient fuel [] slow f
      | some f => settleWithin patient fuel (a :: f.ready (a :: slow ++ patient)) slow f
    | [], [], [] => f

/-- Let everyone act until all wait. -/
def settle (f : Fleet) (patient : List Actor) : Fleet :=
  let n := f.work + f.actors.length
  settleWithin patient (4 * n * n) [] [] f

/-- The next deadline. -/
def nextDeadline? (f : Fleet) : Option Nat := (f.jobs.values.filterMap Job.deadline?).min?

/-- Let time pass up to a moment, at most `fuel` deadlines on the way. -/
def runUntilWithin : Nat → Nat → Fleet → Fleet
  | 0, moment, f => { f with now := max f.now moment }
  | fuel + 1, moment, f =>
    let f := f.settle []
    match f.nextDeadline? with
    | some d => if d ≤ moment then runUntilWithin fuel moment { f with now := max f.now d }
      else { f with now := max f.now moment }.settle []
    | none => { f with now := max f.now moment }.settle []

/-- Let time pass. -/
def rest (f : Fleet) (milliseconds : Nat) : Fleet := runUntilWithin (f.work + 1) (f.now + milliseconds) f

/-- Let everyone act until a job is done, at most `fuel` deadlines on the way. -/
def finishWithin : Nat → Nat → Fleet → Fleet
  | 0, _, f => f
  | fuel + 1, id, f =>
    let f := f.settle [.job id]
    match f.answer? id, f.nextDeadline? with
    | none, some d => finishWithin fuel id { f with now := max f.now d }
    | _, _ => f

/-- Let everyone act until a job is done. -/
def finish (f : Fleet) (id : Nat) : Fleet := finishWithin (f.work + 1) id f

/-- Take a request in and wait for its answer. -/
def call (f : Fleet) (r : Request) : Option Answer × Fleet :=
  let (id, f) := f.submit r
  let f := f.finish id
  match f.collect id with
  | some (a, f) => (some a, f)
  | none => (none, f)

end Fleet

end EncoderFleet
