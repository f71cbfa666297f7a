import EncoderFleet.Fleet.Step

/-!
# Requests to the fleet

What callers ask for. A `Request` that takes time becomes a job; its answer is taken when the job is done, or never. All
else is answered at once.
-/

namespace EncoderFleet

/-- A request that becomes a job. -/
inductive Request
  /-- Start one source. -/
  | start (o : StartOrder)
  /-- Start those of some sources that are switched on. -/
  | startAll (sources : List Source) (flags : OutputFlags) (restart force : Bool)
  /-- Start a configured source, or all that are switched on; `manual` when a user asks for it. -/
  | startConfigured (id : Option String) (restart manual : Bool)
  /-- Stop a source, or all. -/
  | stop (id : Option String) (manual : Bool)
  /-- Change the configuration. -/
  | change (c : Change)
  /-- Lend a permit for the capture device. -/
  | acquire (holder source : String) (timeout : Nat)
deriving DecidableEq

namespace Fleet

/-- The sources that a request names, or that there is none. -/
def named (f : Fleet) : Option String → Except Failure (List Source)
  | none => .ok f.sources.enabled
  | some id =>
    match f.sources.get? id with
    | some s => .ok [s]
    | none => .error (.notFound .sources id)

/-- The job that a request becomes. -/
def jobOf (f : Fleet) : Request → Job
  | .start o => .batch { flags := o.flags, restart := o.restart, force := o.force, rule := .ignore, rest := [o.source] }
  | .startAll sources flags restart force =>
    .batch { flags, restart, force, rule := .ignore, rest := sources.filter Source.enabled }
  | .startConfigured id restart manual =>
    match f.named id with
    | .error e => .done (.reports [⟨id.getD "", .ended (.error e)⟩])
    | .ok sources =>
      .batch { flags := f.flags, restart, force := false, rule := if manual then .clear else .respect, rest := sources }
  | .stop none manual => .sweep { manual, rest := f.keys }
  | .stop (some id) manual => .sweep { manual, rest := [Text.fold id] }
  | .change c => .change (.change c)
  | .acquire holder source timeout => .permit holder source (.ask timeout)

/-- What a request does before its job begins: a manual stop takes note of its source. -/
def prepare (f : Fleet) : Request → Fleet
  | .stop (some id) true => f.ensure id
  | _ => f

/-- Take a request in; answers the number of its job. -/
def submit (f : Fleet) (r : Request) : Nat × Fleet :=
  let f := f.prepare r
  (f.nextJob, { f with jobs := f.jobs.insert f.nextJob (f.jobOf r), nextJob := f.nextJob + 1 })

/-- The answer of a job, if it is done. -/
def answer? (f : Fleet) (id : Nat) : Option Answer :=
  match f.jobs.get? id with
  | some (.done a) => some a
  | _ => none

/-- Take the answer of a job, if it is done. -/
def collect (f : Fleet) (id : Nat) : Option (Answer × Fleet) :=
  (f.answer? id).map fun a => (a, { f with jobs := f.jobs.erase id })

/-- Lose interest in a job; it goes on, but nobody takes its answer. -/
def forget (f : Fleet) (id : Nat) : Fleet :=
  match f.jobs.get? id with
  | none => f
  | some (.done _) => f.discard id
  | some _ => { f with orphaned := id :: f.orphaned }

/-- Replace the flags; running encoders keep theirs. -/
def setFlags (f : Fleet) (flags : OutputFlags) : Fleet := { f with flags := flags }

/-- Replace the profiles. -/
def replaceProfiles (f : Fleet) (profiles : List Profile) : Fleet := { f with catalog := f.catalog.replaceAll profiles }

/-- Join the live stream of a configured source. -/
def subscribe (f : Fleet) (id : String) : Except Failure (Subscription × Fleet) :=
  match f.sources.get? id with
  | none => .error (.notFound .sources id)
  | some s => let r := f.hubs.subscribe s.id; .ok (r.1, { f with hubs := r.2 })

end Fleet

end EncoderFleet
