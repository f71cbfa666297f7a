import EncoderFleet.Fleet.Starting
import EncoderFleet.Fleet.Watching

/-!
# One step of the fleet

Whatever happens in the fleet by itself is an `Event`: a job makes a step, a watcher carries out a kill or notices an
end, a pump reads, time passes. Several events can be possible at once, and they may happen in any order. `step?` says
what an event does, and whether it can happen at all.
-/

namespace EncoderFleet

/-- Something that happens by itself. -/
inductive Event
  /-- A job makes a step. -/
  | job (id : Nat) (m : Move)
  /-- The watcher of an encoder kills it. -/
  | strike (encoder : Nat)
  /-- The watcher of an encoder notices its end. -/
  | notice (encoder : Nat)
  /-- The pump of an encoder reads. -/
  | pump (encoder : Nat)
  /-- Time passes. -/
  | pass (milliseconds : Nat)
deriving DecidableEq

namespace Fleet

/-- One step of a batch. Between two starts it looks at the mark of the next source, as its rule says. -/
def stepBatch (f : Fleet) (id : Nat) (b : Batch) (m : Move) : Option (Fleet × Job) :=
  match b.current, m with
  | some (s, p), m =>
    (f.stepStart id (b.order s) p m).map fun r =>
      (r.1, .batch (match r.2 with
        | .at p => { b with current := some (s, p) }
        | .done result => { b with current := none, reports := b.reports ++ [⟨s.id, .ended result⟩] }))
  | none, .proceed =>
    match b.rest with
    | [] => some (f, .done (.reports b.reports))
    | s :: rest =>
      let begun : Job := .batch { b with current := some (s, .enter), rest := rest }
      match b.rule with
      | .ignore => some (f, begun)
      | .clear => some (f.setManualStop s.id false, begun)
      | .respect =>
        if f.isManualStop s.id then some (f, .batch { b with rest := rest, reports := b.reports ++ [⟨s.id, .skipped⟩] })
        else some (f, begun)
  | none, _ => none

/-- One step of a sweep. -/
def stepSweep (f : Fleet) (s : Sweep) (m : Move) : Option (Fleet × Job) :=
  match s.current, m with
  | some (key, p), m =>
    (f.stepStop (s.order key) p m).map fun r =>
      (r.1, .sweep (match r.2 with
        | .at p => { s with current := some (key, p) }
        | .done stopped => { s with current := none, stopped := s.stopped ++ stopped.toList }))
  | none, .proceed =>
    match s.rest with
    | [] => some (f, .done (.stopped s.stopped))
    | key :: rest => some (f, .sweep { s with current := some (key, .take), rest := rest })
  | none, _ => none

/-- Change the configuration; the profile that became active, if that was asked for. -/
def change (f : Fleet) : Change → Except Failure (Fleet × String)
  | .upsert s => .ok ({ f with sources := (f.sources.upsert s).1 }, "")
  | .replace ss => .ok ({ f with sources := .ofList ss }, "")
  | .activate name => (f.catalog.activate name).map fun r => ({ f with catalog := r.1 }, r.2)

/-- The section of the document that a change has to keep, as it stands now. -/
def sectionOf (f : Fleet) : Change → Section
  | .upsert _ | .replace _ => .sources f.sources.toList
  | .activate _ => .activeProfile f.catalog.selection

/-- Keep a section of the document. -/
def save (f : Fleet) (s : Section) : Fleet × SaveOutcome :=
  let r := match s with
    | .sources list => f.archive.saveSources f.files list
    | .activeProfile name => f.archive.saveActiveProfile f.files name
  ({ f with archive := r.1, files := r.2.1 }, r.2.2)

/-- One step of a change of the configuration. -/
def stepChange (f : Fleet) : ChangePlace → Move → Option (Fleet × Job)
  | .change c, .proceed =>
    match f.change c with
    | .ok (f, active) => some (f, .change (.look c active))
    | .error e => some (f, .done (.failed e))
  | .look c active, .proceed => some (f, .change (.save (f.sectionOf c) active))
  | .save s active, .proceed => let r := f.save s; some (r.1, .done (.changed active r.2))
  | _, _ => none

/-- One step of a caller who wants the capture device. -/
def stepPermit (f : Fleet) (id : Nat) (holder source : String) : PermitPlace → Move → Option (Fleet × Job)
  | .ask timeout, .proceed =>
    match f.tryLend holder source with
    | .ok f => some (f, .done (.permit source))
    | .error _ => some ({ f with gate := f.gate.enqueue id }, .permit holder source (.await (f.now + timeout)))
  | .await _, .proceed =>
    (f.gate.collect id).map fun g => ({ f with gate := g }.lend holder source, .done (.permit source))
  | .await deadline, .timeout =>
    if deadline ≤ f.now then some ({ f with gate := f.gate.withdraw id }, .done (.failed (.captureBusy source)))
    else none
  | _, _ => none

/-- Drop the answer of a job that nobody takes. -/
def discard (f : Fleet) (id : Nat) : Fleet := { f with jobs := f.jobs.erase id, orphaned := f.orphaned.erase id }

/-- Put a job where its last step has left it. -/
def putJob (f : Fleet) (id : Nat) (j : Job) : Fleet :=
  match j with
  | .done _ => if id ∈ f.orphaned then f.discard id else { f with jobs := f.jobs.insert id j }
  | _ => { f with jobs := f.jobs.insert id j }

/-- One step of a job, if it can be made. -/
def stepJob (f : Fleet) (id : Nat) (m : Move) : Option Fleet :=
  let next := match f.jobs.get? id with
    | none | some (.done _) => none
    | some (.batch b) => f.stepBatch id b m
    | some (.sweep s) => f.stepSweep s m
    | some (.change p) => f.stepChange p m
    | some (.permit holder source p) => f.stepPermit id holder source p m
  next.map fun r => r.1.putJob id r.2

/-- What an event does, if it can happen. -/
def step? (f : Fleet) : Event → Option Fleet
  | .job id m => f.stepJob id m
  | .strike n => f.strike n
  | .notice n => f.notice n
  | .pump n => f.pumpOnce n
  | .pass ms => some { f with now := f.now + ms }

end Fleet

end EncoderFleet
