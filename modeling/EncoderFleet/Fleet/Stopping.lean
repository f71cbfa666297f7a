import EncoderFleet.Fleet.Basic

/-!
# The steps of a stop

The first step takes the encoder away from its source, so that whoever comes later never sees an encoder that is about
to be killed. Only then the kill is asked for. A stop waits for the end of the encoder, but not for ever; it gives the
permit back either way. The last step records the end, unless something newer has happened to the source.
-/

namespace EncoderFleet.Fleet

/-- What comes after a step: the next place, or the result. -/
inductive After (π ρ : Type)
  | at (place : π)
  | done (result : ρ)

/-- Take the encoder away from its source and ask for its kill. -/
def takeEncoder (f : Fleet) (o : StopOrder) : Fleet × After StopPlace (Option String) :=
  match f.state? o.key with
  | none => (f, .done none)
  | some s =>
    let s := if o.overtakes then { s with epoch := s.epoch + 1 } else s
    let s := if o.manual then { s with manualStop := true } else s
    match s.tracked with
    | none => (f.putState o.key s, .done none)
    | some t =>
      ((f.putState o.key { s with tracked := none, permit := false, lifecycle := .stopping }).modifyEncoder t.encoder
          Encoder.askKill,
        .at (.reap ⟨s.source, t, s.permit⟩ (f.now + f.settings.stopTimeout)))

/-- Take the pump away and give the permit back. -/
def letGo (f : Fleet) (t : Taken) : Fleet :=
  let f := f.stopPump t.tracked.encoder
  if t.permit then f.releasePermit else f

/-- Record the end of an encoder that was taken away. -/
def recordStop (f : Fleet) (key : String) (t : Taken) (code : Option Int) : Fleet :=
  match f.state? key with
  | none => f
  | some s =>
    let s := s.recordExit f.now code
    f.putState key
      (if s.tracked.isNone ∧ s.generation = t.tracked.generation then { s with lifecycle := .stopped } else s)

/-- One step of a stop, if it can be made. -/
def stepStop (f : Fleet) (o : StopOrder) : StopPlace → Move → Option (Fleet × After StopPlace (Option String))
  | .take, .proceed => some (f.takeEncoder o)
  | .reap t _, .proceed =>
    ((f.encoder? t.tracked.encoder).bind Encoder.seen?).map fun code => (f, .at (.release t code))
  | .reap t deadline, .timeout => if deadline ≤ f.now then some (f, .at (.release t none)) else none
  | .release t code, .proceed => some (f.letGo t, .at (.dropHub t code))
  | .dropHub t code, .proceed =>
    some (if t.tracked.command.mode.piped then { f with hubs := f.hubs.remove t.source } else f, .at (.record t code))
  | .record t code, .proceed => some (f.recordStop o.key t code, .done (some t.source))
  | _, _ => none

end EncoderFleet.Fleet
