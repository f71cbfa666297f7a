import EncoderFleet.Fleet.Basic

/-!
# Watchers and pumps

A watcher waits for the end of its encoder and, if asked to, kills it first. An end that nobody asked for is a crash,
and is recorded for the source as long as the encoder is the one that the source tracks. A pump moves what an encoder
writes to a hub until the pipe ends or reading fails.
-/

namespace EncoderFleet.Fleet

/-- Record a crash, if the encoder of this generation is still tracked. -/
def recordCrash (f : Fleet) (key : String) (generation : Nat) (code : ExitCode) : Fleet :=
  match f.state? key with
  | none => f
  | some s =>
    if s.tracked.any fun t => t.generation == generation then
      let f := if s.permit then f.releasePermit else f
      f.putState key
        { s.recordExit f.now code with tracked := none, permit := false, lifecycle := .crashed }
    else f

/-- The watcher of an encoder carries out a kill that it was asked for. -/
def strike (f : Fleet) (n : Nat) : Option Fleet :=
  match (f.encoder? n).map Encoder.keeper with
  | some (.watcher key generation true false) =>
    some (f.modifyEncoder n fun e => { e.kill with keeper := .watcher key generation true true })
  | _ => none

/-- The watcher of an encoder notices its end. -/
def notice (f : Fleet) (n : Nat) : Option Fleet :=
  match f.encoder? n with
  | none => none
  | some e =>
    match e.keeper, e.ended with
    | .watcher key generation _ struck, some code =>
      let f := if struck then f else f.recordCrash key generation code
      some (f.modifyEncoder n fun e => { e with keeper := .gone code })
    | _, _ => none

/-- Publish units to a hub, one after another. -/
def publishAll (hs : Hubs) (hub : Nat) (us : List StreamUnit) : Hubs := us.foldl (fun hs u => (hs.publish hub u).2) hs

/-- The pump of an encoder reads once. -/
def pumpOnce (f : Fleet) (n : Nat) : Option Fleet :=
  match f.encoder? n with
  | none => none
  | some e =>
    match e.pump with
    | none => none
    | some p =>
      if e.pipe.queue.isEmpty then
        if e.pipe.broken || !e.pipe.writing then some (f.stopPump n) else none
      else
        let r := p.decoder.feed f.now (e.pipe.queue.take f.settings.readChunk)
        some
          { f.modifyEncoder n fun e =>
              { e with
                pipe := { e.pipe with queue := e.pipe.queue.drop f.settings.readChunk }
                pump := some { p with decoder := r.2 } } with
            hubs := publishAll f.hubs p.hub r.1 }

end EncoderFleet.Fleet
