import EncoderFleet.Fleet.Stopping

/-!
# The steps of a start

Starts of one source take turns. A start remembers the epoch in which it began. While it waits, for its turn or for a
permit, a stop that opens a new epoch makes it give up; where it does not wait, it goes on until it would commit, and
finds out there. A start that fails gives back what it holds and leaves the source as it was.
-/

namespace EncoderFleet.Fleet

/-- Whether a stop has overtaken a start that began in this epoch. -/
def overtaken (f : Fleet) (o : StartOrder) (epoch : Nat) : Bool := (f.stateOrNew o.source.id).epoch != epoch

/-- The jobs in line for a source. -/
def line (f : Fleet) (key : String) : List Nat := (f.lines.get? key).getD []

/-- Get in line for a source. -/
def enterLine (f : Fleet) (key : String) (job : Nat) : Fleet :=
  { f with lines := f.lines.insert key (f.line key ++ [job]) }

/-- Get out of line. -/
def leaveLine (f : Fleet) (key : String) (job : Nat) : Fleet :=
  { f with lines := f.lines.insert key ((f.line key).erase job) }

/-- Declare a source as starting, and fix the command. -/
def declareStart (f : Fleet) (o : StartOrder) (epoch : Nat) : Fleet × Course :=
  let s := f.stateOrNew o.source.id
  (f.putState o.key { s with lifecycle := .starting },
    ⟨epoch, s.lifecycle, Command.build f.settings f.platform o.source f.catalog.activeArgs o.flags⟩)

/-- Clear away the encoders that an earlier run left behind. -/
def clearOrphans (f : Fleet) (c : Command) : Fleet :=
  match f.table with
  | none => f
  | some t =>
    if f.settings.killOrphans then { f with table := some (t.cleanup f.executable c.signature none).1 } else f

/-- Make the directory that a command writes to. -/
def makeWay (f : Fleet) (c : Command) : Fleet × Option String :=
  match c.target with
  | .pipe => (f, none)
  | .hls directory _ =>
    let r := f.files.makeDirectories directory
    ({ f with files := r.1 }, r.2.map fun fault => "cannot create " ++ directory ++ ": " ++ fault.message)

/-- The stop request that comes in during a launch, if one does. No encoder is tracked for a source while it starts, so
the first step of the stop is all of it. -/
def interrupt (f : Fleet) (o : StartOrder) (b : Behaviour) : Fleet :=
  match b.stopMeanwhile with
  | none => f
  | some manual => ((if manual then f.ensure o.source.id else f).takeEncoder ⟨o.key, manual, true⟩).1

/-- Launch an encoder; its place among all encoders, or why there is none. -/
def launch (f : Fleet) (o : StartOrder) (c : Command) : Fleet × Except Fault Nat :=
  match f.launcher.plan f.files c with
  | .fails fault => (f, .error fault)
  | .runs b =>
    let f := f.interrupt o b
    ({ f with encoders := f.encoders ++ [.launched o.source.id c b] }, .ok f.encoders.length)

/-- Open a new hub for an encoder whose output is piped, and put a pump between the two. Other output has no reader. -/
def openHub (f : Fleet) (o : StartOrder) (c : Command) (n : Nat) : Fleet :=
  if c.mode.piped then
    let r := f.hubs.reset o.source.id
    let f := { f with hubs := r.2 }
    match (f.encoder? n).bind fun e => e.behaviour.stdout, Decoder.ofMode? f.now c.mode with
    | some _, some decoder =>
      { f.modifyEncoder n fun e => { e with pump := some ⟨r.1, decoder⟩ } with hubs := f.hubs.hold r.1 }
    | _, _ => f
  else f.modifyEncoder n Encoder.detach

/-- Give up an encoder that nobody will track. -/
def abandon (f : Fleet) (n : Nat) : Fleet :=
  (f.stopPump n).modifyEncoder n fun e => { e.kill with keeper := .nobody }

/-- Track an encoder. -/
def track (f : Fleet) (o : StartOrder) (c : Command) (n : Nat) : Fleet × StartOutcome :=
  let s := f.stateOrNew o.source.id
  let generation := s.generation + 1
  let pid := f.pid? n
  ((f.putState o.key { s with
      source := o.source.id
      lifecycle := .running
      tracked := some ⟨n, pid, generation, c⟩
      permit := true
      startedAt := some f.now
      manualStop := false
      generation := generation }).modifyEncoder n
    fun e => { e with keeper := .watcher o.key generation false false },
    .of o.source.id true pid c)

/-- Put the old life of a source back, if nothing has changed it since. -/
def restoreLife (f : Fleet) (o : StartOrder) (prior : Lifecycle) : Fleet :=
  match f.state? o.key with
  | none => f
  | some s => if s.lifecycle = .starting then f.putState o.key { s with lifecycle := prior } else f

/-- The outcome for an encoder that runs already. -/
def alreadyRunning? (f : Fleet) (o : StartOrder) : Option (Fleet × StartOutcome) :=
  match f.state? o.key with
  | none => none
  | some s =>
    match s.tracked with
    | none => none
    | some t =>
      if s.isRunning && !o.replaces then
        some (f.putState o.key { s with manualStop := false }, .of o.source.id false t.pid t.command)
      else none

/-- One step of a start, if it can be made. -/
def stepStart (f : Fleet) (job : Nat) (o : StartOrder) :
    StartPlace → Move → Option (Fleet × After StartPlace StartResult)
  | .enter, .proceed =>
    if o.source.enabled then
      let f := f.ensure o.source.id
      some (f, .at (.line (f.stateOrNew o.source.id).epoch))
    else some (f, .done (.error (.sourceDisabled o.source.id)))
  | .line epoch, .proceed => some (f.enterLine o.key job, .at (.turn epoch))
  | .turn epoch, .proceed => if (f.line o.key).head? = some job then some (f, .at (.look epoch)) else none
  | .turn epoch, .cancel =>
    if f.overtaken o epoch then some (f.leaveLine o.key job, .done (.error (.startCancelled o.source.id))) else none
  | .look epoch, .proceed =>
    match f.alreadyRunning? o with
    | some (f, outcome) => some (f, .at (.leave (.ok outcome)))
    | none => some (f, .at (if o.replaces then .retire epoch .take else .declare epoch))
  | .retire epoch p, m =>
    (f.stepStop ⟨o.key, false, false⟩ p m).map fun r =>
      (r.1, .at (match r.2 with | .at p => .retire epoch p | .done _ => .declare epoch))
  | .declare epoch, .proceed => let r := f.declareStart o epoch; some (r.1, .at (.clear r.2))
  | .clear c, .proceed => some (f.clearOrphans c.command, .at (.ask c))
  | .ask c, .proceed =>
    match f.gate.tryAcquire with
    | some g => some ({ f with gate := g }, .at (.makeWay c))
    | none => some ({ f with gate := f.gate.enqueue job }, .at (.await c (f.now + f.settings.lockTimeout)))
  | .ask c, .cancel =>
    if f.overtaken o c.epoch then some (f, .at (.restore c (.startCancelled o.source.id))) else none
  | .await c _, .proceed => (f.gate.collect job).map fun g => ({ f with gate := g }, .at (.makeWay c))
  | .await c _, .cancel =>
    if f.overtaken o c.epoch then
      some ({ f with gate := f.gate.withdraw job }, .at (.restore c (.startCancelled o.source.id)))
    else none
  | .await c deadline, .timeout =>
    if deadline ≤ f.now then
      some ({ f with gate := f.gate.withdraw job }, .at (.restore c (.captureBusy o.source.id)))
    else none
  | .makeWay c, .proceed =>
    match f.makeWay c.command with
    | (f, none) => some (f, .at (.launch c))
    | (f, some reason) => some (f.releasePermit, .at (.restore c (.spawnFailed o.source.id reason)))
  | .launch c, .proceed =>
    match f.launch o c.command with
    | (f, .ok n) => some (f, .at (.openHub c n))
    | (f, .error fault) => some (f.releasePermit, .at (.restore c (.spawnFailed o.source.id fault.message)))
  | .openHub c n, .proceed => some (f.openHub o c.command n, .at (.commit c n))
  | .commit c n, .proceed =>
    if f.overtaken o c.epoch then
      some ((f.abandon n).releasePermit, .at (.restore c (.startCancelled o.source.id)))
    else let r := f.track o c.command n; some (r.1, .at (.leave (.ok r.2)))
  | .restore c failure, .proceed => some (f.restoreLife o c.prior, .at (.leave (.error failure)))
  | .leave result, .proceed => some (f.leaveLine o.key job, .done result)
  | _, _ => none

end EncoderFleet.Fleet
