import EncoderFleet.Proofs.Fleet.Seclusion

/-!
# Starts that fail

A start that fails takes back what it has done. While it is under way, `StartStage` says how the books differ from
those at the call: the source is noted, its old encoder may be stopped, it is declared as starting, a permit is taken or
waited for. Each step leads from one stage to the next, or back (`StartStep.stage`). For a start that is left alone it follows
what it leaves when it fails (`failed_start_leaves_books`): a source that is switched off is refused at once; after that
all is as it was at the call, or as the stop of the old encoder has left it.
-/

namespace EncoderFleet

namespace StartOrder

/-- Why a start fails that has seen its source switched on and that no stop has overtaken: it gets no permit in time, or
no encoder. -/
def Fails (o : StartOrder) (e : Failure) : Prop :=
  e = .captureBusy o.source.id ∨ ∃ reason, e = .spawnFailed o.source.id reason

/-- The stop of the old encoder as a part of a start. -/
def stop (o : StartOrder) : StopOrder := ⟨o.key, false, false⟩

/-- The batch that a request to start one source becomes. -/
def batch (o : StartOrder) : Batch where
  flags := o.flags
  restart := o.restart
  force := o.force
  rule := .ignore
  rest := [o.source]

end StartOrder

namespace Fleet

variable {f g h k : Fleet} {o : StartOrder} {id : Nat} {b : Books} {c : Course}

/-! ## What a start goes back to -/

/-- The books that a start called in `f` goes back to: those at the call with its source noted, and with its old encoder
stopped if it is to be replaced. -/
def Ground (f : Fleet) (o : StartOrder) (g : Fleet) (b : Books) : Prop :=
  if o.replaces then f.StopLeaves g o.stop (f.books.noted o.source.id) b else b = f.books.noted o.source.id

theorem Ground.onward (hb : f.Ground o g b) (on : g.Onward k) : f.Ground o k b := by
  unfold Ground at hb ⊢
  split
  · next ho => rw [if_pos ho] at hb; exact hb.onward on
  · next ho => rwa [if_neg ho] at hb

theorem Ground.epoch (hb : f.Ground o g b) : b.epoch o.key = f.books.epoch o.key := by
  have hn : (f.books.noted o.source.id).epoch o.key = f.books.epoch o.key := Books.epoch_noted ..
  unfold Ground at hb
  split at hb
  · exact (hb.epoch rfl).trans hn
  · rw [hb, hn]

/-- The source of a start is known from its first step on. -/
theorem Ground.known (hb : f.Ground o g b) : ∃ s, b.state o.key = some s := by
  have hn : ∃ s, (f.books.noted o.source.id).state o.key = some s := ⟨_, Books.state_write ..⟩
  unfold Ground at hb
  split at hb
  · exact hb.known hn
  · rwa [hb]

/-- In `g` the source is declared as starting, and but for the gate this is all that has changed since the books were
`b`, which the start goes back to when it fails. -/
structure OnCourse (f : Fleet) (o : StartOrder) (g : Fleet) (c : Course) (b : Books) : Prop where
  ground : f.Ground o g b
  epoch : c.epoch = f.books.epoch o.key
  entry : ∃ s, b.state o.key = some s ∧ s.lifecycle = c.prior ∧
    g.books.state = Function.update b.state o.key (some { s with lifecycle := .starting })
  register : g.books.register = b.register

theorem OnCourse.onward (hc : f.OnCourse o g c b) (on : g.Onward k) (hs : k.books.state = g.books.state)
    (hr : k.books.register = g.books.register) : f.OnCourse o k c b where
  ground := hc.ground.onward on
  epoch := hc.epoch
  entry := by rw [hs]; exact hc.entry
  register := hr.trans hc.register

/-- No stop has overtaken a start on its course that is left alone. -/
theorem OnCourse.not_overtaken (hc : f.OnCourse o g c b) : g.overtaken o c.epoch = false := by
  obtain ⟨s, hs, -, hg⟩ := hc.entry
  have he : g.books.epoch o.key = b.epoch o.key := by
    rw [Books.epoch_of_state hs, Books.epoch, hg, Function.update_self]
    rfl
  rw [overtaken_eq, he, hc.ground.epoch, hc.epoch, bne_self_eq_false]

/-- Putting the old life of the source back puts the books back. -/
theorem OnCourse.books_restoreLife (hc : f.OnCourse o g c b) (hg : g.gate = b.gate) :
    (g.restoreLife o c.prior).books = b := by
  obtain ⟨s, hs, hp, hst⟩ := hc.entry
  have hentry : g.state? o.key = some { s with lifecycle := .starting } :=
    (congrFun hst o.key).trans (Function.update_self ..)
  unfold restoreLife
  rw [hentry]
  dsimp only
  rw [if_pos rfl, books_putState]
  have hback : ({ s with lifecycle := c.prior } : SourceState) = s := by rw [← hp]
  have hregister : g.hubs.registered = b.register := hc.register
  have hstate : g.state? = Function.update b.state o.key (some { s with lifecycle := .starting }) := hst
  rw [books, Books.write, hg, hregister, hstate, Function.update_idem, hback, ← hs, Function.update_eq_self]

/-! ## Stages -/

/-- How the books stand in `g` during a start that was called in `f` as job `id`. -/
def StartStage (f : Fleet) (o : StartOrder) (id : Nat) (g : Fleet) : StartPlace → Prop
  | .enter => g.books = f.books
  | .line e | .turn e | .look e => g.books = f.books.noted o.source.id ∧ e = f.books.epoch o.key
  | .retire e p => o.replaces = true ∧ f.StopStage o.stop (f.books.noted o.source.id) p g ∧ e = f.books.epoch o.key
  | .declare e => f.Ground o g g.books ∧ e = f.books.epoch o.key
  | .clear c | .ask c => ∃ b, f.OnCourse o g c b ∧ g.gate = b.gate
  | .await c _ => ∃ b, f.OnCourse o g c b ∧ id ∉ b.gate.tickets ∧ g.gate = b.gate.enqueue id
  | .makeWay c | .launch c => ∃ b, f.OnCourse o g c b ∧ g.gate.release = b.gate
  -- From here on only a stop could make the start fail.
  | .openHub c _ | .commit c _ => g.overtaken o c.epoch = false
  | .restore c e => o.Fails e ∧ ∃ b, f.OnCourse o g c b ∧ g.gate = b.gate
  | .leave (.error e) => o.Fails e ∧ f.Ground o g g.books
  | .leave (.ok _) => True

/-- How the books stand in `g` after a start that was called in `f`, if it has failed. -/
def StartLeaves (f : Fleet) (o : StartOrder) (g : Fleet) : StartResult → Prop
  | .error e =>
    o.source.enabled = false ∧ e = .sourceDisabled o.source.id ∧ g.books = f.books ∨
      o.source.enabled = true ∧ o.Fails e ∧ f.Ground o g g.books
  | .ok _ => True

/-- How the books stand in `g` after a step of a start. -/
def StartStage.After (f : Fleet) (o : StartOrder) (id : Nat) (g : Fleet) : After StartPlace StartResult → Prop
  | .at p => f.StartStage o id g p
  | .done r => f.StartLeaves o g r

theorem StartStage.onward {p : StartPlace} (hs : f.StartStage o id g p) (on : g.Onward k) (hb : k.books = g.books) :
    f.StartStage o id k p := by
  have hgate : k.gate = g.gate := congrArg Books.gate hb
  have course : ∀ {c b}, f.OnCourse o g c b → f.OnCourse o k c b := fun hc => hc.onward on (by rw [hb]) (by rw [hb])
  have ground : f.Ground o g g.books → f.Ground o k k.books := fun h => by rw [hb]; exact h.onward on
  cases p with
  | enter => exact hb.trans hs
  | line e => exact ⟨hb.trans hs.1, hs.2⟩
  | turn e => exact ⟨hb.trans hs.1, hs.2⟩
  | look e => exact ⟨hb.trans hs.1, hs.2⟩
  | retire e p => exact ⟨hs.1, hs.2.1.onward on hb, hs.2.2⟩
  | declare e => exact ⟨ground hs.1, hs.2⟩
  | clear c => obtain ⟨b, hc, hg⟩ := hs; exact ⟨b, course hc, hgate.trans hg⟩
  | ask c => obtain ⟨b, hc, hg⟩ := hs; exact ⟨b, course hc, hgate.trans hg⟩
  | await c deadline => obtain ⟨b, hc, hid, hg⟩ := hs; exact ⟨b, course hc, hid, hgate.trans hg⟩
  | makeWay c => obtain ⟨b, hc, hg⟩ := hs; exact ⟨b, course hc, hgate ▸ hg⟩
  | launch c => obtain ⟨b, hc, hg⟩ := hs; exact ⟨b, course hc, hgate ▸ hg⟩
  | openHub c n => exact (overtaken_of_books (by rw [hb]) o c.epoch).trans hs
  | commit c n => exact (overtaken_of_books (by rw [hb]) o c.epoch).trans hs
  | restore c e => obtain ⟨he, b, hc, hg⟩ := hs; exact ⟨he, b, course hc, hgate.trans hg⟩
  | leave r =>
    cases r with
    | error e => exact ⟨hs.1, ground hs.2⟩
    | ok => trivial

theorem StartLeaves.onward {r : StartResult} (hr : f.StartLeaves o g r) (on : g.Onward k) (hb : k.books = g.books) :
    f.StartLeaves o k r := by
  cases r with
  | ok => trivial
  | error e =>
    rcases hr with ⟨hd, he, hg⟩ | ⟨hd, he, hg⟩
    · exact .inl ⟨hd, he, hb.trans hg⟩
    · exact .inr ⟨hd, he, by rw [hb]; exact hg.onward on⟩

/-! ## Steps -/

theorem books_clearOrphans (f : Fleet) (c : Command) : (f.clearOrphans c).books = f.books :=
  books_of_framed (kept_clearOrphans f c).toFramed (sameStreams_clearOrphans f c).sameRegister

theorem books_makeWay (f : Fleet) (c : Command) : (f.makeWay c).1.books = f.books :=
  books_of_framed (kept_makeWay f c).toFramed (sameStreams_makeWay f c).sameRegister

/-- Declaring the source as starting sets a start on its course. -/
theorem Ground.declare (hb : f.Ground o g g.books) (on : g.Onward k)
    (hk : k.books = (g.putState o.key { g.stateOrNew o.source.id with lifecycle := .starting }).books)
    (cmd : Command) :
    f.OnCourse o k ⟨f.books.epoch o.key, (g.stateOrNew o.source.id).lifecycle, cmd⟩ g.books ∧
      k.gate = g.books.gate := by
  obtain ⟨s, hs⟩ := hb.known
  have hnew : g.stateOrNew o.source.id = s := by
    rw [stateOrNew, show g.state? (Text.fold o.source.id) = some s from hs, Option.getD_some]
  rw [hnew, books_putState] at hk
  have hstate : k.books.state = Function.update g.books.state o.key (some { s with lifecycle := .starting }) := by
    rw [hk, Books.write]
  have hregister : k.books.register = g.books.register := by rw [hk, Books.write]
  have hgate : k.books.gate = g.books.gate := by rw [hk, Books.write]
  exact ⟨⟨hb.onward on, rfl, ⟨s, hs, by rw [hnew], hstate⟩, hregister⟩, hgate⟩

/-- A step of a start that is left alone leads from one stage to the next. The fleet after it is `k`: the job of the
start is put back in between, which concerns no books. -/
theorem StartStep.stage {p : StartPlace} {m : Move} {r : After StartPlace StartResult} (step : StartStep g id o p m h r)
    (hs : f.StartStage o id g p) (hr : g.Reachable) (he : p ≠ .enter → o.source.enabled = true)
    (hi : ∀ c b, p = .launch c → g.launcher.plan g.files c.command = .runs b → b.stopMeanwhile = none)
    (ht : p.waits = false → id ∉ g.gate.tickets) (hf : f.Onward g) (on : g.Onward k) (hb : k.books = h.books) :
    StartStage.After f o id k r := by
  have hgate : k.gate = h.gate := congrArg Books.gate hb
  -- A start that is left alone is not overtaken.
  have punctual : ∀ {e}, g.books.epoch o.key = f.books.epoch o.key → e = f.books.epoch o.key →
      g.overtaken o e = true → StartStage.After f o id k r := by
    intro e hg he hover
    rw [overtaken_eq, hg, he, bne_self_eq_false] at hover
    cases hover
  have unmoved : ∀ {c b}, f.OnCourse o g c b → h.books.state = g.books.state → h.books.register = g.books.register →
      f.OnCourse o k c b := fun hc hst hreg =>
    hc.onward on ((congrArg Books.state hb).trans hst) ((congrArg Books.register hb).trans hreg)
  have noted : g.books = f.books.noted o.source.id → g.books.epoch o.key = f.books.epoch o.key := fun hg => by
    rw [hg]
    exact Books.epoch_noted ..
  cases step with
  | entered =>
    refine ⟨?_, ?_⟩
    · rw [hb, books_ensure, show g.books = f.books from hs]
    · rw [epoch_stateOrNew, show g.books = f.books from hs]
  | refused hd => exact .inl ⟨hd, rfl, hb.trans hs⟩
  | queued => exact ⟨hb.trans hs.1, hs.2⟩
  | admitted => exact ⟨hb.trans hs.1, hs.2⟩
  | leftLine hover => exact punctual (noted hs.1) hs.2 hover
  | found => trivial
  | replacing ho => exact ⟨ho, .take (hb.trans hs.1), hs.2⟩
  | missing _ ho =>
    refine ⟨?_, hs.2⟩
    rw [Ground, if_neg (by rw [ho]; exact Bool.false_ne_true), hb]
    exact hs.1
  | retiring step => exact ⟨hs.1, step.stage hs.2.1 (hr.records _).sound hf on hb, hs.2.2⟩
  | retired step =>
    refine ⟨?_, hs.2.2⟩
    rw [Ground, if_pos hs.1]
    exact step.stage hs.2.1 (hr.records _).sound hf on hb
  | declared =>
    obtain ⟨hground, rfl⟩ := hs
    exact ⟨_, hground.declare on hb _⟩
  | @cleared c =>
    obtain ⟨b, hc, hg⟩ := hs
    have hsame := books_clearOrphans g c.command
    exact ⟨b, unmoved hc (by rw [hsame]) (by rw [hsame]), hgate.trans ((congrArg Books.gate hsame).trans hg)⟩
  | acquired ha =>
    obtain ⟨b, hc, hg⟩ := hs
    refine ⟨b, unmoved hc rfl rfl, ?_⟩
    rw [hgate, ← hg]
    exact Gate.release_of_tryAcquire hr.orderly ha
  | waiting =>
    obtain ⟨b, hc, hg⟩ := hs
    exact ⟨b, unmoved hc rfl rfl, hg ▸ ht rfl, hgate.trans (hg ▸ rfl)⟩
  | gaveUp hover =>
    obtain ⟨b, hc, -⟩ := hs
    rw [hc.not_overtaken] at hover
    cases hover
  | granted hcollect =>
    obtain ⟨b, hc, hid, hg⟩ := hs
    rw [hg, Gate.collect_enqueue hid] at hcollect
    cases hcollect
  | withdrew hover =>
    obtain ⟨b, hc, -⟩ := hs
    rw [hc.not_overtaken] at hover
    cases hover
  | late =>
    obtain ⟨b, hc, hid, hg⟩ := hs
    refine ⟨.inl rfl, b, unmoved hc rfl rfl, hgate.trans ?_⟩
    show g.gate.withdraw id = b.gate
    rw [hg, Gate.withdraw_enqueue hid]
  | @madeWay c =>
    obtain ⟨b, hc, hg⟩ := hs
    have hsame := books_makeWay g c.command
    refine ⟨b, unmoved hc (by rw [hsame]) (by rw [hsame]), ?_⟩
    rw [hgate, show (g.makeWay c.command).1.gate = g.gate from congrArg Books.gate hsame, hg]
  | @noWay c reason =>
    obtain ⟨b, hc, hg⟩ := hs
    have hsame := books_makeWay g c.command
    refine ⟨.inr ⟨reason, rfl⟩, b, unmoved hc ?_ ?_, hgate.trans ?_⟩
    · show (g.makeWay c.command).1.books.state = g.books.state
      rw [hsame]
    · show (g.makeWay c.command).1.books.register = g.books.register
      rw [hsame]
    · show (g.makeWay c.command).1.gate.release = b.gate
      rw [show (g.makeWay c.command).1.gate = g.gate from congrArg Books.gate hsame, hg]
  | @launched c b hplan =>
    obtain ⟨b', hc, -⟩ := hs
    have hin : g.interrupt o b = g := by rw [interrupt, hi c b rfl hplan]
    have hst : k.books.state = g.books.state := by
      rw [hb, hin]
      rfl
    exact (overtaken_of_books hst o c.epoch).trans hc.not_overtaken
  | failed =>
    obtain ⟨b, hc, hg⟩ := hs
    exact ⟨.inr ⟨_, rfl⟩, b, unmoved hc rfl rfl, hgate.trans hg⟩
  | @opened c n =>
    have hst : k.books.state = g.books.state := by
      rw [hb]
      exact funext fun key => by
        show (g.openHub o c.command n).state? key = g.state? key
        rw [state?, state?, (kept_openHub g o c.command n).states]
    exact (overtaken_of_books hst o c.epoch).trans hs
  | abandoned hover =>
    rw [show g.overtaken o _ = false from hs] at hover
    cases hover
  | committed => trivial
  | restored =>
    obtain ⟨hfails, b, hc, hg⟩ := hs
    refine ⟨hfails, ?_⟩
    rw [hb, hc.books_restoreLife hg]
    exact hc.ground.onward on
  | @left result =>
    cases result with
    | ok => trivial
    | error e =>
      refine .inr ⟨he (by simp), hs.1, ?_⟩
      rw [hb]
      exact Ground.onward hs.2 on

/-- Only a source that is switched on gets past the first step of its start. -/
theorem StartStep.enabled {p q : StartPlace} {m : Move} (step : StartStep g id o p m h (.at q))
    (he : p ≠ .enter → o.source.enabled = true) : o.source.enabled = true := by
  cases step with
  | entered hd => exact hd
  | _ => exact he (by simp)

/-! ## The job of a start -/

/-- Where the job of a request to start one source stands. -/
inductive StartJob (f : Fleet) (o : StartOrder) (id : Nat) : Job → Fleet → Prop
  | waiting {g : Fleet} (h : g.books = f.books) : StartJob f o id (.batch o.batch) g
  | underway {g : Fleet} {p : StartPlace} (he : p ≠ .enter → o.source.enabled = true) (h : f.StartStage o id g p) :
      StartJob f o id (.batch { o.batch with current := some (o.source, p), rest := [] }) g
  | finished {g : Fleet} {r : StartResult} (h : f.StartLeaves o g r) :
      StartJob f o id (.batch { o.batch with rest := [], reports := [⟨o.source.id, .ended r⟩] }) g
  | done {g : Fleet} {r : StartResult} (h : f.StartLeaves o g r) :
      StartJob f o id (.done (.reports [⟨o.source.id, .ended r⟩])) g

theorem StartJob.onward {j : Job} (hj : StartJob f o id j g) (on : g.Onward k) (hb : k.books = g.books) :
    StartJob f o id j k := by
  cases hj with
  | waiting h => exact .waiting (hb.trans h)
  | underway he h => exact .underway he (h.onward on hb)
  | finished h => exact .finished (h.onward on hb)
  | done h => exact .done (h.onward on hb)

theorem StartJob.step {j j' : Job} {m : Move} (hj : StartJob f o id j g) (hr : g.Reachable) (hf : f.Onward g)
    (hi : g.interrupts id = false) (hg : g.jobs.get? id = some j) (step : JobStep g id j m h j') (on : g.Onward k)
    (hb : k.books = h.books) : StartJob f o id j' k := by
  cases hj with
  | waiting hbooks =>
    cases step with
    | start hc => cases hc
    | begun _ hrest =>
      cases hrest
      exact .underway (fun hn => absurd rfl hn) (hb.trans hbooks)
    | unmarked _ _ hrule => cases hrule
    | skipped _ _ hrule => cases hrule
    | started _ hrest => cases hrest
  | @underway _ p he hs =>
    cases step with
    | @start _ _ _ _ _ r hc step =>
      cases hc
      have hstart : g.start? id = some (o, p) := start?_of_get? hg
      have hafter := step.stage hs hr he (fun c b hp hplan => ?_) (fun hw ht => ?_) hf on hb
      · cases r with
        | «at» q => exact .underway (fun _ => step.enabled he) hafter
        | done => exact .finished hafter
      · rw [interrupts, hstart, hp] at hi
        simpa [hplan] using hi
      · have hwaits := hr.tickets.waits ht
        rw [waits_of_get? hg, waits_batch rfl, hw] at hwaits
        cases hwaits
    | begun hc => cases hc
    | unmarked hc => cases hc
    | skipped hc => cases hc
    | started hc => cases hc
  | finished hs =>
    cases step with
    | start hc => cases hc
    | begun _ hrest => cases hrest
    | unmarked _ hrest => cases hrest
    | skipped _ hrest => cases hrest
    | started => exact .done (hs.onward on hb)
  | done => cases step

/-- Let a start be left alone, and let it fail. If its source is switched off, it is refused at once, and the books are
as they were at the call. Otherwise it got no permit in time, or no encoder, and the books are those at the call with
the source noted; if the start was to replace an encoder, they are what the stop of that encoder alone leaves of them
(`lone_stop`). So nothing of the failed start remains: its permit is back and its ticket gone, the register is the same,
and so is what is known about its source and about all others. -/
theorem failed_start_leaves_books {e : Failure} (hr : f.Reachable)
    (hs : Secluded f.nextJob (f.submit (.start o)).2 g)
    (ha : g.answer? f.nextJob = some (.reports [⟨o.source.id, .ended (.error e)⟩])) :
    o.source.enabled = false ∧ e = .sourceDisabled o.source.id ∧ g.books = f.books ∨
      o.source.enabled = true ∧
        (e = .captureBusy o.source.id ∨ ∃ reason, e = .spawnFailed o.source.id reason) ∧
        if o.replaces then f.StopLeaves g ⟨o.key, false, false⟩ (f.books.noted o.source.id) g.books
        else g.books = f.books.noted o.source.id := by
  have hd : f.perform? (.submit (.start o)) = some (f.submit (.start o)).2 := rfl
  have hon := hr.onward hd
  have hjob := Secluded.run (I := fun g j => StartJob f o f.nextJob j g) (hr.perform hd) hs (fun j hj => ?_)
    (fun on hb hj => hj.onward on hb) (fun hg hf hi hj₀ step on hb hj => hj.step hg (hon.trans hf) hi hj₀ step on hb)
    (get?_of_answer ha)
  · cases hjob with
    | done h => exact h
  · rw [(submit_jobs f _).1, KeyMap.get?_insert_self] at hj
    cases hj
    exact .waiting rfl

/-- A camera runs, and no further encoder can be launched. -/
def lastLaunch : List Deed := [.submit (.start camera)] ++ goesOn 0 14 ++ [.replan (.fails .notFound)]

/-- A start that is to replace the encoder of the camera. -/
def replacement : StartOrder := { camera with restart := true }

/-- A start of a camera that is switched off, to replace its encoder. -/
def switchedOff : StartOrder := { replacement with source := { replacement.source with enabled := false } }

/-- The start ends the old encoder and gets no new one. The books are those that the stop of the old encoder leaves, and
the permit is free. -/
theorem failed_replacement_leaves_books : ∃ f g : Fleet, f.Reachable ∧ f.isRunning "cam" = true ∧
    f.gate.available = 0 ∧ Secluded f.nextJob (f.submit (.start replacement)).2 g ∧
    g.answer? f.nextJob =
      some (.reports [⟨"cam", .ended (.error (.spawnFailed "cam" Fault.notFound.message))⟩]) ∧
    f.StopLeaves g ⟨replacement.key, false, false⟩ (f.books.noted "cam") g.books ∧ g.gate.available = 1 := by
  let ds : List Deed := goesOn 1 6 ++ [.event (.strike 0), .event (.notice 0)] ++ goesOn 1 12
  obtain ⟨f, hf, h⟩ := exists_of_run
    (p := fun f => f.isRunning "cam" && decide (f.gate.available = 0) &&
      ((f.submit (.start replacement)).2.performAlone? f.nextJob ds).any fun g : Fleet =>
        decide (g.answer? f.nextJob =
          some (.reports [⟨"cam", .ended (.error (.spawnFailed "cam" Fault.notFound.message))⟩])) &&
        decide (g.gate.available = 1))
    lastLaunch (by decide +kernel)
  simp only [Bool.and_eq_true, decide_eq_true_eq] at h
  obtain ⟨⟨hrun, hbusy⟩, h⟩ := h
  obtain ⟨g, hg, h⟩ := (Option.any_eq_true _ _).mp h
  simp only [Bool.and_eq_true, decide_eq_true_eq] at h
  obtain ⟨ha, hfree⟩ := h
  have hs := secluded_of_performAlone hg
  rcases failed_start_leaves_books hf hs ha with ⟨hoff, -⟩ | ⟨-, -, hbooks⟩
  · cases hoff
  · exact ⟨f, g, hf, hrun, hbusy, hs, ha, hbooks, hfree⟩

/-- A start that is to replace the encoder of a camera that is switched off stops nothing: the encoder runs on with its
permit. The stop of the encoder alone would have ended it and given the permit back. -/
theorem refused_replacement_stops_nothing : ∃ f g h : Fleet, f.Reachable ∧
    Secluded f.nextJob (f.submit (.start switchedOff)).2 g ∧
    g.answer? f.nextJob = some (.reports [⟨"cam", .ended (.error (.sourceDisabled "cam"))⟩]) ∧
    Secluded f.nextJob (f.submit (.stop (some "cam") false)).2 h ∧ h.answer? f.nextJob = some (.stopped ["cam"]) ∧
    g.isRunning "cam" = true ∧ g.gate.available = 0 ∧ h.isRunning "cam" = false ∧ h.gate.available = 1 := by
  let ds : List Deed := goesOn 1 2 ++ [.event (.strike 0), .event (.notice 0)] ++ goesOn 1 5
  obtain ⟨f, hf, h⟩ := exists_of_run
    (p := fun f =>
      (((f.submit (.start switchedOff)).2.performAlone? f.nextJob (goesOn 1 3)).any fun g : Fleet =>
        decide (g.answer? f.nextJob = some (.reports [⟨"cam", .ended (.error (.sourceDisabled "cam"))⟩])) &&
        g.isRunning "cam" && decide (g.gate.available = 0)) &&
      ((f.submit (.stop (some "cam") false)).2.performAlone? f.nextJob ds).any fun h : Fleet =>
        decide (h.answer? f.nextJob = some (.stopped ["cam"])) && !h.isRunning "cam" && decide (h.gate.available = 1))
    lastLaunch (by decide +kernel)
  simp only [Bool.and_eq_true] at h
  obtain ⟨hstart, hstop⟩ := h
  obtain ⟨g, hg, hgs⟩ := (Option.any_eq_true _ _).mp hstart
  obtain ⟨k, hk, hks⟩ := (Option.any_eq_true _ _).mp hstop
  simp only [Bool.and_eq_true, Bool.not_eq_true', decide_eq_true_eq] at hgs hks
  obtain ⟨⟨hrefused, hruns⟩, hbusy⟩ := hgs
  obtain ⟨⟨hstopped, hends⟩, hfree⟩ := hks
  exact ⟨f, g, k, hf, secluded_of_performAlone hg, hrefused, secluded_of_performAlone hk, hstopped, hruns, hbusy, hends,
    hfree⟩

end Fleet

end EncoderFleet
