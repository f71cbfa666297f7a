import EncoderFleet.Proofs.Fleet.Clock
import EncoderFleet.Proofs.Fleet.HubMoves

/-!
# The books

The gate with its permits, the register of hubs and what is known about each source are the *books* of a fleet. Jobs
write in them one entry at a time, so that a job that gives up half way has something to put right.

`StopLeaves` says what a stop makes of the books once it is through: nothing for a source never heard of, a note for one
that tracks no encoder, and else the end of the encoder, with its permit given back and its hub dropped. `StopStage`
says it for a stop that is under way, and each step leads from one stage to the next (`StopStep.stage`).
-/

namespace EncoderFleet

/-- The gate, the hubs that are registered, and what is known about each source. -/
structure Books where
  gate : Gate
  register : KeyMap String Nat
  state : String → Option SourceState

namespace Books

/-- Keep what is known about a source. -/
def write (b : Books) (key : String) (s : SourceState) : Books :=
  { b with state := Function.update b.state key (some s) }

/-- Take note of a source. -/
def noted (b : Books) (id : String) : Books :=
  b.write (Text.fold id) ((b.state (Text.fold id)).getD { source := id })

/-- The epoch of a source; that of a source never heard of is the first. -/
def epoch (b : Books) (key : String) : Nat := ((b.state key).map SourceState.epoch).getD 0

/-- A source tracks an encoder, which is that of its latest generation. -/
structure Tracks (b : Books) (key : String) (s : SourceState) (t : Tracked) : Prop where
  state : b.state key = some s
  tracked : s.tracked = some t
  generation : t.generation = s.generation

/-- The encoder of a source is taken away. -/
def emptied (b : Books) (o : StopOrder) (s : SourceState) : Books := b.write o.key (o.note s).emptied

/-- A permit is given back, if there is one. -/
def released (b : Books) (permit : Bool) : Books := { b with gate := if permit then b.gate.release else b.gate }

/-- The hub of a source is dropped, if the output of its encoder was piped. -/
def dropped (b : Books) (source : String) (t : Tracked) : Books :=
  { b with register := if t.command.mode.piped then b.register.erase (Text.fold source) else b.register }

/-- A stop has ended the encoder that a source tracked: the permit is given back, the hub is dropped if the output was
piped, and the end is recorded. -/
def ended (b : Books) (o : StopOrder) (s : SourceState) (t : Tracked) (moment : Nat) (code : ExitCode) : Books where
  gate := if s.permit then b.gate.release else b.gate
  register := if t.command.mode.piped then b.register.erase (Text.fold s.source) else b.register
  state := Function.update b.state o.key <| some
    { o.note s with
      lifecycle := .stopped, tracked := none, permit := false, lastExitAt := some moment, lastExitCode := code }

variable {b : Books} {key : String}

@[simp] theorem state_write (b : Books) (key : String) (s : SourceState) : (b.write key s).state key = some s :=
  Function.update_self ..

theorem state_ended (b : Books) (o : StopOrder) (s : SourceState) (t : Tracked) (moment : Nat) (code : ExitCode) :
    (b.ended o s t moment code).state o.key = some
      { o.note s with
        lifecycle := .stopped, tracked := none, permit := false, lastExitAt := some moment, lastExitCode := code } :=
  Function.update_self ..

theorem epoch_of_state {s : SourceState} (h : b.state key = some s) : b.epoch key = s.epoch := by
  rw [epoch, h]
  rfl

@[simp] theorem epoch_write (b : Books) (key : String) (s : SourceState) : (b.write key s).epoch key = s.epoch :=
  epoch_of_state (state_write b key s)

@[simp] theorem epoch_noted (b : Books) (id : String) : (b.noted id).epoch (Text.fold id) = b.epoch (Text.fold id) := by
  rw [noted, epoch_write, epoch]
  cases b.state (Text.fold id) <;> rfl

/-- The last entry of a stop completes what it has written before. -/
theorem write_dropped (b : Books) (o : StopOrder) (s : SourceState) (t : Tracked) (moment : Nat) (code : ExitCode) :
    (((b.emptied o s).released s.permit).dropped s.source t).write o.key
      { (o.note s).emptied.recordExit moment code with lifecycle := .stopped } = b.ended o s t moment code := by
  simp only [write, emptied, released, dropped, ended, Function.update_idem]
  rfl

end Books

namespace Fleet

/-- The books of a fleet. -/
def books (f : Fleet) : Books := ⟨f.gate, f.hubs.registered, f.state?⟩

variable {f g h k : Fleet} {b : Books} {o : StopOrder} {p : StopPlace} {m : Move}

/-! ## The books after an operation -/

theorem books_of_framed (hf : f.Framed g) (hr : f.hubs.SameRegister g.hubs) : g.books = f.books := by
  have hs : g.state? = f.state? := funext fun key => by rw [state?, state?, hf.states]
  rw [books, books, hf.gate, hr.registered, hs]

theorem books_putState (f : Fleet) (key : String) (s : SourceState) :
    (f.putState key s).books = f.books.write key s := by
  have hs : (f.putState key s).state? = Function.update f.state? key (some s) := funext fun k => by
    rw [state?_putState, Function.update_apply]
  rw [books, hs]
  rfl

theorem books_ensure (f : Fleet) (id : String) : (f.ensure id).books = f.books.noted id := books_putState ..

theorem books_letGo (f : Fleet) (t : Taken) : (f.letGo t).books = f.books.released t.permit := by
  have hs : (f.letGo t).state? = f.state? := funext fun key => by rw [state?, state?, states_letGo]
  have hr : (f.letGo t).hubs.registered = f.hubs.registered := by
    unfold letGo
    dsimp only
    split <;> exact (sameRegister_stopPump f t.tracked.encoder).registered
  rw [books, (gate_letGo f t).1, hr, hs]
  rfl

theorem books_dropHub (f : Fleet) (source : String) (t : Tracked) :
    (if t.command.mode.piped then { f with hubs := f.hubs.remove source } else f).books =
      f.books.dropped source t := by
  cases hp : t.command.mode.piped with
  | true => simp only [if_true, Books.dropped, hp]; rfl
  | false => simp only [Bool.false_eq_true, if_false, Books.dropped, hp]

/-- The end of an encoder is recorded while the source tracks none, and no later one either. -/
theorem books_recordStop {key : String} {s : SourceState} {t : Taken} (hs : f.state? key = some s)
    (ht : s.tracked = none) (hg : t.tracked.generation = s.generation) (code : ExitCode) :
    (f.recordStop key t code).books =
      f.books.write key { s.recordExit f.now code with lifecycle := .stopped } := by
  have hc : (s.recordExit f.now code).tracked.isNone = true ∧
      (s.recordExit f.now code).generation = t.tracked.generation :=
    ⟨Option.isNone_iff_eq_none.mpr ht, hg.symm⟩
  unfold recordStop
  rw [hs]
  dsimp only
  rw [if_pos hc, books_putState]

theorem state?_of_books (h : f.books = b) (key : String) : f.state? key = b.state key :=
  congrFun (congrArg Books.state h) key

/-! ## Stops -/

/-- What can be recorded as the end of an encoder by a stop that began in `f` or later: the code that its watcher has
seen, or none by a stop that has waited as long as the settings say. -/
def EndKnown (f g : Fleet) (n : Nat) (code : ExitCode) : Prop :=
  g.keeper? n = some (.gone code) ∨ code = none ∧ f.now + f.settings.stopTimeout ≤ g.now

/-- What a stop that began in `f` or later, with the books `b`, leaves of them in `g`. -/
inductive StopLeaves (f g : Fleet) (o : StopOrder) (b : Books) : Books → Prop
  | unknown (h : b.state o.key = none) : StopLeaves f g o b b
  | idle {s : SourceState} (h : b.state o.key = some s) (ht : s.tracked = none) :
      StopLeaves f g o b (b.write o.key (o.note s))
  | ended {s : SourceState} {t : Tracked} {moment : Nat} {code : ExitCode} (h : b.Tracks o.key s t)
      (hf : f.now ≤ moment) (hg : moment ≤ g.now) (hc : EndKnown f g t.encoder code) :
      StopLeaves f g o b (b.ended o s t moment code)

/-- Where a stop stands in `g` that began in `f` or later, with the books `b`. -/
inductive StopStage (f : Fleet) (o : StopOrder) (b : Books) : StopPlace → Fleet → Prop
  | take {g : Fleet} (h : g.books = b) : StopStage f o b .take g
  | reap {g : Fleet} {s : SourceState} {t : Tracked} {deadline : Nat} (ht : b.Tracks o.key s t)
      (hd : f.now + f.settings.stopTimeout ≤ deadline) (h : g.books = b.emptied o s) :
      StopStage f o b (.reap ⟨s.source, t, s.permit⟩ deadline) g
  | release {g : Fleet} {s : SourceState} {t : Tracked} {code : ExitCode} (ht : b.Tracks o.key s t)
      (hc : EndKnown f g t.encoder code) (h : g.books = b.emptied o s) :
      StopStage f o b (.release ⟨s.source, t, s.permit⟩ code) g
  | dropHub {g : Fleet} {s : SourceState} {t : Tracked} {code : ExitCode} (ht : b.Tracks o.key s t)
      (hc : EndKnown f g t.encoder code) (h : g.books = (b.emptied o s).released s.permit) :
      StopStage f o b (.dropHub ⟨s.source, t, s.permit⟩ code) g
  | record {g : Fleet} {s : SourceState} {t : Tracked} {code : ExitCode} (ht : b.Tracks o.key s t)
      (hc : EndKnown f g t.encoder code) (h : g.books = ((b.emptied o s).released s.permit).dropped s.source t) :
      StopStage f o b (.record ⟨s.source, t, s.permit⟩ code) g

/-- Where a stop stands after a step. -/
def StopStage.After (f : Fleet) (o : StopOrder) (b : Books) (g : Fleet) : After StopPlace (Option String) → Prop
  | .at p => StopStage f o b p g
  | .done _ => StopLeaves f g o b g.books

theorem EndKnown.onward {n : Nat} {code : ExitCode} (h : EndKnown f g n code) (on : g.Onward k) :
    EndKnown f k n code := by
  rcases h with h | ⟨h, hd⟩
  · exact .inl (on.gone h)
  · exact .inr ⟨h, Nat.le_trans hd on.now⟩

/-- A source that is known stays known. -/
theorem StopLeaves.known {c : Books} (h : StopLeaves f g o b c) (hb : ∃ s, b.state o.key = some s) :
    ∃ s, c.state o.key = some s := by
  cases h with
  | unknown => exact hb
  | idle => exact ⟨_, Books.state_write ..⟩
  | ended => exact ⟨_, Books.state_ended ..⟩

theorem StopLeaves.onward {c : Books} (h : StopLeaves f g o b c) (on : g.Onward k) : StopLeaves f k o b c := by
  cases h with
  | unknown h => exact .unknown h
  | idle h ht => exact .idle h ht
  | ended h hf hg hc => exact .ended h hf (Nat.le_trans hg on.now) (hc.onward on)

/-- A stop stands where it stood as long as nobody writes in the books. -/
theorem StopStage.onward (h : StopStage f o b p g) (on : g.Onward k) (hb : k.books = g.books) :
    StopStage f o b p k := by
  cases h with
  | take h => exact .take (hb.trans h)
  | reap ht hd h => exact .reap ht hd (hb.trans h)
  | release ht hc h => exact .release ht (hc.onward on) (hb.trans h)
  | dropHub ht hc h => exact .dropHub ht (hc.onward on) (hb.trans h)
  | record ht hc h => exact .record ht (hc.onward on) (hb.trans h)

/-- A step of a stop leads from one stage to the next. The fleet after it is `k`: the job of the stop is put back in
between, which concerns no books. -/
theorem StopStep.stage {r : After StopPlace (Option String)} (step : StopStep g o p m h r)
    (hs : StopStage f o b p g) (hl : (g.life o.key).Sound) (hf : f.Onward g) (on : g.Onward k)
    (hb : k.books = h.books) : StopStage.After f o b k r := by
  cases step with
  | unknown hu =>
    cases hs with
    | take hg =>
      show StopLeaves f k o b k.books
      rw [hb, hg]
      exact .unknown (by rw [← hu, state?_of_books hg])
  | @nothing s hu ht =>
    cases hs with
    | take hg =>
      show StopLeaves f k o b k.books
      rw [hb, books_putState, hg]
      exact .idle (by rw [← hu, state?_of_books hg]) ht
  | @taken s t hu ht =>
    cases hs with
    | take hg =>
      have htracks : b.Tracks o.key s t := by
        refine ⟨by rw [← hu, state?_of_books hg], ht, ?_⟩
        rw [life_of_state? hu] at hl
        exact hl.generation ht
      have hn : f.now + f.settings.stopTimeout ≤ g.now + g.settings.stopTimeout := by
        rw [hf.settings]
        exact Nat.add_le_add_right hf.now _
      refine .reap htracks hn (hb.trans ?_)
      rw [Books.emptied, ← hg]
      exact books_putState g o.key (o.note s).emptied
  | seen hc =>
    cases hs with
    | reap ht hd hg => exact .release ht (.inl (on.gone (keeper?_of_seen hc))) (hb.trans hg)
  | late hlate =>
    cases hs with
    | reap ht hd hg =>
      exact .release ht (.inr ⟨rfl, Nat.le_trans hd (Nat.le_trans hlate on.now)⟩) (hb.trans hg)
  | released =>
    cases hs with
    | release ht hc hg =>
      refine .dropHub ht (hc.onward on) (hb.trans ?_)
      rw [books_letGo, hg]
  | dropped =>
    cases hs with
    | dropHub ht hc hg =>
      refine .record ht (hc.onward on) (hb.trans ?_)
      rw [books_dropHub, hg]
  | recorded =>
    cases hs with
    | @record _ s t code ht hc hg =>
      show StopLeaves f k o b k.books
      have hstate : g.state? o.key = some (o.note s).emptied :=
        (state?_of_books hg o.key).trans (Books.state_write ..)
      rw [hb, books_recordStop hstate rfl ht.generation, hg, Books.write_dropped]
      exact .ended ht hf.now on.now (hc.onward on)

/-! ## The epoch of a source -/

theorem epoch_stateOrNew (f : Fleet) (o : StartOrder) : (f.stateOrNew o.source.id).epoch = f.books.epoch o.key := by
  unfold stateOrNew Books.epoch books
  dsimp only
  rw [show Text.fold o.source.id = o.key from rfl]
  cases f.state? o.key <;> rfl

theorem overtaken_eq (f : Fleet) (o : StartOrder) (epoch : Nat) :
    f.overtaken o epoch = (f.books.epoch o.key != epoch) := by
  rw [overtaken, epoch_stateOrNew]

theorem overtaken_of_books (hs : g.books.state = f.books.state) (o : StartOrder) (epoch : Nat) :
    g.overtaken o epoch = f.overtaken o epoch := by
  rw [overtaken_eq, overtaken_eq, Books.epoch, Books.epoch, hs]

/-- A stop that is a part of a start opens no epoch. -/
theorem StopLeaves.epoch {c : Books} (h : StopLeaves f g o b c) (ho : o.overtakes = false) :
    c.epoch o.key = b.epoch o.key := by
  cases h with
  | unknown => rfl
  | @idle s h => simp [Books.epoch_of_state h, StopOrder.note, ho]
  | @ended s t moment code h =>
    rw [Books.epoch_of_state h.state, Books.epoch_of_state (Books.state_ended ..)]
    simp [StopOrder.note, ho]

end Fleet

end EncoderFleet
