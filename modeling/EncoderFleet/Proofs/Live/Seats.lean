import EncoderFleet.Live.Hub

/-!
# One viewer of a hub

A hub is followed from its beginning (`Hub.Runs`) while units are published, viewers join, ask and leave, and at last
perhaps the hub is closed; the log says what happened and what was answered. `answer` computes what a viewer is answered
from the units published since it joined and from its own earlier answers alone. `Seat` ties one viewer's queue and
catch-up to what has happened since it joined, with one lemma for each thing that can happen: a unit is published
(`Seat.publish`), it asks (`Seat.ask`), it leaves (`Seat.leave`), or something happens that is none of its business
(`Seat.frame`).
-/

namespace EncoderFleet

/-! ## The depth of a queue -/

/-- Doubling from a power of two that is no greater than any that reaches `n` ends at the least that does. -/
private theorem grow_least (n : Nat) (fuel : Nat) : ∀ p : Nat, p.isPowerOfTwo → n ≤ p + fuel →
    (∀ m : Nat, m.isPowerOfTwo → n ≤ m → p ≤ m) →
    (roundUp.grow n fuel p).isPowerOfTwo ∧ n ≤ roundUp.grow n fuel p ∧
      ∀ m : Nat, m.isPowerOfTwo → n ≤ m → roundUp.grow n fuel p ≤ m := by
  induction fuel with
  | zero => exact fun p hp hn hl => ⟨hp, hn, hl⟩
  | succ fuel ih =>
    intro p hp hn hl
    rw [roundUp.grow]
    split
    · next h => exact ⟨hp, h, hl⟩
    · next h =>
      have hpos := Nat.pos_of_isPowerOfTwo hp
      refine ih (2 * p) ?_ (by omega) ?_
      · rw [Nat.mul_comm]
        exact Nat.isPowerOfTwo_mul_two_of_isPowerOfTwo hp
      · rintro m ⟨j, rfl⟩ hm
        obtain ⟨i, rfl⟩ := hp
        have hij : i < j := (Nat.pow_lt_pow_iff_right (by decide : 1 < 2)).mp (by omega)
        calc 2 * 2 ^ i = 2 ^ (i + 1) := by rw [Nat.pow_succ, Nat.mul_comm]
          _ ≤ 2 ^ j := Nat.pow_le_pow_right (by decide) hij

/-- `roundUp` finds the least power of two that is not below a number. -/
theorem roundUp_least (n : Nat) : (roundUp n).isPowerOfTwo ∧ n ≤ roundUp n ∧
    ∀ m : Nat, m.isPowerOfTwo → n ≤ m → roundUp n ≤ m := by
  refine grow_least n n 1 Nat.isPowerOfTwo_one (by omega) fun m hm _ => ?_
  exact Nat.pos_of_isPowerOfTwo hm

namespace Unread

/-- What is kept of the units that are unread. -/
def keeping (depth : Nat) (us : List StreamUnit) : Unread := ⟨us.length, us.drop (us.length - depth)⟩

/-- One more unit is one more of those that are unread. -/
theorem push_keeping (depth : Nat) (us : List StreamUnit) (u : StreamUnit) :
    (keeping depth us).push depth u = keeping depth (us ++ [u]) := by
  have hl : us.length - depth ≤ us.length := Nat.sub_le ..
  simp only [keeping, push, ← List.drop_append_of_le_length hl, List.drop_drop, List.length_drop, List.length_append,
    List.length_cons, List.length_nil, mk.injEq, true_and]
  congr 1
  omega

end Unread

/-- Whether an answer disconnects the viewer who gets it. -/
def Received.isFailure : Received → Bool
  | failed _ => true
  | _ => false

namespace Hub

/-! ## The log -/

/-- What happens at a hub, and what it answers. -/
inductive Entry
  | published (u : StreamUnit) (reached : Nat)
  | joined (viewer : Nat)
  | asked (viewer : Nat) (answer : Received)
  | left (viewer : Nat)
  | closed
deriving DecidableEq

/-- A hub and the viewers who have not left it. -/
structure Audience where
  hub : Hub
  closed : Bool := false
  viewers : KeyMap Nat Viewer := {}

/-- The logs of a new hub, and where they lead. Nobody publishes to a closed hub or joins it. -/
inductive Runs (source : String) (capacity : Nat) : List Entry → Audience → Prop
  | none : Runs source capacity [] { hub := .new source capacity }
  | publish {log : List Entry} {a : Audience} (h : Runs source capacity log a) (ho : a.closed = false)
      (u : StreamUnit) :
      Runs source capacity (log ++ [.published u (a.hub.publish u).1]) { a with hub := (a.hub.publish u).2 }
  | join {log : List Entry} {a : Audience} (h : Runs source capacity log a) (ho : a.closed = false) :
      Runs source capacity (log ++ [.joined a.hub.subscribe.1.id])
        { a with hub := a.hub.subscribe.2, viewers := a.viewers.insert a.hub.subscribe.1.id a.hub.subscribe.1 }
  | ask {log : List Entry} {a : Audience} {id : Nat} {v : Viewer} (h : Runs source capacity log a)
      (hv : a.viewers.get? id = some v) :
      Runs source capacity (log ++ [.asked id (a.hub.receive a.closed v).1])
        { a with hub := (a.hub.receive a.closed v).2.2
                 viewers := a.viewers.insert id (a.hub.receive a.closed v).2.1 }
  | leave {log : List Entry} {a : Audience} {id : Nat} {v : Viewer} (h : Runs source capacity log a)
      (hv : a.viewers.get? id = some v) :
      Runs source capacity (log ++ [.left id])
        { a with hub := a.hub.unsubscribe v.id, viewers := a.viewers.erase id }
  | close {log : List Entry} {a : Audience} (h : Runs source capacity log a) (ho : a.closed = false) :
      Runs source capacity (log ++ [.closed]) { a with closed := true }

/-- The units that were published. -/
def units (log : List Entry) : List StreamUnit :=
  log.filterMap fun
    | .published u _ => some u
    | _ => none

/-- The viewers who joined. -/
def joinedIn (log : List Entry) : List Nat :=
  log.filterMap fun
    | .joined id => some id
    | _ => none

/-- The answers that a viewer got. -/
def answersTo (id : Nat) (log : List Entry) : List Received :=
  log.filterMap fun
    | .asked j r => if j = id then some r else none
    | _ => none

/-- The units among answers. -/
def unitsOf (answers : List Received) : List StreamUnit :=
  answers.filterMap fun
    | .unit u => some u
    | _ => none

/-- The viewer that an entry is about. -/
def Entry.viewer? : Entry → Option Nat
  | joined id | asked id _ | left id => some id
  | published .. | closed => none

/-- Whether a viewer is disconnected by what an entry says. -/
def Entry.parts (id : Nat) : Entry → Bool
  | asked j r => decide (j = id) && r.isFailure
  | left j => decide (j = id)
  | _ => false

/-- The viewers who joined, less those who left or were disconnected. -/
def connected (log : List Entry) : List Nat := (joinedIn log).filter fun id => !log.any (Entry.parts id)

/-- The latest unit of a sort. -/
def latest? (p : StreamUnit → Bool) (us : List StreamUnit) : Option StreamUnit := (us.filter p).getLast?

/-- What viewers get first who join after these units: the latest header, decoder configuration and keyframe. -/
def catchupOf (us : List StreamUnit) : List StreamUnit :=
  [latest? (fun u => u.kind = .header) us, latest? (fun u => u.kind = .config) us,
    latest? (fun u => u.kind = .frame ∧ u.isKeyframe) us].filterMap id

/-- What a viewer is answered, of whose hub `us` were published since it joined, and which was given `answers` before. -/
def answer (depth : Nat) (catchup us : List StreamUnit) (closed : Bool) (answers : List Received) : Received :=
  let got := (unitsOf answers).length
  let due := catchup ++ us
  if answers.any Received.isFailure then .failed .hubClosed
  else if catchup.length ≤ got ∧ depth < due.length - got then .failed (.subscriberOverrun (due.length - got - depth))
  else
    match due[got]? with
    | some u => .unit u
    | none => if closed then .failed .hubClosed else .nothing

section log

variable {id : Nat} {log : List Entry} {e : Entry}

@[simp] theorem units_append (log rest : List Entry) : units (log ++ rest) = units log ++ units rest :=
  List.filterMap_append

@[simp] theorem answersTo_append (id : Nat) (log rest : List Entry) :
    answersTo id (log ++ rest) = answersTo id log ++ answersTo id rest :=
  List.filterMap_append

@[simp] theorem unitsOf_append (answers more : List Received) : unitsOf (answers ++ more) = unitsOf answers ++ unitsOf more :=
  List.filterMap_append

/-- The place of an entry in a log that grew by one: it is the new one, or it stood there before. -/
theorem split_snoc {α : Type} {log before after : List α} {e x : α} (h : log ++ [e] = before ++ x :: after) :
    (after = [] ∧ before = log ∧ x = e) ∨ ∃ rest, after = rest ++ [e] ∧ log = before ++ x :: rest := by
  rcases List.eq_nil_or_concat after with rfl | ⟨rest, y, rfl⟩
  · obtain ⟨hl, he⟩ := List.append_inj' h rfl
    exact Or.inl ⟨rfl, hl.symm, (List.singleton_inj.mp he).symm⟩
  · rw [List.concat_eq_append, ← List.cons_append, ← List.append_assoc] at h
    obtain ⟨hl, he⟩ := List.append_inj' h rfl
    exact Or.inr ⟨rest, by rw [List.concat_eq_append, List.singleton_inj.mp he], hl⟩

/-- A viewer whom no entry is about got no answer. -/
theorem answersTo_eq_nil (h : ∀ e ∈ log, e.viewer? ≠ some id) : answersTo id log = [] := by
  refine List.filterMap_eq_nil_iff.mpr fun e he => ?_
  cases e with
  | asked j r => exact if_neg fun hj => h _ he (congrArg some hj)
  | _ => rfl

/-- A viewer whom no entry is about is not disconnected. -/
theorem parts_eq_false (h : ∀ e ∈ log, e.viewer? ≠ some id) : log.any (Entry.parts id) = false := by
  refine List.any_eq_false.mpr fun e he => ?_
  cases e with
  | asked j r =>
    have hj : j ≠ id := fun hj => h _ he (congrArg some hj)
    simp [Entry.parts, hj]
  | left j =>
    have hj : j ≠ id := fun hj => h _ he (congrArg some hj)
    simp [Entry.parts, hj]
  | _ => simp [Entry.parts]

theorem mem_joinedIn (h : id ∈ joinedIn log) : Entry.joined id ∈ log := by
  obtain ⟨e, he, hid⟩ := List.mem_filterMap.mp h
  cases e with
  | joined j =>
    cases hid
    exact he
  | _ => cases hid

/-- The latest unit of a sort after one more unit. -/
theorem latest?_concat (p : StreamUnit → Bool) (us : List StreamUnit) (u : StreamUnit) :
    latest? p (us ++ [u]) = if p u then some u else latest? p us := by
  rw [latest?, latest?, List.filter_append]
  by_cases h : p u <;> simp [h]

end log

section answer

variable {depth : Nat} {catchup us : List StreamUnit} {closed : Bool} {answers : List Received}

/-- Who was disconnected is told so ever after. -/
theorem answer_of_failed (hf : answers.any Received.isFailure = true) :
    answer depth catchup us closed answers = .failed .hubClosed :=
  if_pos hf

/-- Catch-up comes first, however much else waits. -/
theorem answer_of_catchup (hf : answers.any Received.isFailure = false)
    (hg : (unitsOf answers).length < catchup.length) :
    answer depth catchup us closed answers = .unit catchup[(unitsOf answers).length] := by
  have hdue : (catchup ++ us)[(unitsOf answers).length]? = some catchup[(unitsOf answers).length] := by
    rw [List.getElem?_append_left hg, List.getElem?_eq_getElem hg]
  simp only [answer, hf, hdue, Bool.false_eq_true, if_false, Nat.not_le.mpr hg, false_and]

/-- What comes after the catch-up depends on what is unread. -/
theorem answer_of_live (hf : answers.any Received.isFailure = false)
    (hg : catchup.length ≤ (unitsOf answers).length) :
    answer depth catchup us closed answers =
      let un := us.drop ((unitsOf answers).length - catchup.length)
      if depth < un.length then .failed (.subscriberOverrun (un.length - depth))
      else
        match un with
        | u :: _ => .unit u
        | [] => if closed then .failed .hubClosed else .nothing := by
  have hlen : (catchup ++ us).length - (unitsOf answers).length =
      (us.drop ((unitsOf answers).length - catchup.length)).length := by
    rw [List.length_append, List.length_drop]
    omega
  have hdue : (catchup ++ us)[(unitsOf answers).length]? = (us.drop ((unitsOf answers).length - catchup.length)).head? := by
    rw [List.getElem?_append_right hg, List.head?_drop]
  simp only [answer, hf, hlen, hdue, hg, Bool.false_eq_true, if_false, true_and]
  split
  · rfl
  · cases us.drop ((unitsOf answers).length - catchup.length) <;> rfl

/-- A viewer is told that it fell behind exactly when nothing of its catch-up is left and it has more unread than its
queue keeps. -/
theorem answer_overrun_iff (n : Nat) : answer depth catchup us closed answers = .failed (.subscriberOverrun n) ↔
    answers.any Received.isFailure = false ∧ catchup.length ≤ (unitsOf answers).length ∧
      depth < (catchup ++ us).length - (unitsOf answers).length ∧
      n = (catchup ++ us).length - (unitsOf answers).length - depth := by
  unfold answer
  cases hf : answers.any Received.isFailure with
  | true => simp
  | false =>
    dsimp only
    rw [if_neg Bool.false_ne_true]
    split
    · next h =>
      rw [Received.failed.injEq, Failure.subscriberOverrun.injEq]
      exact ⟨fun hn => ⟨rfl, h.1, h.2, hn.symm⟩, fun hn => hn.2.2.2.symm⟩
    · next h =>
      refine ⟨fun hr => ?_, fun hn => absurd ⟨hn.2.1, hn.2.2.1⟩ h⟩
      split at hr
      · cases hr
      · split at hr <;> cases hr

/-- A unit that is handed out is the next of all that the viewer is to receive. -/
theorem getElem?_of_answer {u : StreamUnit} (h : answer depth catchup us closed answers = .unit u) :
    (catchup ++ us)[(unitsOf answers).length]? = some u := by
  unfold answer at h
  dsimp only at h
  split at h
  · cases h
  · split at h
    · cases h
    · split at h
      · next hu => rwa [Received.unit.inj h] at hu
      · split at h <;> cases h

end answer

/-! ## One viewer -/

/-- What a viewer has not received of the units published since it joined. -/
def unread (id : Nat) (catchup : List StreamUnit) (after : List Entry) : List StreamUnit :=
  (units after).drop ((unitsOf (answersTo id after)).length - catchup.length)

/-- How a viewer stands to whom `after` has happened since it joined. -/
structure Seat (depth : Nat) (catchup : List StreamUnit) (id : Nat) (after : List Entry) (a : Audience) : Prop where
  /-- It received units in their order, from the first. -/
  received : unitsOf (answersTo id after) <+: catchup ++ units after
  /-- It is only disconnected once its catch-up is drained. -/
  drained : (answersTo id after).any Received.isFailure = true → catchup.length ≤ (unitsOf (answersTo id after)).length
  /-- A viewer who has not left has the rest of its catch-up, and only a failure disconnects it. -/
  side : ∀ v, a.viewers.get? id = some v → v.id = id ∧
    v.catchup = catchup.drop (unitsOf (answersTo id after)).length ∧
    after.any (Entry.parts id) = (answersTo id after).any Received.isFailure
  /-- Its queue keeps what is unread. -/
  queue : a.hub.viewers.get? id =
    if after.any (Entry.parts id) then none else some (.keeping depth (unread id catchup after))

section seat

variable {depth id : Nat} {catchup : List StreamUnit} {after : List Entry} {a b : Audience} {e : Entry} {v : Viewer}

/-- How many units a viewer has not received of all that it is to receive. -/
theorem Seat.length_unread (h : catchup.length ≤ (unitsOf (answersTo id after)).length) :
    (unread id catchup after).length = (catchup ++ units after).length - (unitsOf (answersTo id after)).length := by
  rw [unread, List.length_drop, List.length_append]
  omega

/-- A viewer takes its seat. -/
theorem Seat.new {source : String} (hv : a.viewers.get? id = some ⟨id, source, catchup⟩)
    (hq : a.hub.viewers.get? id = some {}) :
    Seat depth catchup id [] a where
  received := List.nil_prefix
  drained h := absurd h Bool.false_ne_true
  side v hv' := by
    rw [hv, Option.some.injEq] at hv'
    subst hv'
    exact ⟨rfl, rfl, rfl⟩
  queue := by
    rw [hq, List.any_nil, if_neg (by decide)]
    simp [Unread.keeping, unread, units]

/-- What is not about a viewer leaves it as it is. -/
theorem Seat.frame (h : Seat depth catchup id after a) (hu : units [e] = []) (he : e.viewer? ≠ some id)
    (hq : b.hub.viewers.get? id = a.hub.viewers.get? id) (hv : b.viewers.get? id = a.viewers.get? id) :
    Seat depth catchup id (after ++ [e]) b := by
  have hone : ∀ e' ∈ [e], e'.viewer? ≠ some id := List.forall_mem_singleton.mpr he
  have hpa : (after ++ [e]).any (Entry.parts id) = after.any (Entry.parts id) := by
    rw [List.any_append, parts_eq_false hone, Bool.or_false]
  have hra : answersTo id (after ++ [e]) = answersTo id after := by
    rw [answersTo_append, answersTo_eq_nil hone, List.append_nil]
  have hua : units (after ++ [e]) = units after := by rw [units_append, hu, List.append_nil]
  constructor
  · rw [hra, hua]
    exact h.received
  · rw [hra]
    exact h.drained
  · rw [hpa, hra, hv]
    exact h.side
  · rw [hpa, hq, h.queue]
    simp only [unread, hra, hua]

/-- A unit is published to a viewer: one more is unread. -/
theorem Seat.publish (h : Seat depth catchup id after a) (u : StreamUnit) (n : Nat)
    (hq : b.hub.viewers.get? id = (a.hub.viewers.get? id).map fun w => w.push depth u)
    (hv : b.viewers.get? id = a.viewers.get? id) : Seat depth catchup id (after ++ [.published u n]) b := by
  have hpa : (after ++ [Entry.published u n]).any (Entry.parts id) = after.any (Entry.parts id) := by
    rw [List.any_append]
    exact Bool.or_false _
  have hra : answersTo id (after ++ [.published u n]) = answersTo id after := by
    rw [answersTo_append]
    exact List.append_nil _
  have hua : units (after ++ [.published u n]) = units after ++ [u] := units_append ..
  constructor
  · rw [hra, hua, ← List.append_assoc]
    exact List.prefix_append_of_prefix h.received
  · rw [hra]
    exact h.drained
  · rw [hpa, hra, hv]
    exact h.side
  · have hle : (unitsOf (answersTo id after)).length - catchup.length ≤ (units after).length := by
      have := h.received.length_le
      rw [List.length_append] at this
      omega
    rw [hpa, hq, h.queue]
    split
    · rfl
    · rw [Option.map_some, Unread.push_keeping]
      simp only [unread, hra, hua, List.drop_append_of_le_length hle]

/-- A viewer leaves. -/
theorem Seat.leave (h : Seat depth catchup id after a) (hq : b.hub.viewers.get? id = none)
    (hv : b.viewers.get? id = none) : Seat depth catchup id (after ++ [.left id]) b := by
  have hra : answersTo id (after ++ [.left id]) = answersTo id after := by
    rw [answersTo_append]
    exact List.append_nil _
  have hua : units (after ++ [.left id]) = units after := by
    rw [units_append]
    exact List.append_nil _
  constructor
  · rw [hra, hua]
    exact h.received
  · rw [hra]
    exact h.drained
  · rw [hv]
    simp
  · rw [hq]
    simp [Entry.parts]

/-- A disconnected viewer takes nothing. -/
theorem take_of_none {h : Hub} (hq : h.viewers.get? id = none) (closed : Bool) :
    h.take closed id = (.failed .hubClosed, h) := by
  simp only [take, hq]

/-- What a connected viewer takes, and what is left to it, depends on what is unread. -/
theorem take_of_keeping {h : Hub} {un : List StreamUnit} (hq : h.viewers.get? id = some (.keeping h.depth un))
    (closed : Bool) : h.take closed id =
      if h.depth < un.length then (.failed (.subscriberOverrun (un.length - h.depth)), h.unsubscribe id)
      else
        match un with
        | u :: rest => (.unit u, { h with viewers := h.viewers.insert id (.keeping h.depth rest) })
        | [] => if closed then (.failed .hubClosed, h.unsubscribe id) else (.nothing, h) := by
  simp only [take, hq, Unread.keeping]
  split
  · rfl
  · next hle =>
    have hz : un.length - h.depth = 0 := by omega
    rw [hz, List.drop_zero]
    cases un with
    | nil => rfl
    | cons u rest =>
      have hr : rest.length - h.depth = 0 := by
        rw [List.length_cons] at hz
        omega
      simp only [List.length_cons, Nat.add_sub_cancel, hr, List.drop_zero]

/-- What a viewer gets who asks, and how it stands afterwards. -/
theorem Seat.receive (h : Seat depth catchup id after a) (hd : a.hub.depth = depth)
    (hv : a.viewers.get? id = some v) :
    let r := answer depth catchup (units after) a.closed (answersTo id after)
    let got := (unitsOf (answersTo id after ++ [r])).length
    (a.hub.receive a.closed v).1 = r ∧ (a.hub.receive a.closed v).2.1.id = id ∧
      (a.hub.receive a.closed v).2.1.catchup = catchup.drop got ∧
      (a.hub.receive a.closed v).2.2.viewers.get? id =
        if (answersTo id after ++ [r]).any Received.isFailure then none
        else some (.keeping depth ((units after).drop (got - catchup.length))) := by
  obtain ⟨hid, hc, hp⟩ := h.side v hv
  have hq := h.queue
  have hdr := h.drained
  rw [hp, unread] at hq
  subst hid hd
  simp only [unitsOf_append, List.length_append, List.any_append]
  generalize answersTo v.id after = answers at *
  generalize units after = us at *
  rcases Nat.lt_or_ge (unitsOf answers).length catchup.length with hg | hg
  · -- the next of the catch-up
    have hf : answers.any Received.isFailure = false :=
      Bool.eq_false_iff.mpr fun hf => Nat.not_le.mpr hg (hdr hf)
    have hz : (unitsOf answers).length + 1 - catchup.length = (unitsOf answers).length - catchup.length := by omega
    rw [List.drop_eq_getElem_cons hg] at hc
    simp only [answer_of_catchup hf hg, Hub.receive, hc, hq, hf]
    exact ⟨trivial, trivial, rfl, congrArg (fun n => some (Unread.keeping _ (us.drop n))) hz.symm⟩
  · rw [List.drop_of_length_le hg] at hc
    have hc' : ∀ n, [] = catchup.drop ((unitsOf answers).length + n) := fun n =>
      (List.drop_of_length_le (by omega)).symm
    cases hf : answers.any Received.isFailure with
    | true =>
      rw [hf, if_pos rfl] at hq
      simp only [answer_of_failed hf, Hub.receive, hc, take_of_none hq, hq]
      exact ⟨trivial, trivial, hc' _, rfl⟩
    | false =>
      rw [hf, if_neg Bool.false_ne_true] at hq
      simp only [answer_of_live hf hg, Hub.receive, hc, take_of_keeping hq]
      have hun : (us.drop ((unitsOf answers).length - catchup.length)).tail =
          us.drop ((unitsOf answers).length + 1 - catchup.length) := by
        rw [List.tail_drop]
        congr 1
        omega
      by_cases hlt : a.hub.depth < (us.drop ((unitsOf answers).length - catchup.length)).length
      · rw [if_pos hlt, if_pos hlt]
        exact ⟨rfl, trivial, hc' _, (KeyMap.get?_erase ..).trans (if_pos rfl)⟩
      · rw [if_neg hlt, if_neg hlt]
        cases hu : us.drop ((unitsOf answers).length - catchup.length) with
        | nil =>
          cases hcl : a.closed
          · exact ⟨rfl, trivial, hc' _, hq⟩
          · exact ⟨rfl, trivial, hc' _, (KeyMap.get?_erase ..).trans (if_pos rfl)⟩
        | cons u rest =>
          refine ⟨rfl, trivial, hc' _, (KeyMap.get?_insert_self ..).trans ?_⟩
          rw [hu, List.tail_cons] at hun
          rw [hun]
          rfl

/-- A viewer asks. -/
theorem Seat.ask (h : Seat depth catchup id after a) (hd : a.hub.depth = depth) (hv : a.viewers.get? id = some v)
    (hhub : b.hub = (a.hub.receive a.closed v).2.2)
    (hside : b.viewers.get? id = some (a.hub.receive a.closed v).2.1) :
    (a.hub.receive a.closed v).1 = answer depth catchup (units after) a.closed (answersTo id after) ∧
      Seat depth catchup id (after ++ [.asked id (a.hub.receive a.closed v).1]) b := by
  obtain ⟨hr, hid, hc, hq⟩ := h.receive hd hv
  obtain ⟨-, -, hp⟩ := h.side v hv
  refine ⟨hr, ?_⟩
  rw [hr]
  generalize hrr : answer depth catchup (units after) a.closed (answersTo id after) = r at *
  have hra : answersTo id (after ++ [Entry.asked id r]) = answersTo id after ++ [r] := by
    rw [answersTo_append]
    exact congrArg _ (List.filterMap_cons_some (if_pos rfl))
  have hua : units (after ++ [Entry.asked id r]) = units after := by
    rw [units_append]
    exact List.append_nil _
  have hpa : (after ++ [Entry.asked id r]).any (Entry.parts id) =
      (answersTo id after ++ [r]).any Received.isFailure := by
    simp [List.any_append, hp, Entry.parts]
  constructor
  · rw [hra, hua, unitsOf_append]
    cases r with
    | unit u =>
      have hu := getElem?_of_answer hrr
      obtain ⟨rest, hrest⟩ := h.received
      rw [← hrest, List.getElem?_append_right (Nat.le_refl _), Nat.sub_self] at hu
      cases rest with
      | nil => cases hu
      | cons x rest =>
        cases hu
        exact ⟨rest, by rw [← hrest, List.append_assoc]; rfl⟩
    | _ =>
      rw [show unitsOf [_] = [] from rfl, List.append_nil]
      exact h.received
  · rw [hra, unitsOf_append, List.length_append]
    intro hf'
    refine Nat.le_add_right_of_le ?_
    cases hf : (answersTo id after).any Received.isFailure with
    | true => exact h.drained hf
    | false =>
      refine Nat.le_of_not_lt fun hg => ?_
      rw [answer_of_catchup hf hg] at hrr
      subst hrr
      rw [List.any_append, hf] at hf'
      exact absurd hf' Bool.false_ne_true
  · intro v' hv'
    rw [hside, Option.some.injEq] at hv'
    subst hv'
    rw [hra, hpa]
    exact ⟨hid, hc, rfl⟩
  · rw [hhub, hq, hpa, unread, hra, hua]

end seat

end Hub

end EncoderFleet
