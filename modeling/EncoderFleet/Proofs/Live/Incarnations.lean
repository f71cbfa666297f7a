import EncoderFleet.Live.Hubs
import EncoderFleet.Proofs.Data.Totals
import EncoderFleet.Proofs.Live.Endings
import Mathlib.Data.List.Induction
import Mathlib.Logic.Function.Basic

/-!
# One hub after another under one id

A hub that is taken out of the register, or replaced there, goes on for those who hold it. `Runs` follows the register,
the hubs and their viewers through all calls, with a log of what was called and answered. Each hub in it is in a run of
its own, of which the log says what happened there (`Sound`, `Runs.sound`), and it is closed when the log says that it
is not registered and that nobody holds it (`Runs.registered`, `Runs.holders`, `Runs.closed_iff`). So what a viewer
receives and when it is told that the hub is closed follows from the run of its hub alone (`Hub.Runs.hubClosed_iff`,
`Followed.joined`), and `Runs.incarnations` puts it together.
-/

namespace EncoderFleet

namespace Hubs

/-! ## The log of the register -/

/-- What happens at the register and at the hubs. Whoever looks up, obtains, replaces or removes a hub holds the hub
that was found or made. -/
inductive Entry
  /-- The hub of a source was looked up. -/
  | looked (id : String) (found : Option Nat)
  /-- The hub of a source was asked for, and made if there was none. -/
  | obtained (id : String) (n : Nat)
  /-- A new hub was registered for a source. -/
  | replaced (id : String) (n : Nat)
  /-- The hub of a source was taken out of the register. -/
  | removed (id : String) (was : Option Nat)
  /-- Who held a hub holds it once more. -/
  | copied (n : Nat)
  /-- Who held a hub let it go. -/
  | dropped (n : Nat)
  /-- A viewer joined the live stream of a source. -/
  | subscribed (id : String) (n viewer : Nat)
  /-- Something happened at a hub. -/
  | within (n : Nat) (e : Hub.Entry)
deriving DecidableEq

/-- All hubs, and the viewers of each who have not left it. -/
structure Audiences where
  hubs : Hubs
  viewers : Nat → KeyMap Nat Viewer := fun _ => {}

/-- A hub and its viewers. -/
def Audiences.audience (s : Audiences) (n : Nat) : Hub.Audience := ⟨s.hubs.hub n, s.hubs.isClosed n, s.viewers n⟩

/-- A viewer who joined a hub takes its place among those of that hub. -/
def Audiences.seat (s : Audiences) (r : Subscription × Hubs) : Audiences where
  hubs := r.2
  viewers := Function.update s.viewers r.1.hub ((s.viewers r.1.hub).insert r.1.viewer.id r.1.viewer)

/-- Hold a hub if one was found. -/
def holdFound (hs : Hubs) : Option Nat → Hubs
  | some n => hs.hold n
  | none => hs

/-- The logs of a new register, and where they lead. Only a hub that is held is published to or joined; who subscribes
joins the registered one. -/
inductive Runs (capacity : Nat) : List Entry → Audiences → Prop
  | fresh : Runs capacity [] { hubs := { capacity } }
  | get {log : List Entry} {s : Audiences} (h : Runs capacity log s) (id : String) :
      Runs capacity (log ++ [.looked id (s.hubs.get? id)]) { s with hubs := s.hubs.holdFound (s.hubs.get? id) }
  | getOrCreate {log : List Entry} {s : Audiences} (h : Runs capacity log s) (id : String) :
      Runs capacity (log ++ [.obtained id (s.hubs.getOrCreate id).1])
        { s with hubs := (s.hubs.getOrCreate id).2.hold (s.hubs.getOrCreate id).1 }
  | reset {log : List Entry} {s : Audiences} (h : Runs capacity log s) (id : String) :
      Runs capacity (log ++ [.replaced id (s.hubs.reset id).1])
        { s with hubs := (s.hubs.reset id).2.hold (s.hubs.reset id).1 }
  | remove {log : List Entry} {s : Audiences} (h : Runs capacity log s) (id : String) :
      Runs capacity (log ++ [.removed id (s.hubs.get? id)])
        { s with hubs := (s.hubs.holdFound (s.hubs.get? id)).remove id }
  | copy {log : List Entry} {s : Audiences} {n : Nat} (h : Runs capacity log s) (hn : n ∈ s.hubs.held) :
      Runs capacity (log ++ [.copied n]) { s with hubs := s.hubs.hold n }
  | drop {log : List Entry} {s : Audiences} {n : Nat} (h : Runs capacity log s) (hn : n ∈ s.hubs.held) :
      Runs capacity (log ++ [.dropped n]) { s with hubs := s.hubs.release n }
  | subscribe {log : List Entry} {s : Audiences} (h : Runs capacity log s) (id : String) :
      Runs capacity (log ++ [.subscribed id (s.hubs.subscribe id).1.hub (s.hubs.subscribe id).1.viewer.id])
        (s.seat (s.hubs.subscribe id))
  | publish {log : List Entry} {s : Audiences} {n : Nat} (h : Runs capacity log s) (hn : n ∈ s.hubs.held)
      (u : StreamUnit) :
      Runs capacity (log ++ [.within n (.published u (s.hubs.publish n u).1)])
        { s with hubs := (s.hubs.publish n u).2 }
  | join {log : List Entry} {s : Audiences} {n : Nat} (h : Runs capacity log s) (hn : n ∈ s.hubs.held) :
      Runs capacity (log ++ [.within n (.joined (s.hubs.join n).1.viewer.id)]) (s.seat (s.hubs.join n))
  | ask {log : List Entry} {s : Audiences} {n id : Nat} {v : Viewer} (h : Runs capacity log s)
      (hv : (s.viewers n).get? id = some v) :
      Runs capacity (log ++ [.within n (.asked id (s.hubs.receive ⟨n, v⟩).1)])
        { hubs := (s.hubs.receive ⟨n, v⟩).2.2, viewers :=
          Function.update s.viewers n ((s.viewers n).insert id (s.hubs.receive ⟨n, v⟩).2.1.viewer) }
  | leave {log : List Entry} {s : Audiences} {n id : Nat} {v : Viewer} (h : Runs capacity log s)
      (hv : (s.viewers n).get? id = some v) :
      Runs capacity (log ++ [.within n (.left id)])
        { hubs := s.hubs.unsubscribe ⟨n, v⟩, viewers := Function.update s.viewers n ((s.viewers n).erase id) }

/-- What an entry says of a hub. -/
def Entry.at? (n : Nat) : Entry → Option Hub.Entry
  | subscribed _ m viewer => if m = n then some (.joined viewer) else none
  | within m e => if m = n then some e else none
  | _ => none

/-- The log of one hub. -/
def logOf (n : Nat) (log : List Entry) : List Hub.Entry := log.filterMap (Entry.at? n)

/-- The hub that is registered for an identity after one more entry. -/
def Entry.register (key : String) (before : Option Nat) : Entry → Option Nat
  | obtained id n | replaced id n | subscribed id n _ => if Text.fold id = key then some n else before
  | removed id _ => if Text.fold id = key then none else before
  | _ => before

/-- The hub that is registered for an identity. -/
def registeredIn (log : List Entry) (key : String) : Option Nat := log.foldl (Entry.register key) none

/-- Whether an entry gives a hub to somebody who holds it from then on. -/
def Entry.gives (n : Nat) : Entry → Bool
  | looked _ found => found == some n
  | obtained _ m | replaced _ m | copied m => m == n
  | removed _ was => was == some n
  | _ => false

/-- The id that a call names, and the hub that it finds there. -/
def Entry.addressed? : Entry → Option (String × Option Nat)
  | looked id found | removed id found => some (id, found)
  | obtained id n | subscribed id n _ => some (id, some n)
  | _ => none

section log

variable {log rest : List Entry} {e : Entry} {key : String} {n : Nat}

@[simp] theorem logOf_append (n : Nat) (log rest : List Entry) : logOf n (log ++ rest) = logOf n log ++ logOf n rest :=
  List.filterMap_append

theorem logOf_concat (n : Nat) (log : List Entry) (e : Entry) :
    logOf n (log ++ [e]) = logOf n log ++ (e.at? n).toList := by
  rw [logOf_append]
  cases h : e.at? n <;> simp [logOf, h]

theorem logOf_cons {e' : Hub.Entry} (he : e.at? n = some e') (rest : List Entry) :
    logOf n (e :: rest) = e' :: logOf n rest :=
  List.filterMap_cons_some he

theorem registeredIn_concat (log : List Entry) (e : Entry) (key : String) :
    registeredIn (log ++ [e]) key = e.register key (registeredIn log key) := by
  rw [registeredIn, List.foldl_append]
  rfl

end log

/-! ## Each hub by itself -/

section hubs

variable {hs : Hubs} {n k : Nat}

theorem hub_put {n : Nat} (h : Hub) (hn : n < hs.all.length) : (hs.put n h).hub n = h := by
  simp [hub, hub?, put, hn]

theorem hub_put_of_ne (h : Hub) (hk : k ≠ n) : (hs.put n h).hub k = hs.hub k := by
  simp [hub, hub?, put, List.getElem?_set_ne hk.symm]

/-- A hub is closed when it is neither registered nor held. -/
theorem isClosed_iff : hs.isClosed n = true ↔ (∀ key, hs.registered.get? key ≠ some n) ∧ n ∉ hs.held := by
  have hvalues : n ∈ hs.registered.values ↔ ∃ key, hs.registered.get? key = some n := by
    simp [KeyMap.values, ← KeyMap.mem_entries_iff]
  simp [isClosed, hvalues]

variable (s : Audiences) {h : Hub} {vs : KeyMap Nat Viewer}

theorem Audiences.audience_put (hn : n < s.hubs.all.length) :
    audience ⟨s.hubs.put n h, Function.update s.viewers n vs⟩ n = ⟨h, s.hubs.isClosed n, vs⟩ := by
  simp only [audience, hub_put h hn, Function.update_self]
  rfl

theorem Audiences.audience_put_of_ne (hk : k ≠ n) :
    audience ⟨s.hubs.put n h, Function.update s.viewers n vs⟩ k = s.audience k := by
  simp only [audience, hub_put_of_ne h hk, Function.update_of_ne hk]
  rfl

end hubs

/-- The log of a hub is that of a run of this hub alone, in which it was perhaps closed on the way. -/
def Followed (capacity : Nat) (log : List Hub.Entry) (a : Hub.Audience) : Prop :=
  ∃ source full, Hub.Runs source capacity full a ∧ full.filter (fun e => decide (e ≠ .closed)) = log

section followed

variable {capacity : Nat} {log : List Hub.Entry} {a b : Hub.Audience} {e : Hub.Entry}

/-- A hub can be closed at any time, and not opened again. -/
theorem Followed.close (h : Followed capacity log a) {c : Bool} (hc : a.closed = true → c = true) :
    Followed capacity log { a with closed := c } := by
  obtain ⟨source, full, hrun, hlog⟩ := h
  rcases Decidable.em (a.closed = c) with rfl | hne
  · exact ⟨source, full, hrun, hlog⟩
  · have hopen : a.closed = false := Bool.eq_false_iff.mpr fun ha => hne (ha.trans (hc ha).symm)
    obtain rfl : c = true := by
      cases c with
      | true => rfl
      | false => exact absurd hopen hne
    exact ⟨source, full ++ [.closed], hrun.close hopen, by simpa [List.filter_append] using hlog⟩

theorem Followed.concat (h : Followed capacity log a) (he : e ≠ .closed)
    (hrun : ∀ source full, Hub.Runs source capacity full a → Hub.Runs source capacity (full ++ [e]) b) :
    Followed capacity (log ++ [e]) b := by
  obtain ⟨source, full, hfull, hlog⟩ := h
  exact ⟨source, full ++ [e], hrun source full hfull, by rw [List.filter_append, hlog]; simp [he]⟩

theorem exists_of_filter {α : Type} {p : α → Bool} {l xs ys : List α} {y : α} (h : l.filter p = xs ++ y :: ys) :
    ∃ us vs, l = us ++ y :: vs ∧ us.filter p = xs ∧ vs.filter p = ys := by
  obtain ⟨us, vs, rfl, hus, hvs⟩ := List.filter_eq_append_iff.mp h
  obtain ⟨front, back, rfl, hfront, -, hback⟩ := List.filter_eq_cons_iff.mp hvs
  have hnone : front.filter p = [] := List.filter_eq_nil_iff.mpr hfront
  exact ⟨us ++ front, back, by rw [List.append_assoc], by rw [List.filter_append, hus, hnone, List.append_nil], hback⟩

theorem units_unclosed (log : List Hub.Entry) :
    Hub.units (log.filter fun e => decide (e ≠ .closed)) = Hub.units log := by
  rw [Hub.units, List.filterMap_filter, Hub.units]
  exact List.filterMap_congr fun e _ => by cases e <;> rfl

theorem answersTo_unclosed (id : Nat) (log : List Hub.Entry) :
    Hub.answersTo id (log.filter fun e => decide (e ≠ .closed)) = Hub.answersTo id log := by
  rw [Hub.answersTo, List.filterMap_filter, Hub.answersTo]
  exact List.filterMap_congr fun e _ => by cases e <;> rfl

/-- What a viewer of a hub has received, and what it is told when it asks. -/
theorem Followed.joined {before since : List Hub.Entry} {id : Nat} (h : Followed capacity log a)
    (hl : log = before ++ .joined id :: since) :
    Hub.unitsOf (Hub.answersTo id since) <+: Hub.catchupOf (Hub.units before) ++ Hub.units since ∧
    ∀ v, a.viewers.get? id = some v →
      ((Hub.answersTo id since).any Received.isFailure = true → (a.hub.receive a.closed v).1 = .failed .hubClosed) ∧
      ((Hub.answersTo id since).any Received.isOverrun = false →
        ((a.hub.receive a.closed v).1 = .failed .hubClosed ↔ a.Over (Hub.catchupOf (Hub.units before)) id since)) := by
  obtain ⟨source, full, hrun, hlog⟩ := h
  obtain ⟨front, back, rfl, rfl, rfl⟩ := exists_of_filter (hlog.trans hl)
  rw [answersTo_unclosed, units_unclosed, units_unclosed]
  have hseat := hrun.kept.seats front id back rfl
  refine ⟨hseat.received, fun v hv => ⟨fun hf => ?_, fun ho => ?_⟩⟩
  · rw [(hseat.receive hrun.kept.depth hv).1]
    exact Hub.answer_of_failed hf
  · rw [hrun.hubClosed_iff hv ho, Hub.Audience.Over, Hub.Audience.Over, answersTo_unclosed, units_unclosed]

end followed

/-- What is so at every moment: each hub is in a run of its own, of which the log says what happened there, and a hub is
registered for one identity at most. -/
structure Sound (capacity : Nat) (log : List Entry) (s : Audiences) : Prop where
  depth : s.hubs.capacity = capacity
  followed : ∀ n < s.hubs.all.length, Followed capacity (logOf n log) (s.audience n)
  /-- Nothing is known of hubs that are yet to come. -/
  unborn : ∀ n, s.hubs.all.length ≤ n → logOf n log = [] ∧ s.viewers n = {}
  known : ∀ key n, s.hubs.registered.get? key = some n → n < s.hubs.all.length
  distinct : ∀ j k n, s.hubs.registered.get? j = some n → s.hubs.registered.get? k = some n → j = k
  held : ∀ n ∈ s.hubs.held, n < s.hubs.all.length

section sound

variable {capacity : Nat} {log : List Entry} {s : Audiences} {hs : Hubs} {e : Entry} {n : Nat}

/-- What is said of no hub changes none. -/
theorem Sound.mention (h : Sound capacity log s) (he : ∀ n, e.at? n = none) : Sound capacity (log ++ [e]) s := by
  have hlog : ∀ n, logOf n (log ++ [e]) = logOf n log := fun n => by
    rw [logOf_concat, he, Option.toList_none, List.append_nil]
  exact { h with followed := fun n hn => hlog n ▸ h.followed n hn, unborn := fun n hn => hlog n ▸ h.unborn n hn }

/-- What is done to the register and to the handles changes an audience in nothing, or closes its hub. -/
theorem Sound.follow (h : Sound capacity log s) (hn : n < s.hubs.all.length) (hhub : hs.hub n = s.hubs.hub n)
    (hclosed : s.hubs.isClosed n = true → hs.isClosed n = true) :
    Followed capacity (logOf n log) (Audiences.audience { s with hubs := hs } n) := by
  have hfollowed := (h.followed n hn).close hclosed
  rwa [Audiences.audience, hhub]

/-- No hub is registered anew, and only one that is open is held anew. -/
theorem Sound.rearrange (h : Sound capacity log s) (hall : hs.all = s.hubs.all) (hcap : hs.capacity = s.hubs.capacity)
    (hreg : ∀ key n, hs.registered.get? key = some n → s.hubs.registered.get? key = some n)
    (hheld : ∀ n ∈ hs.held, s.hubs.isClosed n = false ∧ n < s.hubs.all.length) :
    Sound capacity log { s with hubs := hs } := by
  constructor
  · exact hcap.trans h.depth
  · intro n hn
    rw [hall] at hn
    have hhub : hs.hub n = s.hubs.hub n := by rw [hub, hub?, hall, hub, hub?]
    refine h.follow hn hhub fun hc => isClosed_iff.mpr ⟨fun key hk => ?_, fun hn => ?_⟩
    · exact (isClosed_iff.mp hc).1 key (hreg key n hk)
    · rw [(hheld n hn).1] at hc
      cases hc
  · rw [hall]
    exact h.unborn
  · rw [hall]
    exact fun key n hk => h.known key n (hreg key n hk)
  · exact fun j k n hj hk => h.distinct j k n (hreg j n hj) (hreg k n hk)
  · rw [hall]
    exact fun n hn => (hheld n hn).2

theorem Sound.held_open (h : Sound capacity log s) (hn : n ∈ s.hubs.held) :
    s.hubs.isClosed n = false ∧ n < s.hubs.all.length :=
  ⟨Bool.eq_false_iff.mpr fun hc => (isClosed_iff.mp hc).2 hn, h.held n hn⟩

theorem Sound.registered_open (h : Sound capacity log s) {key : String} (hk : s.hubs.registered.get? key = some n) :
    s.hubs.isClosed n = false ∧ n < s.hubs.all.length :=
  ⟨Bool.eq_false_iff.mpr fun hc => (isClosed_iff.mp hc).1 key hk, h.known key n hk⟩

theorem Sound.hold (h : Sound capacity log s) (hopen : s.hubs.isClosed n = false ∧ n < s.hubs.all.length) :
    Sound capacity log { s with hubs := s.hubs.hold n } := by
  refine h.rearrange rfl rfl (fun _ _ hk => hk) fun m hm => ?_
  rcases List.mem_cons.mp hm with rfl | hm
  · exact hopen
  · exact h.held_open hm

theorem Sound.holdFound (h : Sound capacity log s) (id : String) :
    Sound capacity log { s with hubs := s.hubs.holdFound (s.hubs.get? id) } := by
  cases hid : s.hubs.get? id with
  | none => exact h
  | some n => exact h.hold (h.registered_open hid)

theorem Sound.release (h : Sound capacity log s) (n : Nat) : Sound capacity log { s with hubs := s.hubs.release n } :=
  h.rearrange rfl rfl (fun _ _ hk => hk) fun _ hm => h.held_open (List.mem_of_mem_erase hm)

theorem Sound.remove (h : Sound capacity log s) (id : String) :
    Sound capacity log { s with hubs := s.hubs.remove id } := by
  refine h.rearrange rfl rfl (fun key n hk => ?_) fun _ hm => h.held_open hm
  rw [Hubs.remove, KeyMap.get?_erase] at hk
  split at hk
  · cases hk
  · exact hk

/-- What is registered once a hub has been made anew: it, and what was registered before for other sources. -/
theorem registered_reset {id key : String} (hk : (hs.reset id).2.registered.get? key = some n) :
    (key = Text.fold id ∧ n = hs.all.length) ∨ (key ≠ Text.fold id ∧ hs.registered.get? key = some n) := by
  rw [Hubs.reset, KeyMap.get?_insert] at hk
  split at hk
  · exact .inl ⟨‹_›, (Option.some.inj hk).symm⟩
  · exact .inr ⟨‹_›, hk⟩

/-- A new hub begins a run of its own. -/
theorem Sound.reset (h : Sound capacity log s) (id : String) :
    Sound capacity log { s with hubs := (s.hubs.reset id).2 } ∧
      (s.hubs.reset id).2.registered.get? (Text.fold id) = some (s.hubs.reset id).1 := by
  have hlength : (s.hubs.reset id).2.all.length = s.hubs.all.length + 1 := by simp [Hubs.reset]
  refine ⟨⟨h.depth, ?_, ?_, ?_, ?_, ?_⟩, KeyMap.get?_insert_self ..⟩
  · intro n hn
    rw [hlength] at hn
    rcases Nat.lt_or_eq_of_le (Nat.le_of_lt_succ hn) with hn | rfl
    · have hhub : (s.hubs.reset id).2.hub n = s.hubs.hub n := by
        simp [hub, hub?, Hubs.reset, List.getElem?_append_left hn]
      refine h.follow hn hhub fun hc => isClosed_iff.mpr ⟨fun key hk => ?_, (isClosed_iff.mp hc).2⟩
      rcases registered_reset hk with ⟨-, rfl⟩ | ⟨-, hk⟩
      · exact Nat.lt_irrefl _ hn
      · exact (isClosed_iff.mp hc).1 key hk
    · have hopen : (s.hubs.reset id).2.isClosed s.hubs.all.length = false :=
        Bool.eq_false_iff.mpr fun hc => (isClosed_iff.mp hc).1 _ (KeyMap.get?_insert_self ..)
      have hhub : (s.hubs.reset id).2.hub s.hubs.all.length = .new id capacity := by
        simp [hub, hub?, Hubs.reset, h.depth]
      obtain ⟨hlog, hviewers⟩ := h.unborn _ (Nat.le_refl _)
      rw [Audiences.audience, hopen, hhub, hviewers, hlog]
      exact ⟨id, [], .none, rfl⟩
  · intro n hn
    rw [hlength] at hn
    exact h.unborn n (Nat.le_of_succ_le hn)
  · intro key n hk
    rw [hlength]
    rcases registered_reset hk with ⟨-, rfl⟩ | ⟨-, hk⟩
    · exact Nat.lt_succ_self _
    · exact Nat.lt_succ_of_lt (h.known key n hk)
  · intro j k n hj hk
    rcases registered_reset hj with ⟨rfl, rfl⟩ | ⟨-, hj⟩ <;> rcases registered_reset hk with ⟨rfl, hn⟩ | ⟨-, hk⟩
    · rfl
    · exact absurd (h.known k _ hk) (Nat.lt_irrefl _)
    · subst hn
      exact absurd (h.known j _ hj) (Nat.lt_irrefl _)
    · exact h.distinct j k n hj hk
  · intro n hn
    rw [hlength]
    exact Nat.lt_succ_of_lt (h.held n hn)

/-- Whoever asks for the hub of a source finds it registered, and open. -/
theorem Sound.getOrCreate (h : Sound capacity log s) (id : String) :
    Sound capacity log { s with hubs := (s.hubs.getOrCreate id).2 } ∧
      (s.hubs.getOrCreate id).2.registered.get? (Text.fold id) = some (s.hubs.getOrCreate id).1 := by
  unfold Hubs.getOrCreate
  split
  · exact ⟨h, ‹_›⟩
  · exact h.reset id

/-- Something happens at one hub. -/
theorem Sound.within (h : Sound capacity log s) {e' : Hub.Entry} {hub : Hub} {vs : KeyMap Nat Viewer}
    (hn : n < s.hubs.all.length) (he : ∀ m, e.at? m = if n = m then some e' else none) (hne : e' ≠ .closed)
    (hrun : ∀ source full, Hub.Runs source capacity full (s.audience n) →
      Hub.Runs source capacity (full ++ [e']) ⟨hub, s.hubs.isClosed n, vs⟩) :
    Sound capacity (log ++ [e]) { hubs := s.hubs.put n hub, viewers := Function.update s.viewers n vs } := by
  have hlength : (s.hubs.put n hub).all.length = s.hubs.all.length := List.length_set ..
  refine ⟨h.depth, ?_, ?_, ?_, h.distinct, ?_⟩
  · intro m hm
    rw [hlength] at hm
    rw [logOf_concat, he]
    rcases Decidable.em (n = m) with rfl | hnm
    · rw [if_pos rfl, s.audience_put hn]
      exact (h.followed n hm).concat hne hrun
    · rw [if_neg hnm, s.audience_put_of_ne (Ne.symm hnm), Option.toList_none, List.append_nil]
      exact h.followed m hm
  · intro m hm
    rw [hlength] at hm
    have hnm : n ≠ m := fun hnm => absurd hm (Nat.not_le.mpr (hnm ▸ hn))
    rw [logOf_concat, he, if_neg hnm, Option.toList_none, List.append_nil]
    exact ⟨(h.unborn m hm).1, (Function.update_of_ne (Ne.symm hnm) ..).trans (h.unborn m hm).2⟩
  · rw [hlength]
    exact h.known
  · rw [hlength]
    exact h.held

/-- Who joins an open hub is let in. -/
theorem Sound.join (h : Sound capacity log s) (hopen : s.hubs.isClosed n = false ∧ n < s.hubs.all.length)
    (he : ∀ m, e.at? m = if n = m then some (.joined (s.hubs.join n).1.viewer.id) else none) :
    Sound capacity (log ++ [e]) (s.seat (s.hubs.join n)) :=
  h.within hopen.2 he nofun fun _ _ hrun => hrun.join hopen.1

/-- A viewer is one of a hub that there is. -/
theorem Sound.viewed (h : Sound capacity log s) {id : Nat} {v : Viewer} (hv : (s.viewers n).get? id = some v) :
    n < s.hubs.all.length := by
  refine Nat.lt_of_not_le fun hn => ?_
  rw [(h.unborn n hn).2] at hv
  cases hv

/-- All this holds along every run. -/
theorem Runs.sound (h : Runs capacity log s) : Sound capacity log s := by
  induction h with
  | fresh =>
    refine ⟨rfl, fun n hn => ?_, fun n _ => ⟨rfl, rfl⟩, nofun, nofun, nofun⟩
    exact absurd hn (Nat.not_lt_zero n)
  | get _ id ih => exact (ih.holdFound id).mention fun _ => rfl
  | getOrCreate _ id ih =>
    obtain ⟨hmade, hreg⟩ := ih.getOrCreate id
    exact (hmade.hold (hmade.registered_open hreg)).mention fun _ => rfl
  | reset _ id ih =>
    obtain ⟨hmade, hreg⟩ := ih.reset id
    exact (hmade.hold (hmade.registered_open hreg)).mention fun _ => rfl
  | remove _ id ih => exact ((ih.holdFound id).remove id).mention fun _ => rfl
  | copy _ hn ih => exact (ih.hold (ih.held_open hn)).mention fun _ => rfl
  | drop _ _ ih => exact (ih.release _).mention fun _ => rfl
  | subscribe _ id ih =>
    obtain ⟨hmade, hreg⟩ := ih.getOrCreate id
    exact hmade.join (hmade.registered_open hreg) fun _ => rfl
  | @publish log s n _ hn u ih =>
    have hopen := ih.held_open hn
    have hput : Sound capacity (log ++ [.within n (.published u (s.hubs.publish n u).1)])
        ⟨(s.hubs.publish n u).2, Function.update s.viewers n (s.viewers n)⟩ :=
      ih.within hopen.2 (fun _ => rfl) nofun fun _ _ hrun => hrun.publish hopen.1 u
    rwa [Function.update_eq_self] at hput
  | join _ hn ih => exact ih.join (ih.held_open hn) fun _ => rfl
  | ask _ hv ih => exact ih.within (ih.viewed hv) (fun _ => rfl) nofun fun _ _ hrun => hrun.ask hv
  | leave _ hv ih => exact ih.within (ih.viewed hv) (fun _ => rfl) nofun fun _ _ hrun => hrun.leave hv

/-! ## What the log says of the register -/

@[simp] theorem registered_holdFound (hs : Hubs) (o : Option Nat) : (hs.holdFound o).registered = hs.registered := by
  cases o <;> rfl

theorem count_holdFound (hs : Hubs) (o : Option Nat) (n : Nat) :
    (hs.holdFound o).held.count n = hs.held.count n + if o == some n then 1 else 0 := by
  cases o with
  | none => rfl
  | some m => simp [Hubs.holdFound, Hubs.hold, List.count_cons]

theorem registered_getOrCreate (hs : Hubs) (id key : String) : (hs.getOrCreate id).2.registered.get? key =
    if Text.fold id = key then some (hs.getOrCreate id).1 else hs.registered.get? key := by
  unfold Hubs.getOrCreate
  split
  · next n hn =>
    split
    · next hk => exact hk ▸ hn
    · rfl
  · simp only [Hubs.reset, KeyMap.get?_insert, eq_comm (a := key)]

theorem held_getOrCreate (hs : Hubs) (id : String) : (hs.getOrCreate id).2.held = hs.held := by
  unfold Hubs.getOrCreate
  split <;> rfl

/-- The register is what the log says it is. -/
theorem Runs.registered (h : Runs capacity log s) (key : String) :
    s.hubs.registered.get? key = registeredIn log key := by
  induction h with
  | fresh => rfl
  | get _ id ih => rw [registeredIn_concat, ← ih, registered_holdFound]; rfl
  | getOrCreate _ id ih => rw [registeredIn_concat, ← ih]; exact registered_getOrCreate ..
  | reset _ id ih =>
    rw [registeredIn_concat, ← ih]
    simp only [Hubs.reset, Hubs.hold, KeyMap.get?_insert, eq_comm (a := key), Entry.register]
  | remove _ id ih =>
    rw [registeredIn_concat, ← ih]
    simp only [Hubs.remove, registered_holdFound, KeyMap.get?_erase, eq_comm (a := key), Entry.register]
  | subscribe _ id ih => rw [registeredIn_concat, ← ih]; exact registered_getOrCreate ..
  | _ => rw [registeredIn_concat]; assumption

/-- One more entry changes the count of those who hold a hub by what it says. -/
theorem holders_concat {held held' : List Nat} (h : held.count n + log.count (.dropped n) = log.countP (Entry.gives n))
    (hnew : held'.count n + (if e = .dropped n then 1 else 0) = held.count n + if e.gives n then 1 else 0) :
    held'.count n + (log ++ [e]).count (.dropped n) = (log ++ [e]).countP (Entry.gives n) := by
  have hdropped : (log ++ [e]).count (.dropped n) = log.count (.dropped n) + if e = .dropped n then 1 else 0 := by
    simp [List.count_append, List.count_singleton]
  rw [List.countP_append, List.countP_singleton, ← h, hdropped]
  omega

/-- As many hold a hub as were given it and have not let it go. -/
theorem Runs.holders (h : Runs capacity log s) (n : Nat) :
    s.hubs.held.count n + log.count (.dropped n) = log.countP (Entry.gives n) := by
  induction h with
  | fresh => rfl
  | get _ id ih => exact holders_concat ih (by simp [count_holdFound, Entry.gives])
  | getOrCreate _ id ih =>
    refine holders_concat ih ?_
    rw [Hubs.hold, List.count_cons, held_getOrCreate]
    simp [Entry.gives]
  | reset _ id ih => exact holders_concat ih (by simp [Hubs.hold, List.count_cons, Entry.gives, Hubs.reset])
  | remove _ id ih => exact holders_concat ih (by simp [Hubs.remove, count_holdFound, Entry.gives])
  | copy _ hn ih => exact holders_concat ih (by simp [Hubs.hold, List.count_cons, Entry.gives])
  | @drop log s m _ hm ih =>
    refine holders_concat ih ?_
    have hpos : 0 < s.hubs.held.count m := List.count_pos_iff.mpr hm
    rw [Hubs.release, List.count_erase]
    rcases Decidable.em (m = n) with rfl | hne
    · simp only [BEq.rfl, if_true, Entry.gives, Bool.false_eq_true, if_false]
      omega
    · simp [hne, Entry.gives]
  | subscribe _ id ih =>
    refine holders_concat ih ?_
    change List.count n (Hubs.getOrCreate _ id).2.held + _ = _
    rw [held_getOrCreate]
    rfl
  | publish _ hn u ih => exact holders_concat ih rfl
  | join _ hn ih => exact holders_concat ih rfl
  | ask _ hv ih => exact holders_concat ih rfl
  | leave _ hv ih => exact holders_concat ih rfl

/-! ## Hubs that follow one another under one id -/

/-- What an entry says of the moment before it. -/
def Audiences.Tells (s : Audiences) : Entry → Prop
  | .looked id found | .removed id found => found = s.hubs.get? id
  | .obtained id n | .subscribed id n _ => n = (s.hubs.getOrCreate id).1
  | .replaced _ n => n = s.hubs.all.length
  | .within n (.asked id r) => ∃ v, (s.viewers n).get? id = some v ∧ r = (s.hubs.receive ⟨n, v⟩).1
  | _ => True

/-- Before the last entry stands a run that it continues. -/
theorem Runs.last (h : Runs capacity (log ++ [e]) s) : ∃ s', Runs capacity log s' ∧ s'.Tells e := by
  generalize hl : log ++ [e] = full at h
  cases h with
  | fresh => simp at hl
  | ask h hv =>
    obtain ⟨rfl, rfl⟩ := List.append_singleton_inj.mp hl
    exact ⟨_, h, _, hv, rfl⟩
  | get h id | getOrCreate h id | reset h id | remove h id | subscribe h id =>
    obtain ⟨rfl, rfl⟩ := List.append_singleton_inj.mp hl
    exact ⟨_, h, rfl⟩
  | copy h _ | drop h _ | publish h _ _ | join h _ | leave h _ =>
    obtain ⟨rfl, rfl⟩ := List.append_singleton_inj.mp hl
    exact ⟨_, h, trivial⟩

/-- Before each entry stands a run that it continues. -/
theorem Runs.tells {before after : List Entry} (h : Runs capacity log s) (hl : log = before ++ e :: after) :
    ∃ s', Runs capacity before s' ∧ s'.Tells e := by
  induction after using List.reverseRecOn generalizing log s with
  | nil => exact Runs.last (hl ▸ h)
  | append_singleton after e' ih =>
    have hl' : log = (before ++ e :: after) ++ [e'] := by rw [hl, List.append_assoc, List.cons_append]
    obtain ⟨s', h', -⟩ := Runs.last (hl' ▸ h)
    exact ih h' rfl

/-- The id of a call that leaves a hub registered, and that hub. -/
def Entry.opened? : Entry → Option (String × Nat)
  | obtained id n | replaced id n | subscribed id n _ => some (id, n)
  | _ => none

/-- Every call on an id finds the hub that is registered for it under any spelling. -/
theorem Runs.addressed {before after : List Entry} {id id' : String} {found : Option Nat} (h : Runs capacity log s)
    (hl : log = before ++ e :: after) (he : e.addressed? = some (id, found)) (hsame : Text.same id id' = true)
    (hn : registeredIn before (Text.fold id') = some n) : found = some n := by
  obtain ⟨s', h', htells⟩ := h.tells hl
  rw [← Text.same_iff.mp hsame, ← h'.registered] at hn
  have hget : s'.hubs.get? id = some n := hn
  have hmade : (s'.hubs.getOrCreate id).1 = n := by simp only [Hubs.getOrCreate, hget]
  cases e with
  | looked | removed =>
    cases he
    exact htells.trans hget
  | obtained | subscribed =>
    cases he
    exact congrArg some (htells.trans hmade)
  | _ => cases he

/-- A hub that is registered in the place of another one, or where there was none, is new: it was not registered before,
and nothing has happened at it. -/
theorem Runs.opened {before after : List Entry} {id : String} (h : Runs capacity log s)
    (hl : log = before ++ e :: after) (he : e.opened? = some (id, n))
    (hnew : e = .replaced id n ∨ registeredIn before (Text.fold id) = none) :
    (∀ key, registeredIn before key ≠ some n) ∧ logOf n before = [] := by
  obtain ⟨s', h', htells⟩ := h.tells hl
  have hlength : n = s'.hubs.all.length := by
    have hmade (hnone : registeredIn before (Text.fold id) = none) :
        (s'.hubs.getOrCreate id).1 = s'.hubs.all.length := by
      have hget : s'.hubs.get? id = none := (h'.registered _).trans hnone
      simp only [Hubs.getOrCreate, hget, Hubs.reset]
    cases e with
    | replaced =>
      cases he
      exact htells
    | obtained | subscribed =>
      cases he
      exact htells.trans (hmade (hnew.resolve_left nofun))
    | _ => cases he
  refine ⟨fun key hk => ?_, (h'.sound.unborn n (Nat.le_of_eq hlength.symm)).1⟩
  rw [← h'.registered] at hk
  exact Nat.lt_irrefl _ (hlength ▸ h'.sound.known key n hk)

/-- A viewer who joined a hub is a viewer of that hub alone. -/
theorem Runs.joined {before since : List Entry} {id : Nat} (h : Runs capacity (before ++ e :: since) s)
    (he : e.at? n = some (.joined id)) : Followed capacity (logOf n (before ++ e :: since)) (s.audience n) ∧
      logOf n (before ++ e :: since) = logOf n before ++ .joined id :: logOf n since := by
  have hlog : logOf n (before ++ e :: since) = logOf n before ++ .joined id :: logOf n since := by
    rw [logOf_append, logOf_cons he]
  refine ⟨h.sound.followed n (Nat.lt_of_not_le fun hn => ?_), hlog⟩
  have hnil := (h.sound.unborn n hn).1
  rw [hlog] at hnil
  exact List.append_ne_nil_of_right_ne_nil _ (List.cons_ne_nil _ _) hnil

/-- A hub is closed when it is not registered any more and all who were given it have let it go. -/
theorem Runs.closed_iff (h : Runs capacity log s) (n : Nat) : (s.audience n).closed = true ↔
    (∀ key, registeredIn log key ≠ some n) ∧ log.count (.dropped n) = log.countP (Entry.gives n) := by
  have hheld : n ∉ s.hubs.held ↔ log.count (.dropped n) = log.countP (Entry.gives n) := by
    rw [← List.count_eq_zero, ← h.holders n]
    omega
  simp only [Audiences.audience, isClosed_iff, h.registered, hheld]

/-- Whatever is done with the register, with the hubs that are held and by the viewers, in whatever order.

A hub is registered for one identity at most. A call on an id finds the hub that is registered for it, under whatever
spelling; a hub that is registered anew never was before, and nothing has happened at it.

A viewer who joined a hub receives, each once and in this order, what there was to catch up with in that hub and what is
published to it from then on, whatever becomes of the register. Once it was told that there is no more, it is told so
ever after that the hub is closed. Unless it fell behind it is told so exactly when the hub is not registered any more,
all who were given it have let it go, and the viewer has received everything. -/
theorem Runs.incarnations (h : Runs capacity log s) :
    (∀ j k n, registeredIn log j = some n → registeredIn log k = some n → j = k) ∧
    (∀ before e after id, log = before ++ e :: after →
      (∀ found id' n, e.addressed? = some (id, found) → Text.same id id' = true →
        registeredIn before (Text.fold id') = some n → found = some n) ∧
      ∀ n, e.opened? = some (id, n) → e = .replaced id n ∨ registeredIn before (Text.fold id) = none →
        (∀ key, registeredIn before key ≠ some n) ∧ logOf n before = []) ∧
    ∀ before e after n id, log = before ++ e :: after → e.at? n = some (.joined id) →
      Hub.unitsOf (Hub.answersTo id (logOf n after)) <+:
        Hub.catchupOf (Hub.units (logOf n before)) ++ Hub.units (logOf n after) ∧
      ∀ since r later, after = since ++ .within n (.asked id r) :: later →
        ((Hub.answersTo id (logOf n since)).any Received.isFailure = true → r = .failed .hubClosed) ∧
        ((Hub.answersTo id (logOf n since)).any Received.isOverrun = false →
          (r = .failed .hubClosed ↔
            (∀ key, registeredIn (before ++ e :: since) key ≠ some n) ∧
            (before ++ e :: since).count (.dropped n) = (before ++ e :: since).countP (Entry.gives n) ∧
            Hub.unitsOf (Hub.answersTo id (logOf n since)) =
              Hub.catchupOf (Hub.units (logOf n before)) ++ Hub.units (logOf n since))) := by
  refine ⟨fun j k n hj hk => ?_, fun before e after id hl => ⟨?_, ?_⟩, fun before e after n id hl he => ⟨?_, ?_⟩⟩
  · rw [← h.registered] at hj hk
    exact h.sound.distinct j k n hj hk
  · exact fun found id' n haddr hsame hn => h.addressed hl haddr hsame hn
  · exact fun n hopened hnew => h.opened hl hopened hnew
  · subst hl
    obtain ⟨hfollowed, hlog⟩ := h.joined he
    exact (hfollowed.joined hlog).1
  · rintro since r later rfl
    have hask : log = (before ++ e :: since) ++ .within n (.asked id r) :: later := by
      rw [hl, List.append_assoc, List.cons_append]
    obtain ⟨s', h', v, hv, rfl⟩ := h.tells hask
    obtain ⟨hfollowed, hlog⟩ := h'.joined he
    obtain ⟨hgone, hclosed⟩ := (hfollowed.joined hlog).2 v hv
    refine ⟨hgone, fun ho => ?_⟩
    rw [← and_assoc, ← h'.closed_iff n]
    exact hclosed ho

/-- A hub is replaced while a viewer has not read it to its end and a publisher still holds it. -/
def replacedHub : List Entry :=
  [.subscribed "cam" 0 1, .looked "CAM" (some 0), .within 0 (.published (.frame 0 [1] true) 1), .replaced "Cam" 1,
    .within 0 (.published (.frame 0 [2] false) 1), .subscribed "cam" 1 1,
    .within 1 (.published (.frame 0 [3] true) 1), .within 0 (.asked 1 (.unit (.frame 0 [1] true))),
    .within 0 (.asked 1 (.unit (.frame 0 [2] false))), .within 0 (.asked 1 .nothing), .dropped 0,
    .within 0 (.asked 1 (.failed .hubClosed)), .within 0 (.asked 1 (.failed .hubClosed)),
    .within 1 (.asked 1 (.unit (.frame 0 [3] true)))]

theorem runs_replacedHub : ∃ log s, Runs 4 log s ∧ log = replacedHub := by
  have h : Runs 4 [] _ := .fresh
  have h := h.subscribe "cam"
  have h := h.get "CAM"
  have h := h.publish (show 0 ∈ Hubs.held _ by decide +kernel) (.frame 0 [1] true)
  have h := h.reset "Cam"
  have h := h.publish (show 0 ∈ Hubs.held _ by decide +kernel) (.frame 0 [2] false)
  have h := h.subscribe "cam"
  have h := h.publish (show 1 ∈ Hubs.held _ by decide +kernel) (.frame 0 [3] true)
  have h := h.ask (show (Audiences.viewers _ 0).get? 1 = some ⟨1, "cam", []⟩ by decide +kernel)
  have h := h.ask (show (Audiences.viewers _ 0).get? 1 = some ⟨1, "cam", []⟩ by decide +kernel)
  have h := h.ask (show (Audiences.viewers _ 0).get? 1 = some ⟨1, "cam", []⟩ by decide +kernel)
  have h := h.drop (show 0 ∈ Hubs.held _ by decide +kernel)
  have h := h.ask (show (Audiences.viewers _ 0).get? 1 = some ⟨1, "cam", []⟩ by decide +kernel)
  have h := h.ask (show (Audiences.viewers _ 0).get? 1 = some ⟨1, "cam", []⟩ by decide +kernel)
  have h := h.ask (show (Audiences.viewers _ 1).get? 1 = some ⟨1, "Cam", []⟩ by decide +kernel)
  exact ⟨_, _, h, by decide +kernel⟩

/-- The call in capitals finds the first hub, and the hub in its place is new. The first viewer gets what was published
to the first hub, also after that was replaced, and is told that it is closed once the publisher has let it go; the
second viewer gets what was published to the second hub. -/
theorem incarnations_of_replacedHub : ∃ s, Runs 4 replacedHub s ∧
    (∀ key, registeredIn (replacedHub.take 3) key ≠ some 1) ∧
    Hub.unitsOf (Hub.answersTo 1 (logOf 0 (replacedHub.drop 1))) <+: [.frame 0 [1] true, .frame 0 [2] false] ∧
    (∀ key, registeredIn (replacedHub.take 11) key ≠ some 0) ∧
    Hub.unitsOf (Hub.answersTo 1 (logOf 1 (replacedHub.drop 6))) <+: [.frame 0 [3] true] := by
  obtain ⟨log, s, h, rfl⟩ := runs_replacedHub
  obtain ⟨-, hcall, hviewer⟩ := h.incarnations
  obtain ⟨-, hnew⟩ := hcall (replacedHub.take 3) (.replaced "Cam" 1) (replacedHub.drop 4) "Cam" rfl
  obtain ⟨hfirst, hasked⟩ := hviewer [] (.subscribed "cam" 0 1) (replacedHub.drop 1) 0 1 rfl rfl
  obtain ⟨-, hclosed⟩ := hasked ((replacedHub.take 11).drop 1) _ (replacedHub.drop 12) rfl
  obtain ⟨hsecond, -⟩ := hviewer (replacedHub.take 5) (.subscribed "cam" 1 1) (replacedHub.drop 6) 1 1 rfl rfl
  exact ⟨s, h, (hnew 1 rfl (.inl rfl)).1, hfirst, ((hclosed rfl).mp rfl).1, hsecond⟩

end sound

end Hubs

end EncoderFleet
