import EncoderFleet.Proofs.Live.Seats

/-!
# What viewers of one hub receive

`Kept` says what a hub keeps for the viewers who join, whom it serves, and how each viewer stands; one lemma for each
thing that can happen keeps it, and `Runs.kept` is the induction over the run. From it the log determines every answer
that a viewer gets (`Runs.answered`), so a viewer's story is that of what concerns it (`Runs.story_eq`).
`Runs.delivery` reads off what each viewer receives and how many a unit goes to.
-/

namespace EncoderFleet.Hub

/-! ## Runs -/

/-- What a hub keeps for the viewers who join, whom it serves, and how each viewer stands. -/
structure Kept (capacity : Nat) (log : List Entry) (a : Audience) : Prop where
  depth : a.hub.depth = roundUp (max capacity 1)
  cache : a.hub.header = latest? (fun u => u.kind = .header) (units log) ∧
    a.hub.config = latest? (fun u => u.kind = .config) (units log) ∧
    a.hub.keyframe = latest? (fun u => u.kind = .frame ∧ u.isKeyframe) (units log)
  closed : a.closed = true ↔ Entry.closed ∈ log
  connected : a.hub.viewers.keys = Hub.connected log
  /-- Viewers are numbered in the order in which they join. -/
  numbered : ∀ e ∈ log, ∀ id, e.viewer? = some id → id < a.hub.nextViewer
  /-- Who has a viewer's side has joined. -/
  held : ∀ id v, a.viewers.get? id = some v → ∃ before after, log = before ++ .joined id :: after
  seats : ∀ before id after, log = before ++ .joined id :: after →
    Seat (roundUp (max capacity 1)) (catchupOf (units before)) id after a

section runs

variable {source : String} {capacity : Nat} {log : List Entry} {a b : Audience} {e : Entry}

/-- Who is connected after one more entry. -/
theorem connected_concat (log : List Entry) (e : Entry) : connected (log ++ [e]) =
    (connected log ++ (joinedIn [e]).filter fun id => !log.any (Entry.parts id)).filter fun id => !e.parts id := by
  simp only [connected, joinedIn, List.filterMap_append, List.filter_append, List.filter_filter, List.any_append,
    List.any_cons, List.any_nil, Bool.or_false, Bool.not_or, Bool.and_comm]

/-- What does not let anybody in and does not disconnect anybody leaves the same viewers connected. -/
theorem connected_frame (hj : joinedIn [e] = []) (hp : ∀ id, e.parts id = false) :
    connected (log ++ [e]) = connected log := by
  rw [connected_concat, hj, List.filter_nil, List.append_nil]
  exact List.filter_eq_self.mpr fun id _ => by rw [hp]; rfl

/-- A publication keeps the unit if it is of use to later viewers, and puts it into every queue. -/
theorem publish_eq (h : Hub) (u : StreamUnit) : h.publish u = (h.viewerCount,
    { h with
      header := if u.kind = .header then some u else h.header
      config := if u.kind = .config then some u else h.config
      keyframe := if u.kind = .frame ∧ u.isKeyframe then some u else h.keyframe
      published := h.published + 1
      viewers := h.viewers.map fun w => w.push h.depth u }) := by
  unfold publish remember deliver viewerCount
  cases hk : u.kind with
  | frame => by_cases hf : u.isKeyframe <;> simp [hf]
  | _ => simp

/-- To give a viewer a unit changes nothing but the queues. -/
theorem receive_eq (h : Hub) (closed : Bool) (v : Viewer) :
    (h.receive closed v).2.2 = { h with viewers := (h.receive closed v).2.2.viewers } := by
  unfold receive take
  split
  · rfl
  · split
    · rfl
    · dsimp only
      split
      · rfl
      · split
        · rfl
        · split <;> rfl

/-- To give a viewer a unit changes no other queue. -/
theorem get?_receive_of_ne (h : Hub) (closed : Bool) {v : Viewer} {id : Nat} (hid : id ≠ v.id) :
    (h.receive closed v).2.2.viewers.get? id = h.viewers.get? id := by
  unfold receive take
  split
  · rfl
  · split
    · rfl
    · dsimp only
      split
      · exact (KeyMap.get?_erase ..).trans (if_neg hid)
      · split
        · exact KeyMap.get?_insert_of_ne _ _ hid
        · split
          · exact (KeyMap.get?_erase ..).trans (if_neg hid)
          · rfl

/-- A viewer who asks stays connected unless it gets a failure. -/
theorem keys_receive (h : Hub) (closed : Bool) (v : Viewer) : (h.receive closed v).2.2.viewers.keys =
    h.viewers.keys.filter fun id => !(decide (v.id = id) && (h.receive closed v).1.isFailure) := by
  have hstay : ∀ keys : List Nat, keys = keys.filter fun id => !(decide (v.id = id) && false) := fun keys =>
    (List.filter_eq_self.mpr fun id _ => by rw [Bool.and_false]; rfl).symm
  have hgo : (h.unsubscribe v.id).viewers.keys = h.viewers.keys.filter fun id => !(decide (v.id = id) && true) := by
    rw [unsubscribe, KeyMap.keys_erase]
    refine List.filter_congr fun id _ => ?_
    rw [Bool.and_true, decide_not, decide_eq_decide.mpr eq_comm]
  unfold receive take
  split
  · exact hstay _
  · split
    · next hn =>
      refine (List.filter_eq_self.mpr fun id hid => ?_).symm
      have hne : v.id ≠ id := fun hv => KeyMap.get?_eq_none_iff.mp hn (hv ▸ hid)
      simp [hne]
    · next w hw =>
      dsimp only
      split
      · exact hgo
      · split
        · have hmem : v.id ∈ h.viewers.keys := KeyMap.contains_iff.mp (by rw [KeyMap.contains, hw]; rfl)
          rw [KeyMap.keys_insert, if_pos hmem]
          exact hstay _
        · split
          · exact hgo
          · exact hstay _

/-- What a viewer gets first who joins is what was kept for it. -/
theorem Kept.catchup_eq (h : Kept capacity log a) : a.hub.catchup = catchupOf (units log) := by
  obtain ⟨hh, hc, hk⟩ := h.cache
  rw [catchup, catchupOf, hh, hc, hk]

/-- A new hub keeps nothing and serves nobody. -/
theorem Kept.fresh : Kept capacity [] { hub := .new source capacity } where
  depth := rfl
  cache := ⟨rfl, rfl, rfl⟩
  closed := by simp
  connected := rfl
  numbered := by simp
  held := by simp
  seats before id after h := by simp at h

/-- Every viewer that the log knows has a number below the next. -/
theorem Kept.numbered_concat (h : Kept capacity log a) {n : Nat} (hn : a.hub.nextViewer ≤ n)
    (he : ∀ id, e.viewer? = some id → id < n) : ∀ e' ∈ log ++ [e], ∀ id, e'.viewer? = some id → id < n := by
  intro e' he' id hid
  rcases List.mem_append.mp he' with he' | he'
  · exact Nat.lt_of_lt_of_le (h.numbered e' he' id hid) hn
  · cases List.mem_singleton.mp he'
    exact he id hid

/-- Who has joined is known to have when the log has grown. -/
theorem Kept.held_concat (h : Kept capacity log a) {id : Nat} {v : Viewer} (hv : a.viewers.get? id = some v) :
    ∃ before after, log ++ [e] = before ++ .joined id :: after := by
  obtain ⟨before, after, hl⟩ := h.held id v hv
  exact ⟨before, after ++ [e], by rw [hl, List.append_assoc, List.cons_append]⟩

/-- A viewer has joined before it asks or leaves. -/
theorem Kept.lt_nextViewer (h : Kept capacity log a) {id : Nat} {v : Viewer} (hv : a.viewers.get? id = some v) :
    id < a.hub.nextViewer := by
  obtain ⟨before, after, hl⟩ := h.held id v hv
  exact h.numbered (.joined id) (by rw [hl]; simp) id rfl

/-- The viewer's side and the hub know a viewer by the same number. -/
theorem Kept.id_eq (h : Kept capacity log a) {id : Nat} {v : Viewer} (hv : a.viewers.get? id = some v) : v.id = id := by
  obtain ⟨before, after, hl⟩ := h.held id v hv
  exact ((h.seats before id after hl).side v hv).1

theorem closed_concat (hc : a.closed = true ↔ Entry.closed ∈ log) (he : e ≠ .closed) :
    a.closed = true ↔ Entry.closed ∈ log ++ [e] := by
  rw [hc, List.mem_append, List.mem_singleton]
  exact ⟨Or.inl, fun h => h.resolve_right he.symm⟩

theorem Kept.publish (h : Kept capacity log a) (u : StreamUnit) :
    Kept capacity (log ++ [.published u (a.hub.publish u).1]) { a with hub := (a.hub.publish u).2 } := by
  rw [publish_eq]
  constructor
  · exact h.depth
  · obtain ⟨hh, hc, hk⟩ := h.cache
    rw [units_append, show units [Entry.published u a.hub.viewerCount] = [u] from rfl]
    simp [latest?_concat, hh, hc, hk]
  · exact closed_concat h.closed (by simp)
  · rw [connected_frame rfl fun _ => rfl, ← h.connected]
    exact KeyMap.keys_map ..
  · exact h.numbered_concat (Nat.le_refl _) nofun
  · exact fun id v hv => h.held_concat hv
  · intro before id after hs
    rcases split_snoc hs with ⟨-, -, he⟩ | ⟨rest, rfl, hl⟩
    · cases he
    · refine (h.seats before id rest hl).publish u _ ?_ rfl
      rw [← h.depth]
      exact KeyMap.get?_map ..

theorem Kept.join (h : Kept capacity log a) :
    Kept capacity (log ++ [.joined a.hub.subscribe.1.id])
      { a with hub := a.hub.subscribe.2, viewers := a.viewers.insert a.hub.subscribe.1.id a.hub.subscribe.1 } := by
  have hnew : ∀ e ∈ log, e.viewer? ≠ some a.hub.nextViewer := fun e he hid =>
    Nat.lt_irrefl _ (h.numbered e he _ hid)
  have hu : units (log ++ [.joined a.hub.nextViewer]) = units log := by
    rw [units_append]
    exact List.append_nil _
  have hkeys : a.hub.nextViewer ∉ a.hub.viewers.keys := by
    rw [h.connected]
    intro hm
    exact hnew _ (mem_joinedIn (List.mem_filter.mp hm).1) rfl
  unfold subscribe
  constructor
  · exact h.depth
  · rw [hu]
    exact h.cache
  · exact closed_concat h.closed (by simp)
  · dsimp only
    rw [KeyMap.keys_insert, if_neg hkeys, h.connected, connected_concat, show joinedIn [Entry.joined _] = [_] from rfl,
      List.filter_cons_of_pos (by rw [parts_eq_false hnew]; rfl), List.filter_nil]
    exact (List.filter_eq_self.mpr fun _ _ => rfl).symm
  · refine h.numbered_concat (Nat.le_succ _) fun id hid => ?_
    cases hid
    exact Nat.lt_succ_self _
  · intro id v hv
    rcases Decidable.em (id = a.hub.nextViewer) with rfl | hne
    · exact ⟨log, [], rfl⟩
    · rw [KeyMap.get?_insert_of_ne _ _ hne] at hv
      exact h.held_concat hv
  · intro before id after hs
    rcases split_snoc hs with ⟨rfl, rfl, he⟩ | ⟨rest, rfl, hl⟩
    · cases he
      rw [h.catchup_eq]
      exact .new (KeyMap.get?_insert_self ..) (KeyMap.get?_insert_self ..)
    · have hne : id ≠ a.hub.nextViewer := fun hid => hnew (.joined id) (by rw [hl]; simp) (congrArg some hid)
      refine (h.seats before id rest hl).frame rfl (fun hid => hne (Option.some.inj hid).symm) ?_ ?_
      · exact KeyMap.get?_insert_of_ne _ _ hne
      · exact KeyMap.get?_insert_of_ne _ _ hne

theorem Kept.ask {id : Nat} {v : Viewer} (h : Kept capacity log a) (hv : a.viewers.get? id = some v) :
    Kept capacity (log ++ [.asked id (a.hub.receive a.closed v).1])
      { a with hub := (a.hub.receive a.closed v).2.2
               viewers := a.viewers.insert id (a.hub.receive a.closed v).2.1 } := by
  have hid := h.id_eq hv
  have hu : units (log ++ [.asked id (a.hub.receive a.closed v).1]) = units log := by
    rw [units_append]
    exact List.append_nil _
  have hhub := receive_eq a.hub a.closed v
  constructor
  · rw [hhub]
    exact h.depth
  · rw [hu, hhub]
    exact h.cache
  · exact closed_concat h.closed (by simp)
  · dsimp only
    rw [keys_receive, h.connected, connected_concat, show joinedIn [Entry.asked id _] = [] from rfl,
      List.filter_nil, List.append_nil, hid]
    rfl
  · rw [hhub]
    refine h.numbered_concat (Nat.le_refl _) fun j hj => ?_
    cases hj
    exact h.lt_nextViewer hv
  · intro j w hw
    rcases Decidable.em (j = id) with rfl | hne
    · exact h.held_concat hv
    · rw [KeyMap.get?_insert_of_ne _ _ hne] at hw
      exact h.held_concat hw
  · intro before j after hs
    rcases split_snoc hs with ⟨-, -, he⟩ | ⟨rest, rfl, hl⟩
    · cases he
    · have hseat := h.seats before j rest hl
      rcases Decidable.em (j = id) with rfl | hne
      · exact (hseat.ask h.depth hv rfl (KeyMap.get?_insert_self ..)).2
      · refine hseat.frame rfl (fun hj => hne (Option.some.inj hj).symm) ?_ ?_
        · exact get?_receive_of_ne _ _ (hid ▸ hne)
        · exact KeyMap.get?_insert_of_ne _ _ hne

theorem Kept.leave {id : Nat} {v : Viewer} (h : Kept capacity log a) (hv : a.viewers.get? id = some v) :
    Kept capacity (log ++ [.left id]) { a with hub := a.hub.unsubscribe v.id, viewers := a.viewers.erase id } := by
  have hid := h.id_eq hv
  subst hid
  have hu : units (log ++ [.left v.id]) = units log := by
    rw [units_append]
    exact List.append_nil _
  constructor
  · exact h.depth
  · rw [hu]
    exact h.cache
  · exact closed_concat h.closed (by simp)
  · rw [unsubscribe, KeyMap.keys_erase, h.connected, connected_concat, show joinedIn [Entry.left v.id] = [] from rfl,
      List.filter_nil, List.append_nil]
    refine List.filter_congr fun id _ => ?_
    rw [decide_not, decide_eq_decide.mpr eq_comm]
    rfl
  · refine h.numbered_concat (Nat.le_refl _) fun j hj => ?_
    cases hj
    exact h.lt_nextViewer hv
  · intro j w hw
    rw [KeyMap.get?_erase] at hw
    split at hw
    · cases hw
    · exact h.held_concat hw
  · intro before j after hs
    rcases split_snoc hs with ⟨-, -, he⟩ | ⟨rest, rfl, hl⟩
    · cases he
    · have hseat := h.seats before j rest hl
      rcases Decidable.em (j = v.id) with rfl | hne
      · exact hseat.leave ((KeyMap.get?_erase ..).trans (if_pos rfl)) ((KeyMap.get?_erase ..).trans (if_pos rfl))
      · refine hseat.frame rfl (fun hj => hne (Option.some.inj hj).symm) ?_ ?_
        · exact (KeyMap.get?_erase ..).trans (if_neg hne)
        · exact (KeyMap.get?_erase ..).trans (if_neg hne)

theorem Kept.close (h : Kept capacity log a) : Kept capacity (log ++ [.closed]) { a with closed := true } := by
  have hu : units (log ++ [.closed]) = units log := by
    rw [units_append]
    exact List.append_nil _
  constructor
  · exact h.depth
  · rw [hu]
    exact h.cache
  · simp
  · rw [connected_frame rfl fun _ => rfl]
    exact h.connected
  · exact h.numbered_concat (Nat.le_refl _) nofun
  · exact fun id v hv => h.held_concat hv
  · intro before id after hs
    rcases split_snoc hs with ⟨-, -, he⟩ | ⟨rest, rfl, hl⟩
    · cases he
    · exact (h.seats before id rest hl).frame rfl nofun rfl rfl

/-- All this holds along every run. -/
theorem Runs.kept (h : Runs source capacity log a) : Kept capacity log a := by
  induction h with
  | none => exact .fresh
  | publish _ _ u ih => exact ih.publish u
  | join _ _ ih => exact ih.join
  | ask _ hv ih => exact ih.ask hv
  | leave _ hv ih => exact ih.leave hv
  | close _ _ ih => exact ih.close

/-- What an entry says of the hub before it. -/
def Audience.Tells (a : Audience) : Entry → Prop
  | .published u n => n = (a.hub.publish u).1
  | .joined id => id = a.hub.nextViewer ∧ a.closed = false
  | .asked id r => ∃ v, a.viewers.get? id = some v ∧ r = (a.hub.receive a.closed v).1
  | .left _ | .closed => True

/-- Before each entry stands a run that it continues. -/
theorem Runs.tells (h : Runs source capacity log b) {before after : List Entry} (hl : log = before ++ e :: after) :
    ∃ a, Runs source capacity before a ∧ a.Tells e := by
  induction h generalizing after with
  | none => simp at hl
  | publish h ho u ih =>
    rcases split_snoc hl with ⟨rfl, rfl, rfl⟩ | ⟨rest, rfl, hl'⟩
    · exact ⟨_, h, rfl⟩
    · exact ih hl'
  | join h ho ih =>
    rcases split_snoc hl with ⟨rfl, rfl, rfl⟩ | ⟨rest, rfl, hl'⟩
    · exact ⟨_, h, rfl, ho⟩
    · exact ih hl'
  | ask h hv ih =>
    rcases split_snoc hl with ⟨rfl, rfl, rfl⟩ | ⟨rest, rfl, hl'⟩
    · exact ⟨_, h, _, hv, rfl⟩
    · exact ih hl'
  | leave h hv ih =>
    rcases split_snoc hl with ⟨rfl, rfl, rfl⟩ | ⟨rest, rfl, hl'⟩
    · exact ⟨_, h, trivial⟩
    · exact ih hl'
  | close h ho ih =>
    rcases split_snoc hl with ⟨rfl, rfl, rfl⟩ | ⟨rest, rfl, hl'⟩
    · exact ⟨_, h, trivial⟩
    · exact ih hl'

/-- Before a viewer joins, nothing is about it, and the hub is open. -/
theorem Runs.before_joined {id : Nat} {before after : List Entry} (h : Runs source capacity log b)
    (hl : log = before ++ .joined id :: after) : (∀ e ∈ before, e.viewer? ≠ some id) ∧ Entry.closed ∉ before := by
  obtain ⟨a, ha, rfl, ho⟩ := h.tells hl
  refine ⟨fun e he hid => Nat.lt_irrefl _ (ha.kept.numbered e he _ hid), fun hm => ?_⟩
  rw [ha.kept.closed.mpr hm] at ho
  cases ho

/-- A viewer is answered by what was published and what it was answered since it joined. -/
theorem Runs.answered {id : Nat} {before since after : List Entry} {r : Received} (h : Runs source capacity log b)
    (hl : log = before ++ .joined id :: (since ++ .asked id r :: after)) :
    r = answer (roundUp (max capacity 1)) (catchupOf (units before)) (units since) (decide (.closed ∈ since))
      (answersTo id since) := by
  have hl' : log = (before ++ .joined id :: since) ++ .asked id r :: after := by
    rw [hl, List.append_assoc, List.cons_append]
  obtain ⟨a, ha, v, hv, rfl⟩ := h.tells hl'
  have hclosed : a.closed = decide (.closed ∈ since) := by
    have hc := ha.kept.closed
    have hb := (h.before_joined hl).2
    rw [Bool.eq_iff_iff, hc, decide_eq_true_eq]
    simp [hb]
  rw [← hclosed]
  exact ((ha.kept.seats before id since rfl).receive ha.kept.depth hv).1

/-- A unit goes to those who are connected. -/
theorem Runs.reached {u : StreamUnit} {n : Nat} {before after : List Entry} (h : Runs source capacity log b)
    (hl : log = before ++ .published u n :: after) : n = (connected before).length := by
  obtain ⟨a, ha, rfl⟩ := h.tells hl
  rw [publish_eq, ← ha.kept.connected, KeyMap.keys, List.length_map]
  rfl

/-! ## What concerns one viewer -/

/-- What can concern a viewer. -/
inductive Concern
  | published (u : StreamUnit)
  | asked
  | closed

/-- What concerns a viewer of an entry: of other viewers, nothing. -/
def Entry.concern? (id : Nat) : Entry → Option Concern
  | published u _ => some (.published u)
  | asked j _ => if j = id then some .asked else none
  | closed => some .closed
  | joined _ | left _ => none

/-- How a viewer stands from its own point of view: the units published since it joined, whether the hub is closed, and
the answers that it was given. -/
structure Story where
  units : List StreamUnit := []
  closed : Bool := false
  answers : List Received := []

/-- A viewer's story goes on. -/
def Story.step (depth : Nat) (catchup : List StreamUnit) (s : Story) : Concern → Story
  | .published u => { s with units := s.units ++ [u] }
  | .asked => { s with answers := s.answers ++ [answer depth catchup s.units s.closed s.answers] }
  | .closed => { s with closed := true }

/-- The story that a log tells. -/
def Story.of (id : Nat) (log : List Entry) : Story := ⟨Hub.units log, decide (.closed ∈ log), answersTo id log⟩

/-- One more entry continues a viewer's story by what concerns the viewer. -/
theorem Runs.story_concat {id : Nat} {before since after : List Entry} (h : Runs source capacity log b)
    (hl : log = before ++ .joined id :: (since ++ e :: after)) :
    (e.concern? id).toList.foldl (Story.step (roundUp (max capacity 1)) (catchupOf (units before))) (.of id since) =
      .of id (since ++ [e]) := by
  cases e with
  | published u n => simp [Entry.concern?, Story.step, Story.of, units, answersTo]
  | joined j => simp [Entry.concern?, Story.of, units, answersTo]
  | left j => simp [Entry.concern?, Story.of, units, answersTo]
  | closed => simp [Entry.concern?, Story.step, Story.of, units, answersTo]
  | asked j r =>
    rcases Decidable.em (j = id) with rfl | hne
    · have hr := h.answered hl
      simp only [Entry.concern?, if_pos, Option.toList_some, List.foldl_cons, List.foldl_nil, Story.step, Story.of, ← hr]
      simp [units, answersTo]
    · simp [Entry.concern?, hne, Story.of, units, answersTo]

/-- The rest of a log continues a viewer's story by what concerns the viewer. -/
theorem Runs.story_eq {id : Nat} {before since after : List Entry} (h : Runs source capacity log b)
    (hl : log = before ++ .joined id :: (since ++ after)) :
    (after.filterMap (Entry.concern? id)).foldl (Story.step (roundUp (max capacity 1)) (catchupOf (units before)))
      (.of id since) = .of id (since ++ after) := by
  induction after generalizing since with
  | nil => rw [List.append_nil]; rfl
  | cons e after ih =>
    have hl' : log = before ++ .joined id :: ((since ++ [e]) ++ after) := by
      rw [hl, List.append_assoc, List.singleton_append]
    have hone : (e :: after).filterMap (Entry.concern? id) =
        (e.concern? id).toList ++ after.filterMap (Entry.concern? id) := by
      rw [List.filterMap_cons]
      cases e.concern? id <;> rfl
    rw [hone, List.foldl_append, h.story_concat hl, ih hl', List.append_assoc, List.singleton_append]

/-- What viewers receive of a hub, whoever publishes, joins, asks and leaves, and in whatever order. The hub keeps as
many units for each viewer as the least power of two that is not below its capacity.

A viewer receives, each once and in this order, what there was to catch up with when it joined and then what is published.
Its story is determined by what is published, by when it asks and by when the hub is closed; other viewers have no part
in it. It is told that it fell behind exactly when nothing is left of its catch-up and more units are unread than are
kept, and then by how many; after that the hub is closed to it.

What is published goes to all who joined and neither left nor were disconnected. -/
theorem Runs.delivery (h : Runs source capacity log b) :
    ((roundUp (max capacity 1)).isPowerOfTwo ∧ max capacity 1 ≤ roundUp (max capacity 1) ∧
      ∀ m : Nat, m.isPowerOfTwo → max capacity 1 ≤ m → roundUp (max capacity 1) ≤ m) ∧
    (∀ before id after, log = before ++ .joined id :: after →
      answersTo id before = [] ∧
      unitsOf (answersTo id after) <+: catchupOf (units before) ++ units after ∧
      Story.of id after = (after.filterMap (Entry.concern? id)).foldl
        (Story.step (roundUp (max capacity 1)) (catchupOf (units before))) {} ∧
      ∀ since r later, after = since ++ .asked id r :: later →
        ((answersTo id since).any Received.isFailure = true → r = .failed .hubClosed) ∧
        ∀ n, r = .failed (.subscriberOverrun n) ↔
          (answersTo id since).any Received.isFailure = false ∧
          (catchupOf (units before)).length ≤ (unitsOf (answersTo id since)).length ∧
          roundUp (max capacity 1) < (unread id (catchupOf (units before)) since).length ∧
          n = (unread id (catchupOf (units before)) since).length - roundUp (max capacity 1)) ∧
    ∀ before u n after, log = before ++ .published u n :: after → n = (connected before).length := by
  refine ⟨roundUp_least _, fun before id after hl => ⟨?_, ?_, ?_, ?_⟩, fun before u n after hl => h.reached hl⟩
  · exact answersTo_eq_nil (h.before_joined hl).1
  · exact (h.kept.seats before id after hl).received
  · have hl' : log = before ++ .joined id :: ([] ++ after) := hl
    exact (h.story_eq hl').symm
  · rintro since r later rfl
    have hr := h.answered hl
    refine ⟨fun hf => hr.trans (answer_of_failed hf), fun n => ?_⟩
    rw [hr, answer_overrun_iff]
    refine and_congr_right fun _ => and_congr_right fun hg => ?_
    rw [Seat.length_unread hg]

/-- One viewer falls behind on a hub that keeps two units and is cut off; a second joins late and keeps up. -/
def twoViewers : List Entry :=
  [.published (.header [1]) 0, .joined 1, .published (.frame 0 [2] true) 1, .published (.frame 0 [3] false) 1,
    .published (.frame 0 [4] true) 1, .joined 2, .asked 1 (.unit (.header [1])),
    .asked 1 (.failed (.subscriberOverrun 1)), .asked 1 (.failed .hubClosed), .asked 2 (.unit (.header [1])),
    .published (.frame 0 [5] false) 1, .asked 2 (.unit (.frame 0 [4] true)), .asked 2 (.unit (.frame 0 [5] false)),
    .left 2, .closed]

theorem runs_twoViewers : ∃ log b, Runs "camera" 2 log b ∧ log = twoViewers := by
  have h : Runs "camera" 2 [] _ := .none
  have h := h.publish rfl (.header [1])
  have h := h.join rfl
  have h := h.publish rfl (.frame 0 [2] true)
  have h := h.publish rfl (.frame 0 [3] false)
  have h := h.publish rfl (.frame 0 [4] true)
  have h := h.join rfl
  have h := h.ask (show KeyMap.get? _ 1 = some ⟨1, "camera", [.header [1]]⟩ by decide +kernel)
  have h := h.ask (show KeyMap.get? _ 1 = some ⟨1, "camera", []⟩ by decide +kernel)
  have h := h.ask (show KeyMap.get? _ 1 = some ⟨1, "camera", []⟩ by decide +kernel)
  have h := h.ask (show KeyMap.get? _ 2 = some ⟨2, "camera", [.header [1], .frame 0 [4] true]⟩ by decide +kernel)
  have h := h.publish rfl (.frame 0 [5] false)
  have h := h.ask (show KeyMap.get? _ 2 = some ⟨2, "camera", [.frame 0 [4] true]⟩ by decide +kernel)
  have h := h.ask (show KeyMap.get? _ 2 = some ⟨2, "camera", []⟩ by decide +kernel)
  have h := h.leave (show KeyMap.get? _ 2 = some ⟨2, "camera", []⟩ by decide +kernel)
  have h := h.close rfl
  exact ⟨_, _, h, by decide +kernel⟩

/-- The first viewer gets its catch-up and no more than that; the second gets everything, in order. A unit that is
published in between goes to the second alone. -/
theorem delivery_to_two_viewers : ∃ b, Runs "camera" 2 twoViewers b ∧
    Story.of 1 (twoViewers.drop 2) = ((twoViewers.drop 2).filterMap (Entry.concern? 1)).foldl
      (Story.step 2 [.header [1]]) {} ∧
    1 = (unread 1 [.header [1]] ((twoViewers.drop 2).take 5)).length - 2 ∧
    unitsOf (answersTo 2 (twoViewers.drop 6)) <+: [.header [1], .frame 0 [4] true] ++ units (twoViewers.drop 6) ∧
    (connected (twoViewers.take 10)).length = 1 := by
  obtain ⟨log, b, h, rfl⟩ := runs_twoViewers
  obtain ⟨-, hviewer, hunit⟩ := h.delivery
  obtain ⟨-, -, hstory, hasked⟩ := hviewer (twoViewers.take 1) 1 (twoViewers.drop 2) rfl
  refine ⟨b, h, hstory, ?_, ?_, ?_⟩
  · exact (((hasked ((twoViewers.drop 2).take 5) _ (twoViewers.drop 8) rfl).2 1).mp rfl).2.2.2
  · exact (hviewer (twoViewers.take 5) 2 (twoViewers.drop 6) rfl).2.1
  · exact (hunit (twoViewers.take 10) (.frame 0 [5] false) 1 (twoViewers.drop 11) rfl).symm

end runs

end EncoderFleet.Hub
