import EncoderFleet.Data.KeyMap
import EncoderFleet.Failure
import EncoderFleet.Live.Unit

/-!
# The hub of a live stream

A `Hub` hands every unit that is published to every viewer, and never waits for any of them. It keeps the latest header,
decoder configuration and keyframe: a viewer who joins gets these first, as `catchup`, and then whatever is published
from that moment on. What is published waits for each viewer in a queue of its own. A viewer who has more units unread
than the queue holds is cut off, and told once how many are lost.
-/

namespace EncoderFleet

/-- The least power of two that is not below `n`. -/
def roundUp (n : Nat) : Nat :=
  let rec grow : Nat → Nat → Nat
    | 0, p => p
    | fuel + 1, p => if n ≤ p then p else grow fuel (2 * p)
  grow n 1

/-- What waits for one viewer. -/
structure Unread where
  /-- How many units are unread. -/
  count : Nat := 0
  /-- The latest of them, oldest first, as many as the hub keeps. -/
  queue : List StreamUnit := []
deriving DecidableEq

/-- A live stream. -/
structure Hub where
  source : String
  /-- How many units are kept for a viewer. -/
  depth : Nat
  header : Option StreamUnit := none
  config : Option StreamUnit := none
  keyframe : Option StreamUnit := none
  /-- How many units were published. -/
  published : Nat := 0
  /-- The number that the next viewer gets. -/
  nextViewer : Nat := 1
  /-- What waits for the viewers who are connected. -/
  viewers : KeyMap Nat Unread := {}

/-- A viewer's side of a hub: its number there, and what it has not yet received of its catch-up. -/
structure Viewer where
  id : Nat
  source : String
  catchup : List StreamUnit
deriving DecidableEq

/-- What a viewer gets who asks for a unit. -/
inductive Received
  | unit (u : StreamUnit)
  /-- Nothing waits. -/
  | nothing
  | failed (f : Failure)
deriving DecidableEq

namespace Unread

/-- One more unit to read; of a queue that is too long the oldest unit is lost. -/
def push (depth : Nat) (w : Unread) (u : StreamUnit) : Unread :=
  let queue := w.queue ++ [u]
  { count := w.count + 1, queue := queue.drop (queue.length - depth) }

end Unread

namespace Hub

/-- A hub that keeps at least `capacity` units for each viewer. -/
def new (source : String) (capacity : Nat) : Hub := { source := source, depth := roundUp (max capacity 1) }

/-- Keep a unit for viewers who join later, if it is of use to them. -/
def remember (h : Hub) (u : StreamUnit) : Hub :=
  match u.kind with
  | .header => { h with header := some u }
  | .config => { h with config := some u }
  | .frame => if u.isKeyframe then { h with keyframe := some u } else h

/-- How many viewers are connected. -/
def viewerCount (h : Hub) : Nat := h.viewers.entries.length

/-- Put a unit into every viewer's queue. -/
def deliver (h : Hub) (u : StreamUnit) : Hub :=
  { h with viewers := h.viewers.map fun w => w.push h.depth u }

/-- Publish a unit; answers how many viewers it goes to. -/
def publish (h : Hub) (u : StreamUnit) : Nat × Hub :=
  let h := { (h.remember u) with published := h.published + 1 }
  (h.viewerCount, h.deliver u)

/-- What a viewer gets first who joins now. -/
def catchup (h : Hub) : List StreamUnit := [h.header, h.config, h.keyframe].filterMap id

/-- Let a viewer in. -/
def subscribe (h : Hub) : Viewer × Hub :=
  (⟨h.nextViewer, h.source, h.catchup⟩,
    { h with nextViewer := h.nextViewer + 1, viewers := h.viewers.insert h.nextViewer {} })

/-- Let a viewer go. -/
def unsubscribe (h : Hub) (viewer : Nat) : Hub := { h with viewers := h.viewers.erase viewer }

/-- Take the next unit of a viewer's queue; `closed` when nothing more will ever be published. A viewer who is cut off,
or who has read a closed hub to its end, is disconnected. -/
def take (h : Hub) (closed : Bool) (viewer : Nat) : Received × Hub :=
  match h.viewers.get? viewer with
  | none => (.failed .hubClosed, h)
  | some w =>
    if h.depth < w.count then (.failed (.subscriberOverrun (w.count - h.depth)), h.unsubscribe viewer)
    else
      match w.queue with
      | u :: queue => (.unit u, { h with viewers := h.viewers.insert viewer ⟨w.count - 1, queue⟩ })
      | [] => if closed then (.failed .hubClosed, h.unsubscribe viewer) else (.nothing, h)

/-- Give a viewer its next unit: first its catch-up, then its queue. -/
def receive (h : Hub) (closed : Bool) (v : Viewer) : Received × Viewer × Hub :=
  match v.catchup with
  | u :: rest => (.unit u, { v with catchup := rest }, h)
  | [] => let r := h.take closed v.id; (r.1, v, r.2)

/-- Whether a viewer has nothing more to expect. -/
def isOver (h : Hub) (v : Viewer) : Bool := v.catchup.isEmpty && !h.viewers.contains v.id

end Hub

end EncoderFleet
