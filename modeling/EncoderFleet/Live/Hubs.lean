import EncoderFleet.Live.Hub
import EncoderFleet.Text.Identity

/-!
# The hubs of all sources

Each source has at most one hub that is registered under its id. A hub comes into being when it is first asked for, and
a source that starts anew gets a new one. A hub that is no longer registered lives on for those who hold it; when nobody
does, it is closed, and its viewers read their queues to the end.

Hubs are numbered in the order in which they came into being and are never forgotten, so a number names one hub for
ever.
-/

namespace EncoderFleet

/-- All hubs. -/
structure Hubs where
  /-- How many units a hub keeps for each viewer. -/
  capacity : Nat
  /-- All hubs that ever were, by number. -/
  all : List Hub := []
  /-- The hub registered for each source, by the identity of the source. -/
  registered : KeyMap String Nat := {}
  /-- The hubs that are held outside of the register, each as often as it is held. -/
  held : List Nat := []

/-- A viewer of a numbered hub. -/
structure Subscription where
  hub : Nat
  viewer : Viewer
deriving DecidableEq

/-- What a hub reports on itself. -/
structure HubStats where
  source : String
  hasHeader : Bool
  hasConfig : Bool
  hasKeyframe : Bool
  viewers : Nat
  published : Nat
deriving DecidableEq

/-- The report on a hub. -/
def Hub.stats (h : Hub) : HubStats where
  source := h.source
  hasHeader := h.header.isSome
  hasConfig := h.config.isSome
  hasKeyframe := h.keyframe.isSome
  viewers := h.viewerCount
  published := h.published

namespace Hubs

/-- The hub with a number. -/
def hub? (hs : Hubs) (n : Nat) : Option Hub := hs.all[n]?

/-- The hub with a number; an empty one for a number that no hub has. -/
def hub (hs : Hubs) (n : Nat) : Hub := (hs.hub? n).getD (.new "" 1)

/-- Put a hub in the place of the one with its number. -/
def put (hs : Hubs) (n : Nat) (h : Hub) : Hubs := { hs with all := hs.all.set n h }

/-- The number of the hub registered for a source. -/
def get? (hs : Hubs) (source : String) : Option Nat := hs.registered.get? (Text.fold source)

/-- Register a new hub for a source, in the place of any other. -/
def reset (hs : Hubs) (source : String) : Nat × Hubs :=
  (hs.all.length, { hs with
    all := hs.all ++ [.new source hs.capacity]
    registered := hs.registered.insert (Text.fold source) hs.all.length })

/-- The hub registered for a source, made now if there is none. -/
def getOrCreate (hs : Hubs) (source : String) : Nat × Hubs :=
  match hs.get? source with
  | some n => (n, hs)
  | none => hs.reset source

/-- Take the hub of a source out of the register. -/
def remove (hs : Hubs) (source : String) : Hubs := { hs with registered := hs.registered.erase (Text.fold source) }

/-- Hold a hub. -/
def hold (hs : Hubs) (n : Nat) : Hubs := { hs with held := n :: hs.held }

/-- Let go of a hub that was held. -/
def release (hs : Hubs) (n : Nat) : Hubs := { hs with held := hs.held.erase n }

/-- Whether nobody can publish to the hub any more. -/
def isClosed (hs : Hubs) (n : Nat) : Bool := !hs.registered.values.contains n && !hs.held.contains n

/-- Publish a unit to a hub; answers how many viewers it goes to. -/
def publish (hs : Hubs) (n : Nat) (u : StreamUnit) : Nat × Hubs :=
  let r := (hs.hub n).publish u
  (r.1, hs.put n r.2)

/-- Join a hub. -/
def join (hs : Hubs) (n : Nat) : Subscription × Hubs :=
  let r := (hs.hub n).subscribe
  (⟨n, r.1⟩, hs.put n r.2)

/-- Join the live stream of a source. -/
def subscribe (hs : Hubs) (source : String) : Subscription × Hubs :=
  let r := hs.getOrCreate source
  r.2.join r.1

/-- Leave a hub. -/
def unsubscribe (hs : Hubs) (s : Subscription) : Hubs := hs.put s.hub ((hs.hub s.hub).unsubscribe s.viewer.id)

/-- Give a subscription its next unit. -/
def receive (hs : Hubs) (s : Subscription) : Received × Subscription × Hubs :=
  let r := (hs.hub s.hub).receive (hs.isClosed s.hub) s.viewer
  (r.1, { s with viewer := r.2.1 }, hs.put s.hub r.2.2)

/-- How many units wait for a subscription. -/
def waiting (hs : Hubs) (s : Subscription) : Nat :=
  s.viewer.catchup.length + (((hs.hub s.hub).viewers.get? s.viewer.id).map fun w => w.queue.length).getD 0

/-- Give a subscription units until none waits or one fails, at most `fuel` of them. -/
def receiveWithin : Nat → Hubs → Subscription → List StreamUnit × Option Failure × Subscription × Hubs
  | 0, hs, s => ([], none, s, hs)
  | fuel + 1, hs, s =>
    match hs.receive s with
    | (.unit u, s, hs) => let r := receiveWithin fuel hs s; (u :: r.1, r.2)
    | (.nothing, s, hs) => ([], none, s, hs)
    | (.failed f, s, hs) => ([], some f, s, hs)

/-- Give a subscription all units that wait for it; why there will be no more, if that is so. -/
def receiveAll (hs : Hubs) (s : Subscription) : List StreamUnit × Option Failure × Subscription × Hubs :=
  receiveWithin (hs.waiting s + 1) hs s

/-- Whether a subscription has nothing more to expect. -/
def isOver (hs : Hubs) (s : Subscription) : Bool := (hs.hub s.hub).isOver s.viewer

/-- The report on the hub of a source. -/
def stats? (hs : Hubs) (source : String) : Option HubStats := ((hs.get? source).bind hs.hub?).map Hub.stats

/-- The reports on all registered hubs, by the ids of their sources. -/
def allStats (hs : Hubs) : List HubStats :=
  ((hs.registered.values.filterMap hs.hub?).map Hub.stats).mergeSort fun a b => !decide (b.source < a.source)

end Hubs

end EncoderFleet
