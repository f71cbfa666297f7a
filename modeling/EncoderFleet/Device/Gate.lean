/-!
# The gate before the capture device

A `Gate` lets a fixed number of holders in at once. Who finds it full takes a ticket and waits; a permit that is given
back goes to whoever has waited longest, and is theirs from that moment on, whether they have noticed or not. So a
permit is free, or granted to a ticket, or with a holder, and nobody overtakes a ticket that waits.
-/

namespace EncoderFleet

/-- The gate before the capture device. -/
structure Gate where
  /-- How many holders it lets in at once. -/
  capacity : Nat
  /-- How many permits are free. -/
  available : Nat
  /-- The tickets that wait, longest first. -/
  waiting : List Nat := []
  /-- The tickets that were granted a permit and have not taken it up. -/
  granted : List Nat := []
deriving DecidableEq

namespace Gate

/-- A gate with all permits free; it lets at least one holder in. -/
def new (capacity : Nat) : Gate := { capacity := max capacity 1, available := max capacity 1 }

/-- Take a permit that is free right now. -/
def tryAcquire (g : Gate) : Option Gate :=
  if 0 < g.available then some { g with available := g.available - 1 } else none

/-- Wait for a permit. -/
def enqueue (g : Gate) (ticket : Nat) : Gate := { g with waiting := g.waiting ++ [ticket] }

/-- Give a permit back. -/
def release (g : Gate) : Gate :=
  match g.waiting with
  | [] => { g with available := g.available + 1 }
  | t :: rest => { g with waiting := rest, granted := g.granted ++ [t] }

/-- Take up the permit that a ticket was granted. -/
def collect (g : Gate) (ticket : Nat) : Option Gate :=
  if ticket ∈ g.granted then some { g with granted := g.granted.erase ticket } else none

/-- Give up waiting; a permit already granted to the ticket goes back. -/
def withdraw (g : Gate) (ticket : Nat) : Gate :=
  if ticket ∈ g.granted then { g with granted := g.granted.erase ticket }.release
  else { g with waiting := g.waiting.erase ticket }

end Gate

end EncoderFleet
