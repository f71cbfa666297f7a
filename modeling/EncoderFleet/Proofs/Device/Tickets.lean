import EncoderFleet.Device.Gate
import Mathlib.Data.List.Nodup

/-!
# Permits at the gate

A permit that was granted to a ticket and not taken up is neither available nor with a holder; `Gate.free` counts it
with those that are available. Giving a permit back makes one more free, taking one up makes one less free, and waiting
or giving up changes nothing. `Gate.tickets` are the tickets that wait or were granted a permit: each operation keeps
them up to their order, or adds or removes the one ticket that it is about.

A gate is *orderly* while tickets wait only as long as no permit is free. Whoever takes a permit at an orderly gate and
gives it back leaves the gate as it was (`release_of_tryAcquire`), and so does whoever waits and gives up
(`withdraw_enqueue`).
-/

namespace EncoderFleet.Gate

/-- The permits that no holder has. -/
def free (g : Gate) : Nat := g.available + g.granted.length

/-- The tickets that wait for a permit or were granted one. -/
def tickets (g : Gate) : List Nat := g.waiting ++ g.granted

variable {g h : Gate} {ticket : Nat}

theorem capacity_release (g : Gate) : g.release.capacity = g.capacity := by
  unfold release
  split <;> rfl

theorem free_release (g : Gate) : g.release.free = g.free + 1 := by
  unfold release free
  split
  · exact Nat.add_right_comm _ _ _
  · rw [List.length_append]
    exact (Nat.add_assoc _ _ _).symm

theorem tickets_release (g : Gate) : g.release.tickets.Perm g.tickets := by
  unfold release tickets
  split
  · exact .refl _
  · next t rest hw =>
    rw [hw, ← List.append_assoc]
    exact (List.perm_append_singleton t (rest ++ g.granted)).trans (.refl _)

theorem tryAcquire_eq (h' : g.tryAcquire = some h) :
    h.capacity = g.capacity ∧ h.free + 1 = g.free ∧ h.tickets = g.tickets ∧ 0 < g.available := by
  unfold tryAcquire at h'
  split at h'
  · next ha =>
    cases h'
    refine ⟨rfl, ?_, rfl, ha⟩
    simp only [free]
    omega
  · cases h'

theorem free_enqueue (g : Gate) (ticket : Nat) : (g.enqueue ticket).free = g.free := rfl

theorem tickets_enqueue (g : Gate) (ticket : Nat) : (g.enqueue ticket).tickets.Perm (ticket :: g.tickets) := by
  unfold enqueue tickets
  rw [List.append_assoc]
  exact List.perm_middle

/-- Erasing a granted ticket from all tickets is erasing it from those granted. -/
theorem perm_erase_granted (hm : ticket ∈ g.granted) :
    (g.waiting ++ g.granted.erase ticket).Perm (g.tickets.erase ticket) := by
  have h₁ : (ticket :: (g.waiting ++ g.granted.erase ticket)).Perm g.tickets :=
    List.perm_middle.symm.trans ((List.perm_cons_erase hm).symm.append_left g.waiting)
  have h₂ := h₁.erase ticket
  rwa [List.erase_cons_head] at h₂

theorem collect_eq (hc : g.collect ticket = some h) :
    h.capacity = g.capacity ∧ h.free + 1 = g.free ∧ h.tickets.Perm (g.tickets.erase ticket) := by
  unfold collect at hc
  split at hc
  · next hm =>
    cases hc
    refine ⟨rfl, ?_, perm_erase_granted hm⟩
    have hl := List.length_erase_add_one hm
    simp only [free]
    omega
  · cases hc

theorem capacity_withdraw (g : Gate) (ticket : Nat) : (g.withdraw ticket).capacity = g.capacity := by
  unfold withdraw
  split
  · exact capacity_release _
  · rfl

theorem free_withdraw (g : Gate) (ticket : Nat) : (g.withdraw ticket).free = g.free := by
  unfold withdraw
  split
  · next hm =>
    have hl := List.length_erase_add_one hm
    rw [free_release]
    simp only [free]
    omega
  · rfl

theorem tickets_withdraw (g : Gate) (ticket : Nat) : (g.withdraw ticket).tickets.Perm (g.tickets.erase ticket) := by
  unfold withdraw
  split
  · next hm => exact (tickets_release _).trans (perm_erase_granted hm)
  · next hm =>
    rw [tickets, tickets]
    by_cases hw : ticket ∈ g.waiting
    · rw [List.erase_append_left _ hw]
    · rw [List.erase_of_not_mem hw, List.erase_of_not_mem (by simp [hw, hm])]

/-! ## Order at the gate -/

/-- Nobody waits while a permit is free. -/
def Orderly (g : Gate) : Prop := 0 < g.available → g.waiting = []

theorem Orderly.tryAcquire (ho : g.Orderly) (h' : g.tryAcquire = some h) : h.Orderly := by
  unfold Gate.tryAcquire at h'
  split at h'
  · next ha =>
    cases h'
    exact fun _ => ho ha
  · cases h'

theorem orderly_enqueue (h' : g.tryAcquire = none) (ticket : Nat) : (g.enqueue ticket).Orderly := by
  unfold Gate.tryAcquire at h'
  split at h'
  · cases h'
  · next ha => exact fun h => absurd h ha

theorem Orderly.release (ho : g.Orderly) : g.release.Orderly := by
  unfold Gate.release
  split
  · next hw => exact fun _ => hw
  · next t rest hw =>
    intro ha
    rw [ho ha] at hw
    cases hw

theorem Orderly.collect (ho : g.Orderly) (hc : g.collect ticket = some h) : h.Orderly := by
  unfold Gate.collect at hc
  split at hc
  · cases hc
    exact ho
  · cases hc

theorem Orderly.withdraw (ho : g.Orderly) (ticket : Nat) : (g.withdraw ticket).Orderly := by
  unfold Gate.withdraw
  split
  · exact Orderly.release (g := { g with granted := g.granted.erase ticket }) ho
  · intro ha
    show g.waiting.erase ticket = []
    rw [ho ha]
    rfl

/-- Giving back a permit that was free makes it free again: nobody waits for it. -/
theorem release_of_tryAcquire (ho : g.Orderly) (h' : g.tryAcquire = some h) : h.release = g := by
  unfold tryAcquire at h'
  split at h'
  · next ha =>
    cases h'
    have hw := ho ha
    have hn : g.available - 1 + 1 = g.available := Nat.sub_add_cancel ha
    simp only [release, hw, hn]
    rw [← hw]
  · cases h'

/-- A ticket that has just begun to wait was granted nothing. -/
theorem collect_enqueue (hn : ticket ∉ g.tickets) : (g.enqueue ticket).collect ticket = none :=
  if_neg fun hm => hn (List.mem_append_right _ hm)

/-- A ticket that gives up before it was granted a permit leaves no trace. -/
theorem withdraw_enqueue (hn : ticket ∉ g.tickets) : (g.enqueue ticket).withdraw ticket = g := by
  have hg : ticket ∉ g.granted := fun hm => hn (List.mem_append_right _ hm)
  have hw : ticket ∉ g.waiting := fun hm => hn (List.mem_append_left _ hm)
  have he : (g.waiting ++ [ticket]).erase ticket = g.waiting := by
    rw [List.erase_append_right _ hw]
    simp
  unfold withdraw enqueue
  rw [if_neg hg, he]

end EncoderFleet.Gate
