import EncoderFleet.Data.KeyMap
import Mathlib.Algebra.BigOperators.Group.List.Basic
import Mathlib.Algebra.GroupWithZero.Nat
import Mathlib.Data.List.Nodup

/-!
# Sums over the entries of a key map

`m.total w` adds up a weight over all entries. Forgetting a key takes its weight out (`total_erase`), a total depends on
what each key weighs only, so where one key changes the total follows it (`total_update`). A list of distinct keys that
weigh something is no longer than the total (`length_le_total`), and a list of distinct keys is as long as the number of
times its elements are met among the entries (`total_count`).
-/

namespace EncoderFleet.KeyMap

variable {κ α : Type}

/-- The sum of a weight over all entries. -/
def total (m : KeyMap κ α) (w : κ → α → Nat) : Nat := (m.entries.map fun e => w e.1 e.2).sum

theorem total_add (m : KeyMap κ α) (v w : κ → α → Nat) : (m.total fun k a => v k a + w k a) = m.total v + m.total w :=
  List.sum_map_add

variable [DecidableEq κ]

/-- What is stored under a key stands among the entries. -/
theorem mem_entries_iff {m : KeyMap κ α} {k : κ} {a : α} : (k, a) ∈ m.entries ↔ m.get? k = some a := by
  obtain ⟨es, hn⟩ := m
  simp only [get?]
  induction es with
  | nil => simp
  | cons e es ih =>
    obtain ⟨j, b⟩ := e
    rw [List.map_cons, List.nodup_cons] at hn
    by_cases h : k = j
    · subst h
      rw [List.lookup_cons_self, List.mem_cons, Prod.mk.injEq, Option.some.injEq]
      refine ⟨?_, fun h => Or.inl ⟨rfl, h.symm⟩⟩
      rintro (⟨-, h⟩ | h)
      · exact h.symm
      · exact absurd (List.mem_map.mpr ⟨(k, a), h, rfl⟩) hn.1
    · have hk : (k == j) = false := beq_eq_false_iff_ne.mpr h
      simp [List.lookup_cons, hk, h, ih hn.2]

theorem total_congr {m : KeyMap κ α} {v w : κ → α → Nat} (h : ∀ k a, m.get? k = some a → v k a = w k a) :
    m.total v = m.total w :=
  congrArg List.sum (List.map_congr_left fun e he => h e.1 e.2 (mem_entries_iff.mp he))

theorem total_eq_zero {m : KeyMap κ α} {w : κ → α → Nat} (h : ∀ k a, m.get? k = some a → w k a = 0) :
    m.total w = 0 := by
  rw [total_congr (w := fun _ _ => 0) h]
  simp [total]

/-- The weight of what is stored under a key. -/
def weight (m : KeyMap κ α) (w : κ → α → Nat) (k : κ) : Nat := ((m.get? k).map (w k)).getD 0

/-- Forgetting a key takes its weight out. -/
theorem total_erase (m : KeyMap κ α) (w : κ → α → Nat) (k : κ) : (m.erase k).total w + m.weight w k = m.total w := by
  obtain ⟨es, hn⟩ := m
  simp only [total, weight, erase, get?]
  induction es with
  | nil => simp
  | cons e es ih =>
    obtain ⟨j, b⟩ := e
    rw [List.map_cons, List.nodup_cons] at hn
    have ih := ih hn.2
    by_cases h : k = j
    · subst h
      have hf : (es.filter fun e => decide (e.1 ≠ k)) = es :=
        List.filter_eq_self.mpr fun e he => decide_eq_true fun hk => hn.1 (List.mem_map.mpr ⟨e, he, hk⟩)
      rw [List.filter_cons_of_neg (by simp), hf, List.lookup_cons_self, List.map_cons, List.sum_cons]
      exact Nat.add_comm _ _
    · have hk : (k == j) = false := beq_eq_false_iff_ne.mpr h
      rw [List.filter_cons_of_pos (by simpa using Ne.symm h), List.lookup_cons, hk, List.map_cons, List.map_cons,
        List.sum_cons, List.sum_cons, Nat.add_assoc, ih]

theorem weight_erase (m : KeyMap κ α) (w : κ → α → Nat) (k j : κ) :
    (m.erase k).weight w j = if j = k then 0 else m.weight w j := by
  unfold weight
  rw [get?_erase]
  split <;> rfl

theorem total_eq_zero_of_weight {m : KeyMap κ α} {w : κ → α → Nat} (h : ∀ k, m.weight w k = 0) : m.total w = 0 :=
  total_eq_zero fun k a ha => by simpa [weight, ha] using h k

/-- Key maps in which all keys weigh the same have the same total, whatever else they store. -/
theorem total_eq_of_weight {m n : KeyMap κ α} {w : κ → α → Nat} (h : ∀ k, n.weight w k = m.weight w k) :
    n.total w = m.total w := by
  induction ht : m.total w using Nat.strongRecOn generalizing m n with
  | ind t ih =>
    by_cases hz : ∀ k, m.weight w k = 0
    · rw [← ht, total_eq_zero_of_weight hz, total_eq_zero_of_weight fun k => (h k).trans (hz k)]
    · obtain ⟨k, hk⟩ := not_forall.mp hz
      have hm := total_erase m w k
      have hn := total_erase n w k
      have he : ∀ j, (n.erase k).weight w j = (m.erase k).weight w j := fun j => by
        rw [weight_erase, weight_erase, h]
      have := ih ((m.erase k).total w) (by omega) he rfl
      rw [h] at hn
      omega

/-- Where only one key weighs more or less than before, the total follows it. -/
theorem total_update {m n : KeyMap κ α} {w : κ → α → Nat} {k : κ} (h : ∀ j, j ≠ k → n.weight w j = m.weight w j) :
    n.total w + m.weight w k = m.total w + n.weight w k := by
  have he : (n.erase k).total w = (m.erase k).total w := total_eq_of_weight fun j => by
    rw [weight_erase, weight_erase]
    split
    · rfl
    · next hj => exact h j hj
  have hm := total_erase m w k
  have hn := total_erase n w k
  omega

/-- Distinct keys that weigh something are no more than the total. -/
theorem length_le_total {m : KeyMap κ α} {w : κ → α → Nat} {l : List κ} (hl : l.Nodup)
    (h : ∀ k ∈ l, 1 ≤ m.weight w k) : l.length ≤ m.total w := by
  induction l generalizing m with
  | nil => exact Nat.zero_le _
  | cons k l ih =>
    rw [List.nodup_cons] at hl
    have hrest : ∀ j ∈ l, 1 ≤ (m.erase k).weight w j := by
      intro j hj
      rw [weight_erase, if_neg]
      · exact h j (List.mem_cons_of_mem k hj)
      · rintro rfl
        exact hl.1 hj
    have hk := h k List.mem_cons_self
    have hle := ih hl.2 hrest
    have htotal := total_erase m w k
    rw [List.length_cons]
    omega

/-- Among entries that include all of them, distinct keys are met once each. -/
theorem total_count (m : KeyMap κ α) {p : α → Bool} {l : List κ} (hl : l.Nodup)
    (h : ∀ k ∈ l, ∃ a, m.get? k = some a ∧ p a = true) :
    (m.total fun k a => if p a then l.count k else 0) = l.length := by
  induction l with
  | nil => exact total_eq_zero fun k a _ => by simp
  | cons x l ih =>
    rw [List.nodup_cons] at hl
    obtain ⟨a, ha, hp⟩ := h x List.mem_cons_self
    have hone : (m.total fun k _ => if k = x then 1 else 0) = 1 := by
      have hz : (m.erase x).total (fun k _ => if k = x then 1 else 0) = 0 := total_eq_zero fun k b hb => by
        rw [get?_erase] at hb
        by_cases hk : k = x <;> simp_all
      have := total_erase m (fun k _ => if k = x then 1 else 0) x
      simp only [weight, ha, Option.map_some, Option.getD_some, if_true] at this
      omega
    have hsplit : (m.total fun k a => if p a then (x :: l).count k else 0) =
        m.total fun k a => (if p a then l.count k else 0) + if k = x then 1 else 0 :=
      total_congr fun k b hb => by
        by_cases hk : k = x
        · subst hk; rw [ha] at hb; cases hb; simp [hp]
        · simp [Ne.symm hk, hk]
    rw [hsplit, total_add, ih hl.2 fun k hk => h k (List.mem_cons_of_mem _ hk), hone, List.length_cons]

end EncoderFleet.KeyMap
