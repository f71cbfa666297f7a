/-!
# Finite maps that remember their order

A `KeyMap` is a list of entries with pairwise distinct keys. A new key goes to the end and an old one keeps its place,
so the order of `entries` is the order in which keys were first put. The laws below say what each operation does to
`get?`; nothing else is needed to reason about a map.
-/

namespace EncoderFleet

/-- A finite map as a list of entries, no key twice. -/
structure KeyMap (κ α : Type) where
  entries : List (κ × α) := []
  nodup : (entries.map Prod.fst).Nodup := by simp

namespace KeyMap

variable {κ α : Type}

instance : Inhabited (KeyMap κ α) := ⟨{}⟩

/-- The keys, in the order in which they were first put. -/
def keys (m : KeyMap κ α) : List κ := m.entries.map Prod.fst

/-- The values, in the order of their keys. -/
def values (m : KeyMap κ α) : List α := m.entries.map Prod.snd

private theorem map_fst_map {β : Type} (es : List (κ × α)) (f : α → β) :
    (es.map fun e => (e.1, f e.2)).map Prod.fst = es.map Prod.fst := by
  simp only [List.map_map]; rfl

/-- Change every value. -/
def map {β : Type} (m : KeyMap κ α) (f : α → β) : KeyMap κ β where
  entries := m.entries.map fun e => (e.1, f e.2)
  nodup := by rw [map_fst_map]; exact m.nodup

@[simp] theorem keys_map {β : Type} (m : KeyMap κ α) (f : α → β) : (m.map f).keys = m.keys :=
  map_fst_map m.entries f

section lookup

variable [DecidableEq κ]

/-- The value stored under a key. -/
def get? (m : KeyMap κ α) (k : κ) : Option α := m.entries.lookup k

/-- Whether the key is present. -/
def contains (m : KeyMap κ α) (k : κ) : Bool := (m.get? k).isSome

private theorem map_fst_replace (es : List (κ × α)) (k : κ) (a : α) :
    (es.map fun e => if e.1 = k then (k, a) else e).map Prod.fst = es.map Prod.fst := by
  simp only [List.map_map]
  refine List.map_congr_left fun e _ => ?_
  by_cases h : e.1 = k <;> simp [h]

omit [DecidableEq κ] in
private theorem nodup_append_new {es : List (κ × α)} {k : κ} (a : α) (hn : (es.map Prod.fst).Nodup)
    (hk : k ∉ es.map Prod.fst) : ((es ++ [(k, a)]).map Prod.fst).Nodup := by
  rw [List.map_append, List.nodup_append]
  refine ⟨hn, by simp, fun x hx y hy hxy => hk ?_⟩
  rw [List.map_cons, List.map_nil, List.mem_singleton] at hy
  rwa [hxy, hy] at hx

/-- Store a value: in place under an old key, at the end under a new one. -/
def insert (m : KeyMap κ α) (k : κ) (a : α) : KeyMap κ α :=
  if h : k ∈ m.keys then
    { entries := m.entries.map fun e => if e.1 = k then (k, a) else e
      nodup := by rw [map_fst_replace]; exact m.nodup }
  else
    { entries := m.entries ++ [(k, a)], nodup := nodup_append_new a m.nodup h }

/-- Forget a key. -/
def erase (m : KeyMap κ α) (k : κ) : KeyMap κ α where
  entries := m.entries.filter fun e => decide (e.1 ≠ k)
  nodup := m.nodup.sublist (List.Sublist.map _ List.filter_sublist)

private theorem lookup_cons (e : κ × α) (es : List (κ × α)) (k : κ) :
    (e :: es).lookup k = if k = e.1 then some e.2 else es.lookup k := by
  have h : (e :: es).lookup k = match k == e.1 with | true => some e.2 | false => es.lookup k := rfl
  rw [h]
  by_cases hk : k = e.1
  · rw [beq_iff_eq.mpr hk, if_pos hk]
  · rw [beq_eq_false_iff_ne.mpr hk, if_neg hk]

private theorem lookup_eq_none {es : List (κ × α)} {k : κ} : es.lookup k = none ↔ k ∉ es.map Prod.fst := by
  induction es with
  | nil => simp
  | cons e es ih =>
    rw [lookup_cons, List.map_cons, List.mem_cons]
    by_cases h : k = e.1
    · simp [h]
    · rw [if_neg h, ih]; simp [h]

private theorem lookup_append (es fs : List (κ × α)) (k : κ) :
    (es ++ fs).lookup k = (es.lookup k).or (fs.lookup k) := by
  induction es with
  | nil => simp
  | cons e es ih =>
    rw [List.cons_append, lookup_cons, lookup_cons, ih]
    by_cases h : k = e.1 <;> simp [h]

private theorem lookup_replace (es : List (κ × α)) (k j : κ) (a : α) :
    (es.map fun e => if e.1 = k then (k, a) else e).lookup j =
      if j = k then (if k ∈ es.map Prod.fst then some a else none) else es.lookup j := by
  induction es with
  | nil => simp
  | cons e es ih =>
    rw [List.map_cons, lookup_cons, ih, lookup_cons]
    simp only [List.map_cons, List.mem_cons]
    by_cases he : e.1 = k
    · by_cases hj : j = k
      · simp [he, hj]
      · simp [he, hj]
    · by_cases hj : j = k
      · subst hj
        have hne : ¬ j = e.1 := fun h => he h.symm
        by_cases hm : j ∈ es.map Prod.fst
        · simp only [he, hne, hm, if_true, if_false, or_true]
        · simp only [he, hne, hm, if_true, if_false, or_false]
      · simp [he, hj]

private theorem lookup_filter (es : List (κ × α)) (k j : κ) :
    (es.filter fun e => decide (e.1 ≠ k)).lookup j = if j = k then none else es.lookup j := by
  induction es with
  | nil => simp
  | cons e es ih =>
    rw [List.filter_cons, lookup_cons]
    by_cases he : e.1 = k
    · rw [if_neg (by simp [he]), ih]
      by_cases hj : j = k
      · simp [hj]
      · simp [hj, he]
    · rw [if_pos (by simp [he]), lookup_cons, ih]
      by_cases hj : j = k
      · subst hj; simp [Ne.symm he]
      · simp [hj]

@[simp] theorem get?_empty (k : κ) : ({} : KeyMap κ α).get? k = none := rfl

theorem get?_eq_none_iff {m : KeyMap κ α} {k : κ} : m.get? k = none ↔ k ∉ m.keys := lookup_eq_none

theorem contains_iff {m : KeyMap κ α} {k : κ} : m.contains k = true ↔ k ∈ m.keys := by
  rw [contains, Option.isSome_iff_ne_none, ne_eq, get?_eq_none_iff, Decidable.not_not]

/-- What a write does to a read. -/
theorem get?_insert (m : KeyMap κ α) (k j : κ) (a : α) :
    (m.insert k a).get? j = if j = k then some a else m.get? j := by
  unfold insert
  split
  · next h =>
    have h' : k ∈ m.entries.map Prod.fst := h
    simp only [get?, lookup_replace, if_pos h']
  · next h =>
    have h' : m.entries.lookup k = none := lookup_eq_none.mpr h
    by_cases hj : j = k
    · subst hj; simp [get?, lookup_append, h', lookup_cons]
    · simp [get?, lookup_append, lookup_cons, hj]

@[simp] theorem get?_insert_self (m : KeyMap κ α) (k : κ) (a : α) : (m.insert k a).get? k = some a := by
  simp [get?_insert]

theorem get?_insert_of_ne (m : KeyMap κ α) {k j : κ} (a : α) (h : j ≠ k) :
    (m.insert k a).get? j = m.get? j := by simp [get?_insert, h]

/-- What forgetting a key does to a read. -/
theorem get?_erase (m : KeyMap κ α) (k j : κ) : (m.erase k).get? j = if j = k then none else m.get? j :=
  lookup_filter m.entries k j

/-- What a change of every value does to a read. -/
theorem get?_map {β : Type} (m : KeyMap κ α) (f : α → β) (k : κ) : (m.map f).get? k = (m.get? k).map f := by
  obtain ⟨es, hn⟩ := m
  simp only [map, get?]
  clear hn
  induction es with
  | nil => rfl
  | cons e es ih =>
    rw [List.map_cons, lookup_cons, lookup_cons, ih]
    by_cases h : k = e.1 <;> simp [h]

/-- The keys after a write: unchanged, or with the new key at the end. -/
theorem keys_insert (m : KeyMap κ α) (k : κ) (a : α) :
    (m.insert k a).keys = if k ∈ m.keys then m.keys else m.keys ++ [k] := by
  unfold insert
  split
  · exact map_fst_replace m.entries k a
  · simp [keys]

/-- The keys after one is forgotten. -/
theorem keys_erase (m : KeyMap κ α) (k : κ) : (m.erase k).keys = m.keys.filter fun j => decide (j ≠ k) :=
  (List.filter_map (f := Prod.fst) (p := fun j => decide (j ≠ k)) (l := m.entries)).symm

end lookup

end KeyMap

end EncoderFleet
