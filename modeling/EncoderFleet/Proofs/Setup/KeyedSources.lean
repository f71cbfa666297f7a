import EncoderFleet.Data.KeyMap
import EncoderFleet.Proofs.Setup.Reloading
import Mathlib.Data.List.Induction

/-!
# Configured sources are a map that keeps its order

Whatever is done to the configured sources is done to a map beside them, in which a source stands under its folded id
(`Edit.onMap`). The map has the sources as its values, in their order, all along (`mirrors_after`), so looking up an id
is looking up its fold (`Mirrors.get?`), and no two ids have one fold (`Mirrors.distinct`).

What an upsert does is then said of the list itself: it puts the source where the one with its id stands
(`toList_upsert_of_old`), or at the end. Of a list of sources those are taken up before which none with the same id
stands (`toList_ofList`).
-/

namespace EncoderFleet

namespace Source

variable {s t : Source} {id : String}

theorem hasId_iff : s.hasId id = true ↔ Text.fold s.id = Text.fold id := Text.same_iff

end Source

namespace Sources

open Text (fold)

variable {ss : Sources} {m : KeyMap String Source} {s t : Source} {given front back : List Source} {id : String}

/-! ## Changes -/

/-- A change of the configured sources. -/
inductive Edit
  /-- The sources of a list come in place of all that there are. -/
  | replaceAll (given : List Source)
  /-- A source comes in place of the one with its id, or is new. -/
  | upsert (s : Source)

/-- The sources after a change. -/
def edit (ss : Sources) : Edit → Sources
  | .replaceAll given => ofList given
  | .upsert s => (ss.upsert s).1

/-- The sources after changes, from none; sources that are made of a list are none, replaced by the list. -/
def after (es : List Edit) : Sources := es.foldl edit {}

/-- A map with a source under its folded id, if nothing stands there. -/
def keepFirst (m : KeyMap String Source) (s : Source) : KeyMap String Source :=
  if m.contains (fold s.id) then m else m.insert (fold s.id) s

/-- The map by identity after a change. -/
def Edit.onMap (m : KeyMap String Source) : Edit → KeyMap String Source
  | replaceAll given => given.foldl keepFirst {}
  | upsert s => m.insert (fold s.id) s

/-- The map by identity after changes, from an empty one. -/
def mapAfter (es : List Edit) : KeyMap String Source := es.foldl Edit.onMap {}

/-! ## The map beside the sources -/

/-- A map has the sources as its values, in order, each under its folded id. -/
def Mirrors (m : KeyMap String Source) (ss : Sources) : Prop :=
  m.entries = ss.toList.map fun s => (fold s.id, s)

theorem Mirrors.keys (h : Mirrors m ss) : m.keys = ss.toList.map fun s => fold s.id := by
  rw [KeyMap.keys, h, List.map_map]
  rfl

/-- No two ids have one fold. -/
theorem Mirrors.distinct (h : Mirrors m ss) : ss.toList.Pairwise fun s t => fold s.id ≠ fold t.id := by
  have hnodup : m.keys.Nodup := m.nodup
  rw [h.keys, List.Nodup, List.pairwise_map] at hnodup
  exact hnodup

theorem Mirrors.contains_eq (h : Mirrors m ss) (id : String) :
    m.contains (fold id) = ss.toList.any fun t => t.hasId id := by
  rw [Bool.eq_iff_iff, KeyMap.contains_iff, h.keys, List.any_eq_true, List.mem_map]
  simp only [Source.hasId_iff]

/-- To look up an id is to look up its fold. -/
theorem Mirrors.get? (h : Mirrors m ss) (id : String) : ss.get? id = m.get? (fold id) := by
  rw [KeyMap.get?, h, Sources.get?]
  induction ss.toList with
  | nil => rfl
  | cons s ss ih =>
    rw [List.find?_cons, List.map_cons, List.lookup_cons, Source.hasId, Text.same, Bool.beq_comm, ih]

/-- The source that has the id is replaced where it stands, in the list as in the map. -/
theorem map_replaceFirst {ss : List Source} (hd : ss.Pairwise fun s t => fold s.id ≠ fold t.id) (s : Source) :
    (replaceFirst (fun t => t.hasId s.id) s ss).map (fun t => (fold t.id, t)) =
      (ss.map fun t => (fold t.id, t)).map fun e => if e.1 = fold s.id then (fold s.id, s) else e := by
  induction ss with
  | nil => rfl
  | cons t ts ih =>
    obtain ⟨ht, hts⟩ := List.pairwise_cons.mp hd
    by_cases hid : fold t.id = fold s.id
    · have hothers : ∀ u ∈ ts, fold u.id ≠ fold s.id := fun u hu hu' => ht u hu (hid.trans hu'.symm)
      have hkept : (ts.map fun t => (fold t.id, t)).map (fun e => if e.1 = fold s.id then (fold s.id, s) else e) =
          ts.map fun t => (fold t.id, t) := by
        rw [List.map_map]
        exact List.map_congr_left fun u hu => if_neg (hothers u hu)
      rw [replaceFirst, if_pos (Source.hasId_iff.mpr hid), List.map_cons, List.map_cons, List.map_cons, hkept,
        if_pos hid]
    · rw [replaceFirst, if_neg (mt Source.hasId_iff.mp hid), List.map_cons, List.map_cons, List.map_cons, ih hts,
        if_neg hid]

/-- An upsert is an insertion. -/
theorem Mirrors.upsert (h : Mirrors m ss) (s : Source) : Mirrors (m.insert (fold s.id) s) (ss.upsert s).1 := by
  have hcontains := h.contains_eq s.id
  unfold Mirrors Sources.upsert KeyMap.insert
  split
  · next hold =>
    rw [← hcontains, if_pos (KeyMap.contains_iff.mpr hold)]
    dsimp only
    rw [h, map_replaceFirst h.distinct]
  · next hnew =>
    rw [← hcontains, if_neg (mt KeyMap.contains_iff.mp hnew)]
    dsimp only
    rw [h, List.map_append, List.map_singleton]

theorem Mirrors.addNew (h : Mirrors m ss) (s : Source) : Mirrors (keepFirst m s) (ss.addNew s) := by
  have hcontains := h.contains_eq s.id
  unfold keepFirst Sources.addNew
  rw [← hcontains]
  split
  · exact h
  · next hnew =>
    have hupsert := h.upsert s
    rwa [Sources.upsert, ← hcontains, if_neg hnew] at hupsert

theorem Mirrors.foldl (h : Mirrors m ss) (given : List Source) :
    Mirrors (given.foldl keepFirst m) (given.foldl Sources.addNew ss) := by
  induction given generalizing m ss with
  | nil => exact h
  | cons s given ih => exact ih (h.addNew s)

theorem mirrors_empty : Mirrors {} {} := rfl

theorem Mirrors.edit (h : Mirrors m ss) (e : Edit) : Mirrors (e.onMap m) (ss.edit e) := by
  cases e with
  | replaceAll given => exact mirrors_empty.foldl given
  | upsert s => exact h.upsert s

/-- The map has the sources as its values all along. -/
theorem mirrors_after (es : List Edit) : Mirrors (mapAfter es) (after es) := by
  have hfoldl : ∀ {m : KeyMap String Source} {ss : Sources}, Mirrors m ss →
      Mirrors (es.foldl Edit.onMap m) (es.foldl Sources.edit ss) := by
    induction es with
    | nil => exact id
    | cons e es ih => exact fun h => ih (h.edit e)
  exact hfoldl mirrors_empty

/-! ## The list itself -/

section Distinct

variable (hd : ss.toList.Pairwise fun s t => fold s.id ≠ fold t.id)
include hd

/-- The source that an id finds is the one that has it. -/
theorem get?_eq_some_iff : ss.get? id = some s ↔ s ∈ ss.toList ∧ fold s.id = fold id := by
  constructor
  · intro h
    have hfound : ss.toList.find? (fun t => t.hasId id) = some s := h
    have hhas := List.find?_some hfound
    exact ⟨List.mem_of_find?_eq_some hfound, Source.hasId_iff.mp hhas⟩
  · rintro ⟨hs, hid⟩
    obtain ⟨front, back, hss⟩ := List.append_of_mem hs
    rw [hss, List.pairwise_append] at hd
    refine List.find?_eq_some_iff_append.mpr ⟨Source.hasId_iff.mpr hid, front, back, hss, fun t ht => ?_⟩
    rw [Bool.not_eq_true', Bool.eq_false_iff, ne_eq, Source.hasId_iff, ← hid]
    exact hd.2.2 t ht s List.mem_cons_self

theorem toList_upsert_of_old (hss : ss.toList = front ++ t :: back) (hid : fold t.id = fold s.id) :
    (ss.upsert s).1.toList = front ++ s :: back := by
  rw [hss, List.pairwise_append] at hd
  have hfront : ∀ u ∈ front, ¬ u.hasId s.id = true := fun u hu => by
    rw [Source.hasId_iff, ← hid]
    exact hd.2.2 u hu t List.mem_cons_self
  have hany : (ss.toList.any fun u => u.hasId s.id) = true :=
    List.any_eq_true.mpr ⟨t, hss ▸ List.mem_append_right _ List.mem_cons_self, Source.hasId_iff.mpr hid⟩
  rw [upsert, if_pos hany, hss]
  clear hd hany hss
  induction front with
  | nil => exact if_pos (Source.hasId_iff.mpr hid)
  | cons u front ih =>
    obtain ⟨hu, hfront⟩ := List.forall_mem_cons.mp hfront
    exact (if_neg hu).trans (congrArg (u :: ·) (ih hfront))

end Distinct

theorem upsert_replaced_iff : (ss.upsert s).2 = true ↔ ∃ t ∈ ss.toList, fold t.id = fold s.id := by
  have hany : (ss.toList.any fun t => t.hasId s.id) = true ↔ ∃ t ∈ ss.toList, fold t.id = fold s.id := by
    simp only [List.any_eq_true, Source.hasId_iff]
  rw [← hany, upsert]
  split
  · next h => exact iff_of_true rfl h
  · next h => exact iff_of_false Bool.false_ne_true h

theorem toList_upsert_of_new (h : (ss.upsert s).2 = false) : (ss.upsert s).1.toList = ss.toList ++ [s] := by
  unfold upsert at h ⊢
  split at h
  · cases h
  · next hnew => rw [if_neg hnew]

/-- The sources of a list before which none with the same id stands. -/
def firsts (given : List Source) : List Source :=
  (given.zipIdx.filter fun e => !(given.take e.2).any fun t => t.hasId e.1.id).map Prod.fst

theorem firsts_append_singleton (given : List Source) (s : Source) :
    firsts (given ++ [s]) = if given.any (fun t => t.hasId s.id) then firsts given else firsts given ++ [s] := by
  have hfront : (given.zipIdx.filter fun e => !((given ++ [s]).take e.2).any fun t => t.hasId e.1.id) =
      given.zipIdx.filter fun e => !(given.take e.2).any fun t => t.hasId e.1.id :=
    List.filter_congr fun e he => by
      rw [List.take_append_of_le_length (Nat.le_of_lt (List.snd_lt_of_mem_zipIdx he))]
  rw [firsts, List.zipIdx_append, List.filter_append, List.map_append, hfront, ← firsts]
  cases hold : given.any fun t => t.hasId s.id <;> simp [hold]

theorem ofList_append_singleton (given : List Source) (s : Source) :
    ofList (given ++ [s]) = (ofList given).addNew s := by
  rw [ofList, List.foldl_append, List.foldl_cons, List.foldl_nil, ofList]

/-- The ids that are taken up are those of the list. -/
theorem any_ofList (given : List Source) (id : String) :
    ((ofList given).toList.any fun t => t.hasId id) = given.any fun t => t.hasId id := by
  induction given using List.reverseRecOn with
  | nil => rfl
  | append_singleton given s ih =>
    rw [ofList_append_singleton, addNew, List.any_append, ← ih, List.any_cons, List.any_nil, Bool.or_false]
    split
    · next hold =>
      -- A source that is passed over has an id that was taken up already.
      obtain ⟨t, ht, hid⟩ := List.any_eq_true.mp hold
      cases hs : s.hasId id with
      | false => rw [Bool.or_false]
      | true =>
        rw [Bool.or_true, List.any_eq_true]
        exact ⟨t, ht, Source.hasId_iff.mpr ((Source.hasId_iff.mp hid).trans (Source.hasId_iff.mp hs))⟩
    · rw [List.any_append, List.any_cons, List.any_nil, Bool.or_false]

/-- Of a list of sources those are taken up before which none with the same id stands. -/
theorem toList_ofList (given : List Source) : (ofList given).toList = firsts given := by
  induction given using List.reverseRecOn with
  | nil => rfl
  | append_singleton given s ih =>
    rw [ofList_append_singleton, firsts_append_singleton, addNew, any_ofList, ← ih]
    split <;> rfl

/-! ## All together -/

/-- Whatever lists the configured sources are replaced by and whatever sources are upserted, in whatever order: they are
the values of a map by identity that has been changed alike and keeps its order. No two ids are equal but for case, and
an id finds the one source that has it. An upsert says whether there was one; it puts the source where that one stood,
or else at the end. Of a list in place of all, the first source of each id is taken up. Those that are switched on are
listed in the same order. -/
theorem keyed_by_identity (es : List Edit) :
    let ss := after es
    (mapAfter es).entries = ss.toList.map (fun s => (fold s.id, s)) ∧
      (∀ id, ss.get? id = (mapAfter es).get? (fold id)) ∧
      (ss.toList.Pairwise fun s t => fold s.id ≠ fold t.id) ∧
      (∀ id s, ss.get? id = some s ↔ s ∈ ss.toList ∧ fold s.id = fold id) ∧
      (∀ s, ((ss.upsert s).2 = true ↔ ∃ t ∈ ss.toList, fold t.id = fold s.id) ∧
        (∀ front t back, ss.toList = front ++ t :: back → fold t.id = fold s.id →
          (ss.edit (.upsert s)).toList = front ++ s :: back) ∧
        ((ss.upsert s).2 = false → (ss.edit (.upsert s)).toList = ss.toList ++ [s])) ∧
      (∀ given, (ss.edit (.replaceAll given)).toList = firsts given) ∧
      ss.enabled.Sublist ss.toList ∧ ∀ s, s ∈ ss.enabled ↔ s ∈ ss.toList ∧ s.enabled = true := by
  intro ss
  have hmirrors : Mirrors (mapAfter es) ss := mirrors_after es
  have hd := hmirrors.distinct
  refine ⟨hmirrors, hmirrors.get?, hd, fun id s => get?_eq_some_iff hd, fun s => ?_, toList_ofList,
    List.filter_sublist, fun s => List.mem_filter⟩
  exact ⟨upsert_replaced_iff, fun front t back hss hid => toList_upsert_of_old hd hss hid, toList_upsert_of_new⟩

/-- Three cameras, of which the last has the id of the first in other letters. -/
def threeCameras : List Source := [.new "b" .rtsp "rtsp://b", .new "a" .url "http://a", .new "B" .file "b.mp4"]

/-- The third camera is left out. Another one takes the place of the second, with its own spelling of the id, and one
with a new id comes last. -/
theorem keyed_cameras :
    let es : List Edit := [.replaceAll threeCameras, .upsert (.new "A" .device "/dev/video0")]
    let cam : Source := .new "C" .url "http://c"
    (after es).toList = [.new "b" .rtsp "rtsp://b", .new "A" .device "/dev/video0"] ∧
      (after es).get? "B" = some (.new "b" .rtsp "rtsp://b") ∧ ((after es).upsert cam).2 = false ∧
      ((after es).edit (.upsert cam)).toList = (after es).toList ++ [cam] := by
  intro es cam
  have hfirst : (after [.replaceAll threeCameras]).toList = firsts threeCameras :=
    (keyed_by_identity []).2.2.2.2.2.1 threeCameras
  have hsecond : (after es).toList = [.new "b" .rtsp "rtsp://b"] ++ .new "A" .device "/dev/video0" :: [] :=
    ((keyed_by_identity [.replaceAll threeCameras]).2.2.2.2.1 (.new "A" .device "/dev/video0")).2.1 _
      (.new "a" .url "http://a") _ (hfirst.trans (by decide)) (by decide)
  obtain ⟨-, -, -, hget, hupsert, -⟩ := keyed_by_identity es
  have hnew : ((after es).upsert cam).2 = false := by decide
  exact ⟨hsecond, (hget _ _).mpr ⟨hsecond ▸ List.mem_cons_self, by decide⟩, hnew, (hupsert cam).2.2 hnew⟩

end Sources

end EncoderFleet
