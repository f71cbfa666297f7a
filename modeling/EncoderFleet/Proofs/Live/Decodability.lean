import EncoderFleet.Proofs.Flv.Cuts
import EncoderFleet.Proofs.Live.Delivery
import Mathlib.Data.List.Induction

/-!
# Whether a viewer can start from what it catches up with

A hub keeps the latest decoder configuration and the latest keyframe, each for itself. A viewer who is given both can
start from them when the keyframe came after the configuration and shows a picture (`StartsFrom`). Of which element of
the stream the kept units are is said by `LatestAt`, and `latest?_eq_some` ties it to the cache of the hub.

A prefix of a stream ends right behind any of its elements. So viewers can start at every moment exactly when, element
by element, no configuration follows a keyframe and no keyframe that follows a configuration ends the stream
(`startsFrom_iff_pairwise`, `catchup_decodable_iff`). An encoder that ends its stream, or configures the decoder anew,
breaks this (`catchup_not_decodable`).
-/

namespace EncoderFleet

namespace Flv.Event

/-! ## Elements that a hub keeps -/

/-- Whether the element configures a video decoder. -/
def isConfiguration : Event → Bool
  | header _ => false
  | tag t _ => t.isConfiguration

/-- Whether the element is kept as a keyframe. -/
def isKeyframe : Event → Bool
  | header _ => false
  | tag t _ => !t.isConfiguration && t.isKeyframe

/-- Whether the element shows a picture, as far as its kind of packet says: it does not configure the decoder, and does
not end the sequence. -/
def isPicture : Event → Bool
  | header _ => false
  | tag t _ => t.video?.any fun h => h.packet != some 0 && h.packet != some 2

theorem isConfiguration_iff (e : Event) : (Decoder.unitOf e).kind = .config ↔ e.isConfiguration = true := by
  cases e with
  | header wire => simp [Decoder.unitOf, StreamUnit.header, isConfiguration]
  | tag t wire =>
    cases h : t.isConfiguration <;>
      simp [Decoder.unitOf, StreamUnit.ofTag, StreamUnit.config, StreamUnit.frame, isConfiguration, h]

theorem isKeyframe_iff (e : Event) :
    (Decoder.unitOf e).kind = .frame ∧ (Decoder.unitOf e).isKeyframe = true ↔ e.isKeyframe = true := by
  cases e with
  | header wire => simp [Decoder.unitOf, StreamUnit.header, isKeyframe]
  | tag t wire =>
    cases h : t.isConfiguration <;>
      simp [Decoder.unitOf, StreamUnit.ofTag, StreamUnit.config, StreamUnit.frame, isKeyframe, h]

theorem not_isConfiguration {e : Event} (h : e.isKeyframe = true) : e.isConfiguration = false := by
  cases e with
  | header wire => rfl
  | tag t wire =>
    have hnot : (!t.isConfiguration) = true := (Bool.and_eq_true_iff.mp h).1
    simpa [isConfiguration] using hnot

end Flv.Event

open Flv (Event)

/-! ## The latest element of a sort -/

/-- The latest element of a sort, and its place. -/
structure LatestAt (p : Event → Bool) (es : List Event) (i : Nat) (e : Event) : Prop where
  place : es[i]? = some e
  sort : p e = true
  last {j : Nat} {x : Event} (hj : i < j) (hx : es[j]? = some x) : p x = false

section latest

variable {p : Event → Bool} {es : List Event} {i : Nat} {e : Event}

/-- Where one element of a sort is, there is a latest one. -/
theorem exists_latestAt {i : Nat} {e : Event} (hx : es[i]? = some e) (hp : p e = true) :
    ∃ j x, i ≤ j ∧ LatestAt p es j x := by
  by_cases hlater : ∃ j x, i < j ∧ es[j]? = some x ∧ p x = true
  · obtain ⟨j, x, hj, hx', hp'⟩ := hlater
    have hlt : j < es.length := (List.getElem?_eq_some_iff.mp hx').1
    obtain ⟨k, y, hk, hy⟩ := exists_latestAt hx' hp'
    exact ⟨k, y, by omega, hy⟩
  · refine ⟨i, e, Nat.le_refl i, hx, hp, fun {j x} hj hx' => ?_⟩
    exact Bool.eq_false_iff.mpr fun hp' => hlater ⟨j, x, hj, hx', hp'⟩
termination_by es.length - i

/-- The hub keeps the unit of the latest element of a sort. -/
theorem latest?_eq_some {q : StreamUnit → Bool} (hq : ∀ e, q (Decoder.unitOf e) = p e) (h : LatestAt p es i e) :
    Hub.latest? q (es.map Decoder.unitOf) = some (Decoder.unitOf e) := by
  obtain ⟨hi, he⟩ := List.getElem?_eq_some_iff.mp h.place
  have hsplit : es = es.take i ++ e :: es.drop (i + 1) := by
    rw [← he, List.getElem_cons_drop, List.take_append_drop]
  have hrest : (es.drop (i + 1)).filter (q ∘ Decoder.unitOf) = [] := by
    refine List.filter_eq_nil_iff.mpr fun x hx => ?_
    obtain ⟨k, hk⟩ := List.mem_iff_getElem?.mp hx
    rw [List.getElem?_drop] at hk
    rw [Function.comp_apply, hq, h.last (by omega) hk]
    exact Bool.false_ne_true
  have hthis : (q ∘ Decoder.unitOf) e = true := (hq e).trans h.sort
  rw [Hub.latest?, List.filter_map, hsplit, List.filter_append, List.filter_cons_of_pos hthis, hrest]
  simp

/-- What the hub keeps of a sort is the unit of the latest element of that sort. -/
theorem exists_of_latest? {q : StreamUnit → Bool} (hq : ∀ e, q (Decoder.unitOf e) = p e) {u : StreamUnit}
    (h : Hub.latest? q (es.map Decoder.unitOf) = some u) : ∃ i e, LatestAt p es i e ∧ Decoder.unitOf e = u := by
  have hmem : u ∈ (es.map Decoder.unitOf).filter q := List.mem_of_getLast? h
  obtain ⟨hu, hqu⟩ := List.mem_filter.mp hmem
  obtain ⟨x, hx, rfl⟩ := List.mem_map.mp hu
  obtain ⟨i, hi⟩ := List.mem_iff_getElem?.mp hx
  obtain ⟨j, e, -, hlatest⟩ := exists_latestAt hi ((hq x).symm.trans hqu)
  rw [latest?_eq_some hq hlatest, Option.some.injEq] at h
  exact ⟨j, e, hlatest, h⟩

end latest

/-! ## Starting from a configuration and a keyframe -/

/-- These units are those of the latest configuration and of the latest keyframe, and a decoder that is given the
configuration can start from the keyframe: it came later, and shows a picture. -/
def StartsFrom (es : List Event) (config keyframe : StreamUnit) : Prop :=
  ∃ i c j k, LatestAt Event.isConfiguration es i c ∧ LatestAt Event.isKeyframe es j k ∧
    Decoder.unitOf c = config ∧ Decoder.unitOf k = keyframe ∧ i < j ∧ k.isPicture = true

/-- No configuration follows a keyframe, and each keyframe that follows a configuration shows a picture. -/
def InOrder (x y : Event) : Prop :=
  (x.isKeyframe = true → y.isConfiguration = false) ∧
    (x.isConfiguration = true → y.isKeyframe = true → y.isPicture = true)

instance : DecidableRel InOrder := fun x y => by unfold InOrder; infer_instance

section order

variable {es : List Event} {i j : Nat} {c k : Event}

theorem LatestAt.unique {p : Event → Bool} {e x : Event} (h : LatestAt p es i e) (h' : LatestAt p es j x) :
    i = j ∧ e = x := by
  have hij : i = j := by
    rcases Nat.lt_trichotomy i j with hlt | heq | hlt
    · exact absurd h'.sort (by rw [h.last hlt h'.place]; decide)
    · exact heq
    · exact absurd h.sort (by rw [h'.last hlt h.place]; decide)
  subst hij
  exact ⟨rfl, Option.some.inj (h.place.symm.trans h'.place)⟩

/-- Where all elements are in order, a decoder can start from the latest of both sorts. -/
theorem lt_of_inOrder (h : es.Pairwise InOrder) (hc : LatestAt Event.isConfiguration es i c)
    (hk : LatestAt Event.isKeyframe es j k) : i < j ∧ k.isPicture = true := by
  obtain ⟨hi, rfl⟩ := List.getElem?_eq_some_iff.mp hc.place
  obtain ⟨hj, rfl⟩ := List.getElem?_eq_some_iff.mp hk.place
  have hall := List.pairwise_iff_getElem.mp h
  have hlt : i < j := by
    rcases Nat.lt_trichotomy i j with hlt | rfl | hlt
    · exact hlt
    · exact absurd hc.sort (by rw [Event.not_isConfiguration hk.sort]; decide)
    · exact absurd hc.sort (by rw [(hall j i hj hi hlt).1 hk.sort]; decide)
  exact ⟨hlt, (hall i j hi hj hlt).2 hc.sort hk.sort⟩

/-- A decoder can start at every moment, whenever both are there, exactly if all elements are in order. -/
theorem startsFrom_iff_pairwise (es : List Event) :
    (∀ n i c j k, LatestAt Event.isConfiguration (es.take n) i c → LatestAt Event.isKeyframe (es.take n) j k →
      i < j ∧ k.isPicture = true) ↔ es.Pairwise InOrder := by
  refine ⟨fun h => List.pairwise_iff_getElem.mpr fun i j hi hj hij => ?_, fun h n i c j k hc hk => ?_⟩
  · -- the moment right behind the later of both
    have hx : (es.take (j + 1))[i]? = some es[i] := by
      rw [List.getElem?_take_of_lt (by omega), List.getElem?_eq_getElem hi]
    have hy : (es.take (j + 1))[j]? = some es[j] := by
      rw [List.getElem?_take_of_lt (by omega), List.getElem?_eq_getElem hj]
    have hlatest {p : Event → Bool} (hp : p es[j] = true) : LatestAt p (es.take (j + 1)) j es[j] := by
      refine ⟨hy, hp, fun {m x} hm hmx => ?_⟩
      rw [List.getElem?_eq_none (by rw [List.length_take]; omega)] at hmx
      cases hmx
    refine ⟨fun hk => Bool.eq_false_iff.mpr fun hc => ?_, fun hc hk => ?_⟩
    · obtain ⟨m, k, -, hmk⟩ := exists_latestAt hx hk
      have hm := (List.getElem?_eq_some_iff.mp hmk.place).1
      rw [List.length_take] at hm
      have := (h _ _ _ _ _ (hlatest hc) hmk).1
      omega
    · obtain ⟨m, c, -, hmc⟩ := exists_latestAt hx hc
      exact (h _ _ _ _ _ hmc (hlatest hk)).2
  · exact lt_of_inOrder (h.sublist (List.take_sublist n es)) hc hk

end order

/-! ## What viewers of a decoded stream catch up with -/

namespace Decoder

/-- The elements of a stream. -/
def elements (limit : Nat) (bs : Bytes) : List Event := (Flv.Demuxer.push { limit } bs).drain.1

/-- Chunks yield the units of the elements of the whole stream. -/
theorem feedAll_elements (limit : Nat) (chunks : List (Nat × Bytes)) :
    ((Decoder.flv { limit } false).feedAll chunks).1 = (elements limit (bytesOf chunks)).map unitOf := by
  have hempty : ({ limit } : Flv.Demuxer).drain = ([], none, { limit }) := Flv.Demuxer.drain_of_waiting rfl
  obtain ⟨d, hd, -⟩ := feedAll_eq hempty chunks
  rw [hd]
  rfl

end Decoder

namespace Hub

variable {source : String} {capacity : Nat} {log : List Entry} {a : Audience}

/-- Any units can be published to a new hub. -/
theorem exists_publishing (source : String) (capacity : Nat) (us : List StreamUnit) :
    ∃ log a, Runs source capacity log a ∧ a.closed = false ∧ units log = us := by
  induction us using List.reverseRecOn with
  | nil => exact ⟨[], _, .none, rfl, rfl⟩
  | append_singleton us u ih =>
    obtain ⟨log, a, hrun, hopen, hunits⟩ := ih
    exact ⟨_, _, hrun.publish hopen u, hopen, by rw [units_append, hunits]; rfl⟩

theorem of_latest? {p : StreamUnit → Bool} {us : List StreamUnit} {u : StreamUnit} (h : latest? p us = some u) :
    p u = true :=
  (List.mem_filter.mp (List.mem_of_getLast? h)).2

/-- The configuration and the keyframe that a viewer catches up with are the latest that were published. -/
theorem latest?_of_mem_catchup (h : Runs source capacity log a) {u : StreamUnit} (hu : u ∈ a.hub.catchup) :
    (u.kind = .config → latest? (fun u => u.kind = .config) (units log) = some u) ∧
      (u.kind = .frame → latest? (fun u => u.kind = .frame ∧ u.isKeyframe) (units log) = some u) := by
  have hmem : some u ∈ [a.hub.header, a.hub.config, a.hub.keyframe] := by simpa [catchup] using hu
  obtain ⟨hheader, hconfig, hkeyframe⟩ := h.kept.cache
  simp only [List.mem_cons, List.not_mem_nil, or_false] at hmem
  rcases hmem with hu | hu | hu
  · have hkind : u.kind = .header := by simpa using of_latest? (hheader.symm.trans hu.symm)
    simp [hkind]
  · have hkind : u.kind = .config := by simpa using of_latest? (hconfig.symm.trans hu.symm)
    exact ⟨fun _ => hconfig.symm.trans hu.symm, fun hframe => absurd (hkind.symm.trans hframe) (by decide)⟩
  · have hsort : u.kind = .frame ∧ u.isKeyframe = true := by simpa using of_latest? (hkeyframe.symm.trans hu.symm)
    exact ⟨fun hc => absurd (hsort.1.symm.trans hc) (by decide), fun _ => hkeyframe.symm.trans hu.symm⟩

end Hub

/-! ## The law, and what breaks it -/

section decodable

variable {limit capacity : Nat} {source : String} {chunks : List (Nat × Bytes)}

/-- Of the viewers who join a hub, to which a stream that is cut into these chunks is published as far as it has come,
each can start from the configuration and the keyframe that it catches up with, if it catches up with both. -/
def CatchupDecodable (limit capacity : Nat) (source : String) (chunks : List (Nat × Bytes)) : Prop :=
  ∀ log a, Hub.Runs source capacity log a → a.closed = false →
    Hub.units log <+: ((Decoder.flv { limit } false).feedAll chunks).1 →
    ∀ c ∈ a.hub.subscribe.1.catchup, ∀ k ∈ a.hub.subscribe.1.catchup, c.kind = .config → k.kind = .frame →
      StartsFrom ((Decoder.elements limit (Decoder.bytesOf chunks)).take (Hub.units log).length) c k

theorem configures_eq (e : Event) : decide ((Decoder.unitOf e).kind = .config) = e.isConfiguration := by
  rw [Bool.eq_iff_iff, decide_eq_true_eq, Event.isConfiguration_iff]

theorem keyframe_eq (e : Event) :
    decide ((Decoder.unitOf e).kind = .frame ∧ (Decoder.unitOf e).isKeyframe = true) = e.isKeyframe := by
  rw [Bool.eq_iff_iff, decide_eq_true_eq, Event.isKeyframe_iff]

/-- Who catches up with a stream in order can start. -/
theorem catchupDecodable_of_inOrder
    (h : (Decoder.elements limit (Decoder.bytesOf chunks)).Pairwise InOrder) :
    CatchupDecodable limit capacity source chunks := by
  intro log a hrun hopen hpre c hc k hk hkc hkk
  rw [Decoder.feedAll_elements] at hpre
  generalize Decoder.elements limit (Decoder.bytesOf chunks) = es at h hpre ⊢
  have htake : Hub.units log = (es.take (Hub.units log).length).map Decoder.unitOf := by
    rw [List.map_take]
    exact List.prefix_iff_eq_take.mp hpre
  have hlc := (Hub.latest?_of_mem_catchup hrun hc).1 hkc
  have hlk := (Hub.latest?_of_mem_catchup hrun hk).2 hkk
  rw [htake] at hlc hlk
  obtain ⟨i, x, hx, hux⟩ := exists_of_latest? configures_eq hlc
  obtain ⟨j, y, hy, huy⟩ := exists_of_latest? keyframe_eq hlk
  exact ⟨i, x, j, y, hx, hy, hux, huy, (startsFrom_iff_pairwise es).mpr h _ i x j y hx hy⟩

/-- Where each viewer who joins can start, the stream is in order: a viewer could join right behind any element. -/
theorem inOrder_of_catchupDecodable (h : CatchupDecodable limit capacity source chunks) :
    (Decoder.elements limit (Decoder.bytesOf chunks)).Pairwise InOrder := by
  unfold CatchupDecodable at h
  rw [Decoder.feedAll_elements] at h
  generalize Decoder.elements limit (Decoder.bytesOf chunks) = es at h ⊢
  refine (startsFrom_iff_pairwise es).mp fun n i c j k hc hk => ?_
  obtain ⟨log, a, hrun, hopen, hunits⟩ := Hub.exists_publishing source capacity ((es.take n).map Decoder.unitOf)
  have htake : es.take (Hub.units log).length = es.take n := by
    rw [hunits, List.length_map, List.length_take, ← List.take_take, List.take_length]
  have hpre : Hub.units log <+: es.map Decoder.unitOf := by
    rw [hunits, List.map_take]
    exact List.take_prefix _ _
  obtain ⟨-, hcc, hck⟩ := hrun.kept.cache
  rw [hunits, latest?_eq_some configures_eq hc] at hcc
  rw [hunits, latest?_eq_some keyframe_eq hk] at hck
  have hcm : Decoder.unitOf c ∈ a.hub.subscribe.1.catchup := by simp [Hub.subscribe, Hub.catchup, hcc]
  have hkm : Decoder.unitOf k ∈ a.hub.subscribe.1.catchup := by simp [Hub.subscribe, Hub.catchup, hck]
  have hkc := c.isConfiguration_iff.mpr hc.sort
  have hkk := (k.isKeyframe_iff.mpr hk.sort).1
  obtain ⟨i', c', j', k', hc', hk', -, -, hstart⟩ := h log a hrun hopen hpre _ hcm _ hkm hkc hkk
  rw [htake] at hc' hk'
  obtain ⟨rfl, rfl⟩ := hc.unique hc'
  obtain ⟨rfl, rfl⟩ := hk.unique hk'
  exact hstart

end decodable

/-- However a stream is cut, who catches up with it at some moment can start, exactly when in the whole stream no
configuration follows a keyframe, and no keyframe that follows a configuration ends the sequence. -/
theorem catchup_decodable_iff (limit capacity : Nat) (source : String) (chunks : List (Nat × Bytes)) :
    CatchupDecodable limit capacity source chunks ↔
      (Decoder.elements limit (Decoder.bytesOf chunks)).Pairwise InOrder :=
  ⟨inOrder_of_catchupDecodable, catchupDecodable_of_inOrder⟩

/-- A stream of AVC packets of these kinds, each in a tag with the mark of a keyframe. -/
def avcStream (packets : List UInt8) : Bytes :=
  [0x46, 0x4C, 0x56, 1, 1, 0, 0, 0, 9, 0, 0, 0, 0] ++
    packets.flatMap fun packet => [9, 0, 0, 2, 0, 0, 0, 0, 0, 0, 0, 0x17, packet, 0, 0, 0, 13]

/-- A configuration with two keyframes behind it, cut in two: whoever joins can start. -/
theorem catchup_of_two_keyframes :
    CatchupDecodable 64 4 "cam" [(0, (avcStream [0, 1, 1]).take 20), (5, (avcStream [0, 1, 1]).drop 20)] :=
  (catchup_decodable_iff 64 4 "cam" _).mpr (by decide +kernel)

/-- An encoder ends the sequence of pictures, or configures the decoder anew: who joins then is given the mark of the
end for a keyframe, or a keyframe that was made for the old configuration. -/
theorem catchup_not_decodable :
    ¬CatchupDecodable 64 4 "cam" [(0, avcStream [0, 1, 2])] ∧ ¬CatchupDecodable 64 4 "cam" [(0, avcStream [0, 1, 0])] :=
  ⟨fun h => absurd (inOrder_of_catchupDecodable h) (by decide +kernel),
    fun h => absurd (inOrder_of_catchupDecodable h) (by decide +kernel)⟩

end EncoderFleet
