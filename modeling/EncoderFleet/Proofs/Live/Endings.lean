import EncoderFleet.Proofs.Live.Delivery

/-!
# How a viewer comes to its end

A viewer is disconnected when it fell behind, or when it has read a closed hub to its end (`answer_fails`); once nothing
more comes for it, that stays so (`Runs.over_of_failed`). So a viewer who did not fall behind is told that its hub is
closed exactly when the hub is closed and the viewer has received everything (`Runs.hubClosed_iff`).
-/

namespace EncoderFleet

/-- Whether an answer says that the viewer fell behind. -/
def Received.isOverrun : Received → Bool
  | failed (.subscriberOverrun _) => true
  | _ => false

namespace Hub

section ending

variable {depth : Nat} {catchup us : List StreamUnit} {closed : Bool} {answers : List Received}

/-- A viewer who was not disconnected yet is disconnected because it fell behind, or because the hub is closed and the
viewer has received everything. -/
theorem answer_fails (hf : answers.any Received.isFailure = false)
    (h : (answer depth catchup us closed answers).isFailure = true) :
    (answer depth catchup us closed answers).isOverrun = true ∨
      closed = true ∧ (catchup ++ us).length ≤ (unitsOf answers).length := by
  unfold answer at h ⊢
  dsimp only at h ⊢
  rw [hf, if_neg Bool.false_ne_true] at h ⊢
  split
  · exact .inl rfl
  · next hover =>
    rw [if_neg hover] at h
    split at h
    · cases h
    · next hnone =>
      split at h
      · exact .inr ⟨‹_›, List.getElem?_eq_none_iff.mp hnone⟩
      · cases h

/-- A viewer who has received everything of a closed hub is told that it is closed. -/
theorem answer_of_drained (h : (catchup ++ us).length ≤ (unitsOf answers).length) :
    answer depth catchup us true answers = .failed .hubClosed := by
  have hover : ¬(catchup.length ≤ (unitsOf answers).length ∧
      depth < (catchup ++ us).length - (unitsOf answers).length) := by
    omega
  unfold answer
  dsimp only
  rw [if_neg hover, List.getElem?_eq_none_iff.mpr h]
  split <;> rfl

/-- If a viewer who did not fall behind is disconnected after one more answer, it has received everything of a closed
hub, given that this is so if it was disconnected before. -/
theorem drained_of_failed {r : Received} (hr : r = answer depth catchup us closed answers)
    (hp : unitsOf answers <+: catchup ++ us)
    (ih : answers.any Received.isFailure = true → answers.any Received.isOverrun = false →
      closed = true ∧ unitsOf answers = catchup ++ us)
    (hf : (answers ++ [r]).any Received.isFailure = true) (ho : (answers ++ [r]).any Received.isOverrun = false) :
    closed = true ∧ unitsOf (answers ++ [r]) = catchup ++ us := by
  simp only [List.any_append, List.any_cons, List.any_nil, Bool.or_false, Bool.or_eq_false_iff] at hf ho
  rw [unitsOf_append]
  cases hbefore : answers.any Received.isFailure with
  | true =>
    obtain ⟨hclosed, hall⟩ := ih hbefore ho.1
    rw [answer_of_failed hbefore] at hr
    subst hr
    exact ⟨hclosed, by rw [hall]; exact List.append_nil _⟩
  | false =>
    rw [hbefore, Bool.false_or] at hf
    have hnone : unitsOf [r] = [] := by cases r <;> first | rfl | cases hf
    rcases answer_fails hbefore (hr ▸ hf) with hover | ⟨hclosed, hlen⟩
    · rw [← hr, ho.2] at hover
      cases hover
    · rw [hnone, List.append_nil]
      exact ⟨hclosed, hp.eq_of_length_le hlen⟩

end ending

section runs

variable {source : String} {capacity id : Nat} {log before since : List Entry} {a : Audience} {v : Viewer}

/-- Nothing more comes for a viewer: the hub is closed, and it has received all that there was since it joined. -/
def Audience.Over (a : Audience) (catchup : List StreamUnit) (id : Nat) (since : List Entry) : Prop :=
  a.closed = true ∧ unitsOf (answersTo id since) = catchup ++ units since

theorem answersTo_concat (log : List Entry) (e : Entry) (he : answersTo id [e] = []) :
    answersTo id (log ++ [e]) = answersTo id log := by
  rw [answersTo_append, he, List.append_nil]

theorem units_concat (log : List Entry) (e : Entry) (he : units [e] = []) : units (log ++ [e]) = units log := by
  rw [units_append, he, List.append_nil]

/-- Who is disconnected fell behind, or nothing more comes for it. -/
theorem Runs.over_of_failed (h : Runs source capacity log a) (hl : log = before ++ .joined id :: since)
    (hf : (answersTo id since).any Received.isFailure = true)
    (ho : (answersTo id since).any Received.isOverrun = false) : a.Over (catchupOf (units before)) id since := by
  induction h generalizing since with
  | none => simp at hl
  | publish h hopen u ih =>
    rcases split_snoc hl with ⟨rfl, -, -⟩ | ⟨rest, rfl, hl'⟩
    · cases hf
    · rw [answersTo_concat rest (.published u _) rfl] at hf ho
      exact absurd (ih hl' hf ho).1 (by rw [hopen]; decide)
  | join h hopen ih =>
    rcases split_snoc hl with ⟨rfl, -, -⟩ | ⟨rest, rfl, hl'⟩
    · cases hf
    · rw [answersTo_concat rest (.joined _) rfl] at hf ho
      exact absurd (ih hl' hf ho).1 (by rw [hopen]; decide)
  | close h hopen ih =>
    rcases split_snoc hl with ⟨rfl, -, -⟩ | ⟨rest, rfl, hl'⟩
    · cases hf
    · rw [answersTo_concat rest .closed rfl] at hf ho
      exact absurd (ih hl' hf ho).1 (by rw [hopen]; decide)
  | @leave log a j v h hv ih =>
    rcases split_snoc hl with ⟨rfl, -, -⟩ | ⟨rest, rfl, hl'⟩
    · cases hf
    · have hsame : answersTo id (rest ++ [.left j]) = answersTo id rest := answersTo_concat rest (.left j) rfl
      have hunits : units (rest ++ [.left j]) = units rest := units_concat rest (.left j) rfl
      rw [hsame] at hf ho
      rw [Audience.Over, hsame, hunits]
      exact ih hl' hf ho
  | @ask log a j v h hv ih =>
    rcases split_snoc hl with ⟨rfl, -, -⟩ | ⟨rest, rfl, rfl⟩
    · cases hf
    · have hunits : units (rest ++ [.asked j (a.hub.receive a.closed v).1]) = units rest :=
        units_concat rest (.asked j _) rfl
      rw [Audience.Over, hunits]
      rcases Decidable.em (j = id) with rfl | hj
      · have hseat := h.kept.seats before j rest rfl
        have hr := (hseat.receive h.kept.depth hv).1
        generalize (a.hub.receive a.closed v).1 = r at *
        have hanswers : answersTo j (rest ++ [.asked j r]) = answersTo j rest ++ [r] := by simp [answersTo]
        rw [hanswers] at hf ho ⊢
        exact drained_of_failed hr hseat.received (ih rfl) hf ho
      · have hsame : answersTo id (rest ++ [.asked j (a.hub.receive a.closed v).1]) = answersTo id rest :=
          answersTo_concat rest (.asked j _) (by simp [answersTo, hj])
        rw [hsame] at hf ho ⊢
        exact ih rfl hf ho

/-- A viewer who did not fall behind is told that its hub is closed exactly when nothing more comes for it. -/
theorem Runs.hubClosed_iff (h : Runs source capacity (before ++ .joined id :: since) a)
    (hv : a.viewers.get? id = some v) (ho : (answersTo id since).any Received.isOverrun = false) :
    (a.hub.receive a.closed v).1 = .failed .hubClosed ↔ a.Over (catchupOf (units before)) id since := by
  have hseat := h.kept.seats before id since rfl
  rw [(hseat.receive h.kept.depth hv).1]
  constructor
  · intro hr
    cases hf : (answersTo id since).any Received.isFailure with
    | true => exact h.over_of_failed rfl hf ho
    | false =>
      rcases answer_fails hf (by rw [hr]; rfl) with hover | ⟨hclosed, hlen⟩
      · rw [hr] at hover
        cases hover
      · exact ⟨hclosed, hseat.received.eq_of_length_le hlen⟩
  · rintro ⟨hclosed, hall⟩
    rw [hclosed]
    exact answer_of_drained (Nat.le_of_eq (by rw [hall]))

end runs

end Hub

end EncoderFleet
