import EncoderFleet.Process.Cleanup

/-!
# What the visits of a cleanup add up to

A cleanup visits one process after the other, and a visit leaves what the next one looks at, the refusals of the table
and its own pid, as it was. So what a visit adds depends on the process alone (`visit_eq`), and what many visits add is
put together in order (`foldl_visit`): the pids of the orphans among the processes, their answers, and the number of
encoders. A cleanup of a table that can be read does just this for all its processes (`cleanup_eq`).
-/

namespace EncoderFleet.ProcessTable

variable {t : ProcessTable} {executable : String} {signature : List String} {tracked : Option UInt32}

/-- The table with other processes. -/
def holding (t : ProcessTable) (processes : List Entry) : ProcessTable := { t with processes := processes }

/-- The pids of the encoders of a source that are not spared. -/
def orphans (t : ProcessTable) (executable : String) (signature : List String) (tracked : Option UInt32) :
    List UInt32 :=
  ((t.processes.filter (isEncoder executable signature)).filter fun e => !t.spares tracked e).map Entry.pid

/-- The failure of a kill that is refused. -/
def failure? (t : ProcessTable) (pid : UInt32) : Option Failure := (t.refuse.get? pid).map (.orphanKillFailed pid)

/-- A table that was asked to kill the orphans among some processes, and a report with their answers and the number of
encoders added. -/
def passed (executable : String) (signature : List String) (tracked : Option UInt32) (r : ProcessTable × Cleanup)
    (es : List Entry) : ProcessTable × Cleanup :=
  let pids := (r.1.holding es).orphans executable signature tracked
  ({ r.1 with asked := r.1.asked ++ pids },
    { r.2 with
      matched := r.2.matched + (es.filter (isEncoder executable signature)).length
      killed := r.2.killed ++ pids.filter fun pid => (r.1.refuse.get? pid).isNone
      failures := r.2.failures ++ pids.filterMap r.1.failure? })

theorem orphans_append (front back : List Entry) : (t.holding (front ++ back)).orphans executable signature tracked =
    (t.holding front).orphans executable signature tracked ++
      (t.holding back).orphans executable signature tracked := by
  simp only [orphans, holding, spares, List.filter_append, List.map_append]

theorem visit_eq (r : ProcessTable × Cleanup) (e : Entry) :
    visit executable signature tracked r e = passed executable signature tracked r [e] := by
  obtain ⟨t, report⟩ := r
  have hspares : (t.holding [e]).spares tracked e = t.spares tracked e := rfl
  have hlisted : (t.holding [e]).processes = [e] := rfl
  cases hencoder : isEncoder executable signature e with
  | false => simp [visit, passed, orphans, hlisted, hencoder]
  | true =>
    cases hspared : t.spares tracked e with
    | true => simp [visit, passed, orphans, hspares, hlisted, hencoder, hspared]
    | false =>
      have hasked : (t.holding [e]).orphans executable signature tracked = [e.pid] := by
        simp [orphans, hspares, hlisted, hencoder, hspared]
      cases hanswer : t.refuse.get? e.pid with
      | none => simp [visit, passed, hasked, hencoder, hspared, kill, Cleanup.note, failure?, hanswer]
      | some reason => simp [visit, passed, hasked, hencoder, hspared, kill, Cleanup.note, failure?, hanswer]

theorem passed_append (r : ProcessTable × Cleanup) (es es' : List Entry) :
    passed executable signature tracked (passed executable signature tracked r es) es' =
      passed executable signature tracked r (es ++ es') := by
  have hpids : ∀ asked, ({ r.1 with asked := asked }.holding es').orphans executable signature tracked =
      (r.1.holding es').orphans executable signature tracked := fun _ => rfl
  simp only [passed, hpids, orphans_append, List.filter_append, List.filterMap_append, List.length_append,
    List.append_assoc, Nat.add_assoc]
  rfl

/-- However many processes are visited, what the visits add is put together. -/
theorem foldl_visit (r : ProcessTable × Cleanup) (es : List Entry) :
    es.foldl (visit executable signature tracked) r = passed executable signature tracked r es := by
  induction es generalizing r with
  | nil => simp [passed, orphans, holding]
  | cons e es ih => rw [List.foldl_cons, ih, visit_eq, passed_append, List.singleton_append]

/-- A cleanup of a table that can be read asks for the kill of the orphans in it, and reports the answers. -/
theorem cleanup_eq (h : t.broken = none) : t.cleanup executable signature tracked =
    ({ t with asked := t.asked ++ t.orphans executable signature tracked },
      { matched := (t.processes.filter (isEncoder executable signature)).length
        killed := (t.orphans executable signature tracked).filter fun pid => (t.refuse.get? pid).isNone
        failures := (t.orphans executable signature tracked).filterMap t.failure? }) := by
  have hall : t.holding t.processes = t := rfl
  simp only [cleanup, h, foldl_visit, passed, hall, List.nil_append, Nat.zero_add]

end EncoderFleet.ProcessTable
