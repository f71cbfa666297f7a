import EncoderFleet.Proofs.Process.Recognition
import Mathlib.Data.List.DropRight

/-!
# What a cleanup does to a process table

Which processes are encoders of a source is said here by how the texts are put together: a file name stands behind the
last slash of a path (`IsFileName`), a stem in front of an extension `.exe` (`IsStem`), a signature somewhere among the
arguments (`Entry.IsEncoder`). The tests that a cleanup makes decide just that (`isEncoder_iff`).

The visits of a cleanup add up to what its tests select (`ProcessTable.cleanup_eq`). So the kills, their answers and the
counts are those of the encoders in the table (`cleanup_exact`).
-/

namespace EncoderFleet

/-! ## Names of programs -/

/-- The file name of a path is what stands behind its last slash, of either kind. -/
def IsFileName (path name : String) : Prop :=
  ∃ dir, path = dir ++ name ∧ (∀ c ∈ name.toList, c ≠ '/' ∧ c ≠ '\\') ∧
    (dir = "" ∨ ∃ d, dir = d ++ "/" ∨ dir = d ++ "\\")

/-- The stem of a program's name: the name without one extension `.exe`, in letters of any case, if something stands
before it. -/
inductive IsStem : String → String → Prop
  | cut {stem ext : String} (hne : stem ≠ "") (hext : Text.fold ext = ".exe") : IsStem (stem ++ ext) stem
  | whole {name : String} (h : ∀ stem ext, stem ≠ "" → Text.fold ext = ".exe" → name ≠ stem ++ ext) :
      IsStem name name

/-- Two names of one program: their stems agree but for the case of letters. -/
def SameProgram (a b : String) : Prop := ∃ s s', IsStem a s ∧ IsStem b s' ∧ Text.fold s = Text.fold s'

section Names

variable {path name stem ext a b : String}

/-- Whether a character is no slash. -/
def isInName (c : Char) : Bool := c != '/' && c != '\\'

theorem isInName_iff {c : Char} : isInName c = true ↔ c ≠ '/' ∧ c ≠ '\\' := by simp [isInName]

theorem rtakeWhile_append {p : Char → Bool} {dir name : List Char} (hname : ∀ c ∈ name, p c = true)
    (hdir : ∀ c ∈ dir.getLast?, p c = false) : (dir ++ name).rtakeWhile p = name := by
  have hstop : dir.reverse.takeWhile p = [] := by
    cases h : dir.reverse with
    | nil => rfl
    | cons c cs =>
      have hlast : dir.getLast? = some c := by rw [← List.head?_reverse, h, List.head?_cons]
      rw [List.takeWhile_cons_of_neg (Bool.eq_false_iff.mp (hdir c hlast))]
  rw [List.rtakeWhile, List.reverse_append, List.takeWhile_append_of_pos fun c hc => hname c (List.mem_reverse.mp hc),
    hstop, List.append_nil, List.reverse_reverse]

theorem toList_baseName (path : String) : (Text.baseName path).toList = path.toList.rtakeWhile isInName :=
  String.toList_ofList

theorem isFileName_baseName (path : String) : IsFileName path (Text.baseName path) := by
  refine ⟨String.ofList (path.toList.rdropWhile isInName), ?_, fun c hc => ?_, ?_⟩
  · rw [← String.toList_inj, String.toList_append, String.toList_ofList, toList_baseName,
      List.rdropWhile_append_rtakeWhile]
  · rw [toList_baseName] at hc
    exact isInName_iff.mp (List.mem_rtakeWhile_imp hc)
  · rcases List.eq_nil_or_concat' (path.toList.rdropWhile isInName) with h | ⟨d, c, h⟩
    · exact .inl (congrArg String.ofList h)
    · -- The character before the name is one at which the name had to begin.
      have hc : isInName c ≠ true := by
        have hlast := List.rdropWhile_last_not isInName path.toList (by simp [h])
        simpa only [h, List.getLast_append_singleton] using hlast
      have hslash : c = '/' ∨ c = '\\' := by simpa [isInName, or_iff_not_imp_left] using hc
      refine .inr ⟨String.ofList d, ?_⟩
      rw [h, String.ofList_append]
      rcases hslash with rfl | rfl
      · exact .inl rfl
      · exact .inr rfl

theorem baseName_of_isFileName (h : IsFileName path name) : Text.baseName path = name := by
  obtain ⟨dir, rfl, hname, hdir⟩ := h
  have hlast : ∀ c ∈ dir.toList.getLast?, isInName c = false := by
    rcases hdir with rfl | ⟨d, rfl | rfl⟩
    · exact nofun
    all_goals
      intro c hc
      simp at hc
      subst hc
      rfl
  rw [← String.toList_inj, toList_baseName, String.toList_append]
  exact rtakeWhile_append (fun c hc => isInName_iff.mpr (hname c hc)) hlast

theorem isFileName_iff : IsFileName path name ↔ Text.baseName path = name :=
  ⟨baseName_of_isFileName, fun h => h ▸ isFileName_baseName path⟩

theorem toList_fold_exe (h : Text.fold ext = ".exe") : ext.toList.map Char.toLower = ".exe".toList := by
  rw [← h, Text.fold, String.toList_ofList]

theorem length_of_exe (h : Text.fold ext = ".exe") : ext.toList.length = 4 := by
  rw [← List.length_map Char.toLower, toList_fold_exe h]
  rfl

/-- A stem and the extension make a name that is cut. -/
theorem endsWithFolded_exe (hne : stem ≠ "") (hext : Text.fold ext = ".exe") :
    4 < (stem ++ ext).toList.length ∧ Text.endsWithFolded (stem ++ ext).toList ".exe".toList = true := by
  have hpos : 0 < stem.toList.length := List.length_pos_iff.mpr fun h => hne (String.toList_eq_nil_iff.mp h)
  have hcut : (stem.toList.map Char.toLower ++ ".exe".toList).drop (stem.toList.length + 4 - ".exe".toList.length) =
      ".exe".toList := by
    rw [show ".exe".toList.length = 4 from rfl, Nat.add_sub_cancel, ← List.length_map Char.toLower, List.drop_left]
  rw [Text.endsWithFolded, String.toList_append, List.length_append, length_of_exe hext, List.map_append,
    toList_fold_exe hext, hcut]
  exact ⟨by omega, rfl⟩

/-- A name that is cut is a stem and the extension. -/
theorem exists_stem_append (hlong : 4 < name.toList.length)
    (hends : Text.endsWithFolded name.toList ".exe".toList = true) :
    ∃ stem ext, stem ≠ "" ∧ Text.fold ext = ".exe" ∧ name = stem ++ ext := by
  refine ⟨String.ofList (name.toList.take (name.toList.length - 4)),
    String.ofList (name.toList.drop (name.toList.length - 4)), fun hempty => ?_, ?_, ?_⟩
  · have hlength := congrArg (fun s : String => s.toList.length) hempty
    simp only [String.toList_ofList, List.length_take, String.toList_empty, List.length_nil] at hlength
    omega
  · rw [Text.fold, String.toList_ofList, List.map_drop]
    exact congrArg String.ofList (eq_of_beq hends)
  · rw [← String.toList_inj, String.toList_append, String.toList_ofList, String.toList_ofList, List.take_append_drop]

theorem stem_append (hne : stem ≠ "") (hext : Text.fold ext = ".exe") : Entry.stem (stem ++ ext) = stem := by
  rw [Entry.stem, if_pos (endsWithFolded_exe hne hext), String.toList_append, List.length_append, length_of_exe hext,
    Nat.add_sub_cancel, List.take_left, String.ofList_toList]

theorem stem_of_whole (h : ∀ stem ext, stem ≠ "" → Text.fold ext = ".exe" → name ≠ stem ++ ext) :
    Entry.stem name = name := by
  refine if_neg fun ⟨hlong, hends⟩ => ?_
  obtain ⟨stem, ext, hne, hext, hname⟩ := exists_stem_append hlong hends
  exact h stem ext hne hext hname

theorem isStem_iff : IsStem name stem ↔ Entry.stem name = stem := by
  constructor
  · rintro (⟨hne, hext⟩ | h)
    · exact stem_append hne hext
    · exact stem_of_whole h
  · rintro rfl
    by_cases h : ∃ stem ext, stem ≠ "" ∧ Text.fold ext = ".exe" ∧ name = stem ++ ext
    · obtain ⟨stem, ext, hne, hext, rfl⟩ := h
      rw [stem_append hne hext]
      exact .cut hne hext
    · have hwhole : ∀ stem ext, stem ≠ "" → Text.fold ext = ".exe" → name ≠ stem ++ ext :=
        fun stem ext hne hext hname => h ⟨stem, ext, hne, hext, hname⟩
      rw [stem_of_whole hwhole]
      exact .whole hwhole

theorem sameProgram_iff : SameProgram a b ↔ Text.same (Entry.stem a) (Entry.stem b) = true := by
  rw [Text.same_iff]
  constructor
  · rintro ⟨s, s', hs, hs', hfold⟩
    rw [isStem_iff.mp hs, isStem_iff.mp hs', hfold]
  · exact fun h => ⟨_, _, isStem_iff.mpr rfl, isStem_iff.mpr rfl, h⟩

end Names

/-! ## Encoders of a source -/

/-- The name of a process is the file name of its program. -/
theorem Entry.name_new_eq_iff (pid : UInt32) (program : String) (args : List String) (name : String) :
    (Entry.new pid (program :: args)).name = name ↔ IsFileName program name :=
  isFileName_iff.symm

/-- A process is an encoder of a source: its name and the executable are names of one program, and the signature, which
is not empty, stands unbroken among its arguments. -/
structure Entry.IsEncoder (executable : String) (signature : List String) (e : Entry) : Prop where
  program : SameProgram e.name executable
  signed : signature ≠ [] ∧ signature <:+: e.cmdline

namespace ProcessTable

variable {t : ProcessTable} {executable : String} {signature : List String} {tracked : Option UInt32} {e : Entry}

/-- The tests of a cleanup find the encoders of a source and nothing else. -/
theorem isEncoder_iff : isEncoder executable signature e = true ↔ e.IsEncoder executable signature := by
  have hcarries : e.carries signature = true ↔ signature ≠ [] ∧ signature <:+: e.cmdline := by
    rw [Entry.carries, Bool.and_eq_true, Entry.standsIn_iff, Bool.not_eq_true', List.isEmpty_eq_false_iff]
  rw [isEncoder, Bool.and_eq_true, Entry.runs, ← sameProgram_iff, hcarries]
  exact ⟨fun h => ⟨h.1, h.2⟩, fun h => ⟨h.program, h.signed⟩⟩

instance (executable : String) (signature : List String) (e : Entry) :
    Decidable (e.IsEncoder executable signature) := decidable_of_iff _ isEncoder_iff

/-- A process that is not to be killed: the encoder that is tracked for the source, or this process. -/
def IsSpared (t : ProcessTable) (tracked : Option UInt32) (e : Entry) : Prop := tracked = some e.pid ∨ e.pid = t.self

instance (t : ProcessTable) (tracked : Option UInt32) (e : Entry) : Decidable (t.IsSpared tracked e) :=
  inferInstanceAs (Decidable (tracked = some e.pid ∨ e.pid = t.self))

theorem spares_iff : t.spares tracked e = true ↔ t.IsSpared tracked e := by
  simp [spares, IsSpared]

/-! ## The whole cleanup -/

/-- The encoders of a source that a cleanup is to kill, in the order of the table. -/
def targets (t : ProcessTable) (executable : String) (signature : List String) (tracked : Option UInt32) : List Entry :=
  t.processes.filter fun e => e.IsEncoder executable signature ∧ ¬ t.IsSpared tracked e

theorem orphans_eq :
    t.orphans executable signature tracked = (t.targets executable signature tracked).map Entry.pid := by
  rw [orphans, List.filter_filter, targets]
  refine congrArg (List.map Entry.pid) (List.filter_congr fun e _ => ?_)
  rw [Bool.eq_iff_iff, Bool.and_eq_true, Bool.not_eq_true', ← Bool.not_eq_true, spares_iff, isEncoder_iff,
    decide_eq_true_iff, and_comm]

/-- The encoders of a source are those that are to be killed and those that are spared. -/
theorem length_filter_isEncoder : (t.processes.filter (isEncoder executable signature)).length =
    (t.targets executable signature tracked).length +
      (t.processes.filter fun e => e.IsEncoder executable signature ∧ t.IsSpared tracked e).length := by
  have hencoders : t.processes.filter (isEncoder executable signature) =
      t.processes.filter fun e => e.IsEncoder executable signature :=
    List.filter_congr fun e _ => by rw [Bool.eq_iff_iff, isEncoder_iff, decide_eq_true_iff]
  rw [hencoders, List.length_eq_length_filter_add fun e => decide (¬ t.IsSpared tracked e), List.filter_filter,
    List.filter_filter, targets]
  simp [Bool.and_comm]

/-- Each kill is answered, by a refusal or not. -/
theorem length_answers (t : ProcessTable) (es : List Entry) : es.length =
    (es.filter fun e => t.refuse.get? e.pid = none).length + (es.filterMap fun e => t.failure? e.pid).length := by
  induction es with
  | nil => rfl
  | cons e es ih =>
    cases he : t.refuse.get? e.pid with
    | none =>
      simp only [failure?, List.filter_cons, List.filterMap_cons, he, Option.map_none, decide_true, if_true,
        List.length_cons] at ih ⊢
      omega
    | some reason =>
      simp only [failure?, List.filter_cons, List.filterMap_cons, he, Option.map_some, reduceCtorEq, decide_false,
        Bool.false_eq_true, if_false, List.length_cons] at ih ⊢
      omega

/-- What a cleanup does, for any process table, executable, signature and tracked encoder. The name of a process is the
file name of its program. If the table cannot be read, nothing is asked for. Else, whatever is answered, the table is
asked to kill the encoders of the source that are not spared, once each, in order, and no others; the answers are kept
in order, by kind, each refusal with its reason; and all encoders are counted. -/
theorem cleanup_exact (t : ProcessTable) (executable : String) (signature : List String) (tracked : Option UInt32) :
    (∀ pid program args name, (Entry.new pid (program :: args)).name = name ↔ IsFileName program name) ∧
    (∀ reason, t.broken = some reason →
      t.cleanup executable signature tracked = (t, { scanError := some reason })) ∧
    (t.broken = none →
      let calls := t.processes.filter fun e => e.IsEncoder executable signature ∧ ¬ t.IsSpared tracked e
      let r := t.cleanup executable signature tracked
      r.1 = { t with asked := t.asked ++ calls.map Entry.pid } ∧
      r.2.killed = (calls.filter fun e => t.refuse.get? e.pid = none).map Entry.pid ∧
      r.2.failures =
        (calls.filterMap fun e => (t.refuse.get? e.pid).map fun reason => .orphanKillFailed e.pid reason) ∧
      r.2.matched = r.2.killed.length + r.2.failures.length +
        (t.processes.filter fun e => e.IsEncoder executable signature ∧ t.IsSpared tracked e).length ∧
      r.2.scanError = none) := by
  refine ⟨Entry.name_new_eq_iff, fun reason h => by simp only [cleanup, h], fun h => ?_⟩
  intro calls r
  have hr : r = _ := cleanup_eq h
  have hcalls : t.orphans executable signature tracked = calls.map Entry.pid := orphans_eq
  rw [hcalls] at hr
  have hkilled : r.2.killed = (calls.filter fun e => t.refuse.get? e.pid = none).map Entry.pid := by
    rw [hr, List.filter_map]
    simp only [Function.comp_def, ← Option.isNone_iff_eq_none, Bool.decide_coe]
  have hfailures : r.2.failures = calls.filterMap fun e => t.failure? e.pid := by
    rw [hr, List.filterMap_map]
    rfl
  refine ⟨by rw [hr], hkilled, hfailures, ?_, by rw [hr]⟩
  rw [hkilled, hfailures, List.length_map, ← length_answers, hr]
  exact length_filter_isEncoder

/-- A table with an encoder whose kill is refused, the one that is tracked, one that runs under another name of the
program, one whose stem is empty, one with another signature, and this very process. -/
def crowded : ProcessTable where
  processes :=
    [.new 1 ["/usr/bin/FFMPEG.exe", "-i", "cam"], .new 2 ["ffmpeg", "-i", "cam"],
      .new 3 ["C:\\bin\\ffmpeg", "-i", "cam", "-an"], .new 4 [".exe", "-i", "cam"], .new 5 ["ffmpeg", "-i", "camera"],
      .new 7 ["ffmpeg.Exe", "-i", "cam"]]
  refuse := (default : KeyMap UInt32 String).insert 1 "denied"
  self := 7

/-- Two of the six are asked to be killed, of which one is; two more are counted. -/
theorem cleanup_of_crowded :
    let r := crowded.cleanup "ffmpeg.exe" ["-i", "cam"] (some 2)
    crowded.broken = none ∧ r.1.asked = [1, 3] ∧ r.2.killed = [3] ∧
      r.2.failures = [.orphanKillFailed 1 "denied"] ∧ r.2.matched = 4 := by
  intro r
  have hb : crowded.broken = none := rfl
  obtain ⟨hasked, hkilled, hfailures, hmatched, -⟩ :=
    (cleanup_exact crowded "ffmpeg.exe" ["-i", "cam"] (some 2)).2.2 hb
  have hcalls : (crowded.processes.filter fun e =>
      e.IsEncoder "ffmpeg.exe" ["-i", "cam"] ∧ ¬ crowded.IsSpared (some 2) e) =
        [.new 1 ["/usr/bin/FFMPEG.exe", "-i", "cam"], .new 3 ["C:\\bin\\ffmpeg", "-i", "cam", "-an"]] := by
    decide +kernel
  have hspared : (crowded.processes.filter fun e =>
      e.IsEncoder "ffmpeg.exe" ["-i", "cam"] ∧ crowded.IsSpared (some 2) e).length = 2 := by
    decide +kernel
  have hr : crowded.cleanup "ffmpeg.exe" ["-i", "cam"] (some 2) = r := rfl
  rw [hr, hcalls] at hasked hkilled hfailures
  rw [hr, hkilled, hfailures, hspared] at hmatched
  exact ⟨hb, congrArg asked hasked, hkilled, hfailures, hmatched⟩

end ProcessTable

end EncoderFleet
