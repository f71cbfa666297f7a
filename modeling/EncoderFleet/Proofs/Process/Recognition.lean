import EncoderFleet.Fleet.Starting
import EncoderFleet.Proofs.Process.Visits

/-!
# Encoders left behind are recognised

An encoder that was launched for a source runs the executable that cleanups look for (`Entry.runs_executableName`), and
carries the signature of the source whatever it was asked to write: the signature is the end of the arguments by which
the source is opened (`Command.signature_suffix`), and no output mode changes that end. So a cleanup counts the encoder
and asks for its kill, wherever it stands in the process table (`leftover_encoder_found`).
-/

namespace EncoderFleet

/-! ## Names of programs -/

namespace Entry

theorem stem_of_not_exe {name : String} (h : Text.endsWithFolded name.toList ".exe".toList = false) :
    stem name = name :=
  if_neg fun hx => Bool.eq_false_iff.mp h hx.2

/-- The extension is taken off a name that is more than the extension. -/
theorem stem_append_exe {name : String} (h : name ≠ "") : stem (name ++ ".exe") = name := by
  have hlen : 0 < name.toList.length := by
    rw [List.length_pos_iff]
    exact fun hn => h (String.toList_injective (by rw [hn]; rfl))
  have hends : Text.endsWithFolded (name ++ ".exe").toList ".exe".toList = true := by
    simp [Text.endsWithFolded]
  have hlong : 4 < (name ++ ".exe").toList.length := by
    simp
    omega
  simp only [stem, hlong, hends, and_self, if_true]
  simp

@[simp] theorem name_new (pid : UInt32) (program : String) (args : List String) :
    (new pid (program :: args)).name = Text.baseName program := rfl

/-- A process runs the executable of the program that it was started with, whatever the platform. -/
theorem runs_executableName (platform : Platform) (pid : UInt32) {program : String} (args : List String)
    (h : Text.baseName program ≠ "") : (new pid (program :: args)).runs (platform.executableName program) = true := by
  rw [runs, name_new, Platform.executableName]
  split
  · next hx =>
    rw [stem_append_exe h, stem_of_not_exe (Bool.eq_false_iff.mpr hx.2)]
    exact Text.same_refl _
  · exact Text.same_refl _

/-! ## Signatures -/

/-- Words stand in a list when they are a part of it, unbroken. -/
theorem standsIn_iff {words as : List String} : standsIn words as = true ↔ words <:+: as := by
  induction as with
  | nil => simp [standsIn]
  | cons a as ih => simp only [standsIn, Bool.or_eq_true, ih, List.isPrefixOf_iff_prefix, List.infix_cons_iff]

end Entry

namespace Command

variable (platform : Platform) (source : Source)

theorem override?_ne_nil {source : Source} {args : List String} (h : override? source = some args) : args ≠ [] := by
  obtain ⟨line, -, h⟩ := Option.bind_eq_some_iff.mp h
  split at h
  · cases h
  · next hn => cases h; exact hn

theorem sourceSignature_ne_nil : sourceSignature platform source ≠ [] := by
  unfold sourceSignature
  cases h : override? source with
  | none => exact List.cons_ne_nil _ _
  | some args => exact override?_ne_nil h

/-- The arguments that open a source end in its signature, in each mode. -/
theorem signature_suffix (mode : OutputMode) : sourceSignature platform source <:+ inputArgs platform source mode := by
  unfold sourceSignature inputArgs
  cases override? source with
  | some args => exact List.suffix_refl args
  | none =>
    cases source.kind with
    | device => exact List.suffix_append _ _
    | rtsp => exact List.suffix_append ["-rtsp_transport", "tcp"] _
    | url => exact List.suffix_refl _
    | file => exact List.suffix_cons _ _

/-- The signature of a source stands in the arguments of each of its encoders. -/
theorem signature_infix (settings : Settings) (args : String) (flags : OutputFlags) :
    sourceSignature platform source <:+: (build settings platform source args flags).args := by
  obtain ⟨front, hfront⟩ := signature_suffix platform source flags.mode
  refine ⟨["-hide_banner", "-loglevel", "error", "-nostdin"] ++ front, encodeArgs args flags flags.mode ++
    outputArgs settings (hlsDirectory settings source.id) flags.mode, ?_⟩
  simp only [build, ← hfront, List.append_assoc]

end Command

/-- An encoder of a source carries its signature. -/
theorem Entry.carries_signature (pid : UInt32) (program : String) {settings : Settings} {platform : Platform}
    {source : Source} {args : String} {flags : OutputFlags} :
    (Entry.new pid (program :: (Command.build settings platform source args flags).args)).carries
      (Command.sourceSignature platform source) = true := by
  have hinfix := (Command.signature_infix platform source settings args flags).trans
    (List.suffix_cons program _).isInfix
  have hne : (Command.sourceSignature platform source).isEmpty = false :=
    List.isEmpty_eq_false_iff.mpr (Command.sourceSignature_ne_nil platform source)
  rw [Entry.carries, hne, Entry.new, Entry.standsIn_iff.mpr hinfix]
  rfl

/-! ## Cleanups -/

namespace ProcessTable

variable {t : ProcessTable} {executable : String} {signature : List String} {tracked : Option UInt32}

theorem orphans_cons {e : Entry} (back : List Entry) (he : isEncoder executable signature e = true)
    (hs : t.spares tracked e = false) : (t.holding (e :: back)).orphans executable signature tracked =
      e.pid :: (t.holding back).orphans executable signature tracked := by
  have hkeep : (t.holding (e :: back)).spares tracked e = false := hs
  simp only [orphans, List.filter_cons, show (t.holding (e :: back)).processes = e :: back from rfl, he, if_true, hkeep,
    Bool.not_false, List.map_cons]
  rfl

/-- A cleanup counts one process more for an encoder in the table, and asks for its kill at its place. -/
theorem cleanup_of_encoder {e : Entry} {front back : List Entry} (hb : t.broken = none)
    (ht : t.processes = front ++ e :: back) (he : isEncoder executable signature e = true)
    (hs : t.spares tracked e = false) :
    (t.cleanup executable signature tracked).2.matched =
        ((t.holding (front ++ back)).cleanup executable signature tracked).2.matched + 1 ∧
      (t.cleanup executable signature tracked).1.asked = t.asked ++
        ((t.holding front).orphans executable signature tracked ++
          e.pid :: (t.holding back).orphans executable signature tracked) := by
  have hpids : t.orphans executable signature tracked = (t.holding front).orphans executable signature tracked ++
      e.pid :: (t.holding back).orphans executable signature tracked := by
    rw [← orphans_cons back he hs, ← orphans_append, ← ht]
    rfl
  have hrest : (t.holding (front ++ back)).broken = none := hb
  have hlisted : (t.holding (front ++ back)).processes = front ++ back := rfl
  simp only [cleanup_eq hb, cleanup_eq hrest, hpids, ht, hlisted, List.filter_append, List.filter_cons, he, if_true,
    List.length_append, List.length_cons, and_true]
  omega

end ProcessTable

/-- An encoder left behind is always found. Take any process that was started with the command of a source, whatever the
profile and the output were: it runs the executable that the fleet looks for, and it carries the signature that the
source has under any other profile and output. So a cleanup for the source counts it, and asks for its kill at its place
in the table, unless it has the pid of this process or of the encoder that is tracked. -/
theorem leftover_encoder_found (f : Fleet) (source : Source) (args args' : String) (flags flags' : OutputFlags)
    (h : Text.baseName f.settings.encoderPath ≠ "") (pid : UInt32) :
    let command := Command.build f.settings f.platform source args flags
    let e := Entry.new pid (command.program :: command.args)
    let signature := (Command.build f.settings f.platform source args' flags').signature
    e.runs f.executable = true ∧ e.carries signature = true ∧
      ∀ (t : ProcessTable) (tracked : Option UInt32) (front back : List Entry), t.broken = none →
        t.processes = front ++ e :: back → e.pid ≠ t.self → tracked ≠ some e.pid →
          (t.cleanup f.executable signature tracked).2.matched =
              ((t.holding (front ++ back)).cleanup f.executable signature tracked).2.matched + 1 ∧
            (t.cleanup f.executable signature tracked).1.asked = t.asked ++
              ((t.holding front).orphans f.executable signature tracked ++
                e.pid :: (t.holding back).orphans f.executable signature tracked) := by
  intro command e signature
  have hruns : e.runs f.executable = true := Entry.runs_executableName f.platform pid command.args h
  have hcarries : e.carries signature = true := Entry.carries_signature pid command.program
  refine ⟨hruns, hcarries, fun t tracked front back hb ht hself htracked => ?_⟩
  have hencoder : ProcessTable.isEncoder f.executable signature e = true := by
    rw [ProcessTable.isEncoder, hruns, hcarries]
    rfl
  have hspares : t.spares tracked e = false := by
    simp [ProcessTable.spares, hself, htracked]
  exact ProcessTable.cleanup_of_encoder hb ht hencoder hspares

/-- An encoder that wrote segments for a camera is found by a start of the camera that is to write to a pipe, also where
programs have an extension that the settings leave out. -/
theorem leftover_encoder_found_by_camera :
    let f := Fleet.new { encoderPath := "C:\\tools\\ffmpeg" } .windows {} (.memory {})
    let camera : Source := .new "cam" .device "USB Camera"
    let left := Command.build f.settings f.platform camera "-c:v libx264" {}
    let shell := Entry.new 1 ["sh"]
    let e := Entry.new 4711 (left.program :: left.args)
    let t : ProcessTable := { processes := [shell, e], self := 7 }
    let signature := (Command.build f.settings f.platform camera "" { flv := true }).signature
    Text.baseName f.settings.encoderPath ≠ "" ∧ e.runs f.executable = true ∧ e.carries signature = true ∧
      (t.cleanup f.executable signature none).1.asked = [4711] := by
  intro f camera left shell e t signature
  have hname : Text.baseName f.settings.encoderPath ≠ "" := by decide +kernel
  obtain ⟨hruns, hcarries, hfound⟩ :=
    leftover_encoder_found f camera "-c:v libx264" "" {} { flv := true } hname 4711
  have hshell : (t.holding [shell]).orphans f.executable signature none = [] := by decide +kernel
  have hrest : (t.holding []).orphans f.executable signature none = [] := rfl
  have hsignature : (Command.build f.settings f.platform camera "" { flv := true }).signature = signature := rfl
  obtain ⟨-, hasked⟩ := hfound t none [shell] [] rfl rfl (by decide) nofun
  rw [hshell, hrest, hsignature] at hasked
  exact ⟨hname, hruns, hcarries, hasked⟩

end EncoderFleet
