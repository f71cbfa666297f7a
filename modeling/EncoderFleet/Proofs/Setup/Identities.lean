import EncoderFleet.Fleet.Basic
import EncoderFleet.Proofs.Document.Saving
import Mathlib.Tactic.TFAE

/-!
# One identity everywhere

An id is looked up in four ways: among the configured sources, among the states of the fleet, in the register of the
hubs, and as the name of a directory. `identities_agree` shows that all four take the same ids for one source. The first
three compare folds, so what has to be shown is that a directory's name tells folds apart: `unescape` reads the bytes of
the fold back from it (`unescape_escapeByte`, one byte at a time with any rest behind it).

The name of a directory is made of characters (`isNameChar`) among which there is neither a dot nor a slash. So below
any root it is one step down and nothing else (`DirectChild`, `directChild_hlsDirectory`).
-/

namespace EncoderFleet

/-! ## Directly below a root -/

namespace Path

/-- The path leads to the root and from there one step down, by this name. -/
structure DirectChild (root name path : String) : Prop where
  starts : isAbsolute path = isAbsolute root
  steps : components path = components root ++ [.name name]

/-- Wherever the path leads to in a tree of files, it is by this name directly below the place of the root. -/
theorem DirectChild.resolve {root name path : String} (h : DirectChild root name path) {t : FileTree} {p : Place}
    (hp : t.resolve path = .ok p) :
    ∃ q, t.walk (t.origin root) (components root) = .ok q ∧ p = q ++ [name] := by
  have horigin : t.origin path = t.origin root := by rw [FileTree.origin, h.starts, FileTree.origin]
  have hwalk := FileTree.resolve_eq_walk hp t
  rw [hp, horigin, h.steps] at hwalk
  obtain ⟨q, hq, hlast⟩ := FileTree.walk_append hwalk.symm
  have hend : q ++ [name] = p := Except.ok.inj (FileTree.walk_cons.mp hlast).2
  exact ⟨q, hq, hend.symm⟩

theorem parts_ne_nil (cs : List Char) : parts cs ≠ [] := by
  cases cs with
  | nil => exact List.cons_ne_nil _ _
  | cons c cs =>
    rw [parts]
    split
    · exact List.cons_ne_nil _ _
    · split <;> exact List.cons_ne_nil _ _

/-- A slash parts what is before it from what is behind it. -/
theorem parts_append_slash (front back : List Char) : parts (front ++ '/' :: back) = parts front ++ parts back := by
  induction front with
  | nil =>
    obtain ⟨p, ps, hback⟩ := List.exists_cons_of_ne_nil (parts_ne_nil back)
    simp [parts, hback]
  | cons c front ih =>
    obtain ⟨p, ps, hfront⟩ := List.exists_cons_of_ne_nil (parts_ne_nil front)
    rw [List.cons_append, parts, ih, parts, hfront]
    cases c == '/' <;> rfl

theorem parts_of_no_slash {cs : List Char} (h : '/' ∉ cs) : parts cs = [cs] := by
  induction cs with
  | nil => rfl
  | cons c cs ih =>
    obtain ⟨hc, hcs⟩ := not_or.mp (mt List.mem_cons.mpr h)
    rw [parts, ih hcs]
    exact if_neg (by simpa using Ne.symm hc)

/-- A name without dots and slashes is one step. -/
theorem components_name {name : String} (hne : name ≠ "") (hslash : '/' ∉ name.toList) (hdot : '.' ∉ name.toList) :
    components name = [.name name] := by
  have hnil : name.toList ≠ [] := by simpa using hne
  have hhere : name.toList ≠ ['.'] := fun h => hdot (by simp [h])
  have hup : name.toList ≠ ['.', '.'] := fun h => hdot (by simp [h])
  simp [components, parts_of_no_slash hslash, step?, hnil, hhere, hup]

/-- Joining such a name to a root leads directly below the root. -/
theorem directChild_join {name : String} (root : String) (hne : name ≠ "") (hslash : '/' ∉ name.toList)
    (hdot : '.' ∉ name.toList) : DirectChild root name (join root name) := by
  have hname := components_name hne hslash hdot
  obtain ⟨c, cs, hcs⟩ := List.exists_cons_of_ne_nil (show name.toList ≠ [] by simpa using hne)
  have hrel : isAbsolute name = false := by
    simp only [hcs, List.mem_cons, not_or] at hslash
    simp [isAbsolute, hcs, Ne.symm hslash.1]
  rw [join, hrel, if_neg Bool.false_ne_true]
  split
  · next hend =>
    rcases Bool.or_eq_true .. ▸ hend with hempty | hlast
    · obtain rfl : root = "" := by simpa using hempty
      rw [String.empty_append]
      exact ⟨hrel, hname⟩
    · obtain ⟨front, hfront⟩ : ∃ front, root.toList = front ++ ['/'] :=
        List.getLast?_eq_some_iff.mp (by simpa using hlast)
      refine ⟨by simp [isAbsolute, hfront, List.head?_append], ?_⟩
      have hroot : components root = (parts front).filterMap step? := by
        rw [components, hfront, parts_append_slash]
        simp [parts, step?]
      rw [hroot, ← hname, components, String.toList_append, hfront, List.append_assoc, List.singleton_append,
        parts_append_slash, List.filterMap_append]
      rfl
  · next hend =>
    have hroot : root.toList ≠ [] := by
      intro h
      simp [String.toList_eq_nil_iff.mp h] at hend
    refine ⟨?_, ?_⟩
    · obtain ⟨r, rs, hrs⟩ := List.exists_cons_of_ne_nil hroot
      simp [isAbsolute, hrs]
    · rw [← hname, components, String.toList_append, String.toList_append, List.append_assoc]
      change (parts (root.toList ++ '/' :: name.toList)).filterMap step? = _
      rw [parts_append_slash, List.filterMap_append]
      rfl

end Path

namespace Command

/-! ## Reading the name of a directory -/

/-- The number that a digit of base sixteen writes. -/
def digitValue (c : Char) : Nat := if c.toNat < 0x57 then c.toNat - 0x30 else c.toNat - 0x57

/-- The bytes that the name of a directory was written from. -/
def unescape : List Char → Bytes
  | '_' :: high :: low :: cs => UInt8.ofNat (16 * digitValue high + digitValue low) :: unescape cs
  | c :: cs => UInt8.ofNat c.toNat :: unescape cs
  | [] => []

theorem unescape_cons {c : Char} (h : c ≠ '_') (cs : List Char) :
    unescape (c :: cs) = UInt8.ofNat c.toNat :: unescape cs := by
  rw [unescape]
  rintro high low rest rfl
  exact absurd rfl h

/-- The characters that the name of a directory is made of. -/
def isNameChar (c : Char) : Bool := c.isLower || c.isDigit || c == '-' || c == '_'

theorem isNameChar_iff {c : Char} : isNameChar c = true ↔
    (0x61 ≤ c.toNat ∧ c.toNat ≤ 0x7A) ∨ (0x30 ≤ c.toNat ∧ c.toNat ≤ 0x39) ∨ c.toNat = 0x2D ∨ c.toNat = 0x5F := by
  have lower : c.isLower = (decide ('a'.val ≤ c.val) && decide (c.val ≤ 'z'.val)) := rfl
  simp [isNameChar, lower, Char.isDigit, UInt32.le_iff_toNat_le, ← Char.toNat_inj, or_assoc]

theorem hexDigit_spec : ∀ n < 16, digitValue (hexDigit n) = n ∧ isNameChar (hexDigit n) = true := by decide

theorem toNat_ofNat_byte (b : UInt8) : (Char.ofNat b.toNat).toNat = b.toNat := by
  rw [Char.ofNat, dif_pos (.inl (Nat.lt_trans b.toNat_lt (by decide)))]
  rfl

theorem isPlain_iff {b : UInt8} : isPlain b = true ↔
    (0x61 ≤ b.toNat ∧ b.toNat ≤ 0x7A) ∨ (0x30 ≤ b.toNat ∧ b.toNat ≤ 0x39) ∨ b.toNat = 0x2D := by
  simp [isPlain, UInt8.le_iff_toNat_le, ← UInt8.toNat_inj, or_assoc]

/-- A plain byte is written as one character of a name, and not as the one that opens an escape. -/
theorem plain_spec {b : UInt8} (h : isPlain b = true) :
    Char.ofNat b.toNat ≠ '_' ∧ isNameChar (Char.ofNat b.toNat) = true := by
  have hb := isPlain_iff.mp h
  have hc := toNat_ofNat_byte b
  refine ⟨fun hmark => ?_, ?_⟩
  · have : b.toNat = 0x5F := by rw [← hc, hmark]; rfl
    omega
  · rw [isNameChar_iff, hc]
    omega

/-- One byte is read back, whatever is written behind it. -/
theorem unescape_escapeByte (b : UInt8) (rest : List Char) :
    unescape (escapeByte b ++ rest) = b :: unescape rest := by
  unfold escapeByte
  split
  · next h =>
    rw [List.singleton_append, unescape_cons (plain_spec h).1, toNat_ofNat_byte, UInt8.ofNat_toNat]
  · have hhigh := (hexDigit_spec (b.toNat / 16) (by have := b.toNat_lt; omega)).1
    have hlow := (hexDigit_spec (b.toNat % 16) (Nat.mod_lt _ (by decide))).1
    have hbyte : 16 * (b.toNat / 16) + b.toNat % 16 = b.toNat := Nat.div_add_mod _ _
    simp only [List.cons_append, List.nil_append, unescape, hhigh, hlow, hbyte, UInt8.ofNat_toNat]

/-- The whole name is read back. -/
theorem unescape_directoryName (id : String) :
    unescape (directoryName id).toList = Bytes.ofString (Text.fold id) := by
  rw [directoryName, String.toList_ofList]
  induction Bytes.ofString (Text.fold id) with
  | nil => rfl
  | cons b bs ih => rw [List.flatMap_cons, unescape_escapeByte, ih]

/-- Two names of directories are the same only for one fold. -/
theorem directoryName_eq_iff {a b : String} : directoryName a = directoryName b ↔ Text.fold a = Text.fold b := by
  refine ⟨fun h => ?_, fun h => by rw [directoryName, h, directoryName]⟩
  have hbytes : Bytes.ofString (Text.fold a) = Bytes.ofString (Text.fold b) := by
    rw [← unescape_directoryName, h, unescape_directoryName]
  have htext := congrArg Bytes.toString? hbytes
  rw [Bytes.toString?_ofString, Bytes.toString?_ofString] at htext
  exact Option.some.inj htext

theorem isNameChar_of_escapeByte {b : UInt8} {c : Char} (h : c ∈ escapeByte b) : isNameChar c = true := by
  unfold escapeByte at h
  split at h
  · next hplain =>
    rw [List.mem_singleton.mp h]
    exact (plain_spec hplain).2
  · have hhigh := (hexDigit_spec (b.toNat / 16) (by have := b.toNat_lt; omega)).2
    have hlow := (hexDigit_spec (b.toNat % 16) (Nat.mod_lt _ (by decide))).2
    simp only [List.mem_cons, List.not_mem_nil, or_false] at h
    rcases h with rfl | rfl | rfl
    · rfl
    · exact hhigh
    · exact hlow

theorem isNameChar_of_directoryName {id : String} {c : Char} (h : c ∈ (directoryName id).toList) :
    isNameChar c = true := by
  rw [directoryName, String.toList_ofList] at h
  obtain ⟨b, -, hc⟩ := List.mem_flatMap.mp h
  exact isNameChar_of_escapeByte hc

/-- The directory of a source that has an id is directly below the root. -/
theorem directChild_hlsDirectory (settings : Settings) {id : String} (h : id ≠ "") :
    Path.DirectChild settings.hlsRoot (directoryName id) (hlsDirectory settings id) := by
  have hne : directoryName id ≠ "" := by
    intro hempty
    have hnothing : directoryName "" = "" := by simp [directoryName, Text.fold, Bytes.ofString]
    have hfold : Text.fold id = Text.fold "" := directoryName_eq_iff.mp (hempty.trans hnothing.symm)
    exact h (by simpa [Text.fold] using hfold)
  have hout {c : Char} (hc : isNameChar c = false) : c ∉ (directoryName id).toList := fun hmem =>
    Bool.false_ne_true (hc.symm.trans (isNameChar_of_directoryName hmem))
  exact Path.directChild_join _ hne (hout rfl) (hout rfl)

end Command

/-! ## Every component takes the same ids for one source -/

/-- What a fleet knows about sources tells all of them apart. -/
theorem Fleet.fold_eq_of_status? {a b : String} (h : ∀ f : Fleet, f.status? a = f.status? b) :
    Text.fold a = Text.fold b := by
  have hnoted := h ((Fleet.new {} .linux {} (.memory {})).ensure a)
  by_contra hne
  rw [Fleet.status?, Fleet.state?, Fleet.ensure, Fleet.putState, KeyMap.get?_insert_self, Fleet.status?, Fleet.state?,
    KeyMap.get?_insert_of_ne _ _ (Ne.symm hne)] at hnoted
  cases hnoted

/-- The register of the hubs tells all sources apart. -/
theorem Hubs.fold_eq_of_get? {a b : String} (h : ∀ hs : Hubs, hs.get? a = hs.get? b) : Text.fold a = Text.fold b := by
  have hfresh := h (Hubs.reset { capacity := 1 } a).2
  by_contra hne
  rw [Hubs.get?, Hubs.reset, KeyMap.get?_insert_self, Hubs.get?, KeyMap.get?_insert_of_ne _ _ (Ne.symm hne)] at hfresh
  cases hfresh

/-- For any two ids it is the same to say that a source of the one has the other, that their folds agree, that every
fleet knows the same about both, that every register has the same hub for both, and that both have one directory. The
name of that directory is made of small letters, digits, hyphens and underscores, and for an id that is not empty the
directory is directly below the root for such output. -/
theorem identities_agree (settings : Settings) (a b : String) :
    [∀ s : Source, s.id = a → s.hasId b = true,
      Text.fold a = Text.fold b,
      ∀ f : Fleet, f.status? a = f.status? b,
      ∀ hs : Hubs, hs.get? a = hs.get? b,
      Command.directoryName a = Command.directoryName b].TFAE ∧
    (∀ c ∈ (Command.directoryName a).toList, Command.isNameChar c = true) ∧
    (a ≠ "" → Path.DirectChild settings.hlsRoot (Command.directoryName a) (Command.hlsDirectory settings a)) := by
  refine ⟨?_, fun c hc => Command.isNameChar_of_directoryName hc, Command.directChild_hlsDirectory settings⟩
  tfae_have 1 → 2 := fun h => Text.same_iff.mp (h (.new a .file "") rfl)
  tfae_have 2 → 1 := fun h s hs => by rw [Source.hasId, hs, Text.same_iff, h]
  tfae_have 2 → 3 := fun h f => by rw [Fleet.status?, h, Fleet.status?]
  tfae_have 3 → 2 := Fleet.fold_eq_of_status?
  tfae_have 2 → 4 := fun h hs => by rw [Hubs.get?, h, Hubs.get?]
  tfae_have 4 → 2 := Hubs.fold_eq_of_get?
  tfae_have 5 ↔ 2 := Command.directoryName_eq_iff
  tfae_finish

/-- An id that is written with an escape, in two spellings. -/
theorem identities_agree_cam_1 :
    Command.directoryName "Cam_1" = Command.directoryName "cAM_1" ∧
      Path.DirectChild "hls" (Command.directoryName "Cam_1") (Command.hlsDirectory { hlsRoot := "hls" } "Cam_1") := by
  obtain ⟨hsame, -, hchild⟩ := identities_agree { hlsRoot := "hls" } "Cam_1" "cAM_1"
  exact ⟨(hsame.out 1 4).mp (by decide), hchild (by decide)⟩

end EncoderFleet
