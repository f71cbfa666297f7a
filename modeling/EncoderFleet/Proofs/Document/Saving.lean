import EncoderFleet.Document.Archive
import EncoderFleet.Proofs.Document.Forms
import EncoderFleet.Proofs.Files.Replacing

/-!
# Saves replace one section or nothing

A save makes the directories that lead to the file, writes the new document beside it and renames that file
(`store_cases`). If nothing stands against it, the file then reads as the new document (`load_of_stored`). If something
does, a file that could be read reads the same, and one that can be read now was there before (`Unharmed`,
`unharmed_of_refused`). `save_replaces_section_or_spares` says both of saves of the sources and of
the selection.
-/

namespace EncoderFleet

namespace Bytes

theorem toList_loop (bs : ByteArray) (i : Nat) (acc : List UInt8) :
    ByteArray.toList.loop bs i acc = acc.reverse ++ bs.data.toList.drop i := by
  fun_induction ByteArray.toList.loop bs i acc with
  | case1 i acc hlt ih =>
    have hi : i < bs.data.toList.length := by simpa using hlt
    have hget : bs.get! i = bs.data.toList[i] := by
      rw [Array.getElem_toList]
      exact getElem!_pos bs.data i hlt
    rw [ih, List.drop_eq_getElem_cons hi, hget, List.reverse_cons, List.append_assoc, List.singleton_append]
  | case2 i acc hge =>
    rw [List.drop_eq_nil_of_le (by simpa using hge), List.append_nil]

/-- A text is read back from its UTF-8 form. -/
theorem toString?_ofString (s : String) : toString? (ofString s) = some s := by
  have hbytes : (⟨(ofString s).toArray⟩ : ByteArray) = s.toUTF8 := by
    rw [ofString, ByteArray.toList, toList_loop]
    simp
  rw [toString?, hbytes]
  exact dif_pos s.isValidUTF8

end Bytes

namespace Document

open FileTree (Grows)

variable {files files' : FileTree} {path : String} {d : Document} {o : Option Fault}

/-! ## What storing does to the files -/

theorem grows_makeWay (files : FileTree) (path : String) : Grows files (makeWay files path).1 := by
  unfold makeWay
  split
  · exact .refl files
  · exact FileTree.grows_makeDirectories files _

/-- Directories were made, and then perhaps the document was written beside the file and renamed, or its rename was
refused. -/
theorem store_cases (h : store files path d = (files', o)) :
    (Grows files files' ∧ o ≠ none) ∨
      ∃ way there, Grows files way ∧
        way.write (Path.withExtension path "json.tmp") (Bytes.ofString d.render) = .ok there ∧
        ((o = none ∧ there.rename (Path.withExtension path "json.tmp") path = .ok files') ∨
          ∃ fault, o = some fault ∧ there.rename (Path.withExtension path "json.tmp") path = .error fault ∧
            files' = there) := by
  have hgrows := grows_makeWay files path
  -- The way is made, the document is written aside and renamed; each of the three may be refused.
  unfold store at h
  split at h
  · next heq =>
    cases h
    rw [heq] at hgrows
    exact .inl ⟨hgrows, Option.some_ne_none _⟩
  · next way heq =>
    rw [heq] at hgrows
    dsimp only at h
    split at h
    · cases h
      exact .inl ⟨hgrows, Option.some_ne_none _⟩
    · next there hwrite =>
      refine .inr ⟨way, there, hgrows, hwrite, ?_⟩
      split at h
      · next fault hrename =>
        cases h
        exact .inr ⟨fault, rfl, hrename, rfl⟩
      · next hrename =>
        cases h
        exact .inl ⟨rfl, hrename⟩

theorem rooted_store (hr : files.Rooted) (h : store files path d = (files', o)) : files'.Rooted := by
  rcases store_cases h with ⟨hgrows, -⟩ | ⟨way, there, hgrows, hwrite, ⟨-, hrename⟩ | ⟨fault, -, -, rfl⟩⟩
  · exact hgrows.rooted hr
  · exact ((hgrows.rooted hr).write hwrite).rename hrename
  · exact (hgrows.rooted hr).write hwrite

/-- What was stored is loaded. -/
theorem load_of_stored (h : store files path d = (files', none)) : load files' path = .ok d := by
  rcases store_cases h with ⟨-, hne⟩ | ⟨way, there, -, hwrite, ⟨-, hrename⟩ | ⟨fault, ho, -⟩⟩
  · exact absurd rfl hne
  · obtain ⟨-, -, -, -, hold⟩ := FileTree.write_cases hwrite
    have hnew := FileTree.read_of_rename hrename hold
    have htext : files'.readText path = .ok d.render := by
      refine FileTree.bind_eq_ok.mpr ⟨_, hnew, ?_⟩
      rw [Bytes.toString?_ofString]
    rw [load, htext]
    exact d.parse_render
  · cases ho

/-- A file that could be read at the path reads the same. What can be read at the path could be read before, or the path
went up out of a directory that was missing, and now leads to a file that was there. -/
structure Unharmed (files files' : FileTree) (path : String) : Prop where
  kept {bs : Bytes} (h : files.read path = .ok bs) : files'.read path = .ok bs
  known {bs : Bytes} (h : files'.read path = .ok bs) : files.read path = .ok bs ∨
    files.resolve path = .error .notFound ∧ .up ∈ Path.components path ∧
      ∃ p, files'.resolve path = .ok p ∧ files.node? p = some (.file bs)

theorem Unharmed.of_grows (hr : files.Rooted) (h : Grows files files') : Unharmed files files' path :=
  ⟨fun hread => h.read hread, fun hread => h.read_cases hr hread⟩

theorem unharmed_of_refused {fault : Fault} (hr : files.Rooted) (h : store files path d = (files', some fault)) :
    Unharmed files files' path := by
  rcases store_cases h with ⟨hgrows, -⟩ | ⟨way, there, hgrows, hwrite, ⟨ho, -⟩ | ⟨_, -, hrefused, rfl⟩⟩
  · exact .of_grows hr hgrows
  · cases ho
  · have hway := hgrows.rooted hr
    refine ⟨fun hread => hway.read_of_refused hwrite hrefused (hgrows.read hread), fun {bs} hread => ?_⟩
    rcases hgrows.read_cases hr (hway.read_before_refused hwrite hrefused hread) with hbefore | ⟨hmiss, hup, p, hp, hn⟩
    · exact .inl hbefore
    · exact .inr ⟨hmiss, hup, p, FileTree.resolve_of_keeps (FileTree.keeps_write hwrite) hp, hn⟩

/-- A document that cannot be read is not changed; one that can be is changed and stored, or storing it fails. -/
theorem update_cases (files : FileTree) (path : String) (change : Document → Document) :
    (∃ f, load files path = .error f ∧ update files path change = (files, .failed (some path) f)) ∨
    (∃ d files', load files path = .ok d ∧ store files path (change d) = (files', none) ∧
      update files path change = (files', .saved (some path))) ∨
    ∃ d files' fault, load files path = .ok d ∧ store files path (change d) = (files', some fault) ∧
      update files path change = (files', .failed (some path) (.io fault)) := by
  unfold update
  cases load files path with
  | error f => exact .inl ⟨f, rfl, rfl⟩
  | ok d =>
    rcases hstore : store files path (change d) with ⟨files', _ | fault⟩
    · exact .inr (.inl ⟨d, files', rfl, hstore, by simp only [hstore]⟩)
    · exact .inr (.inr ⟨d, files', fault, rfl, hstore, by simp only [hstore]⟩)

/-- A save that went well has read the document, and what is read after it is the changed one. -/
theorem load_of_update {change : Document → Document} (h : (update files path change).2.ok = true) :
    ∃ d, load files path = .ok d ∧ load (update files path change).1 path = .ok (change d) := by
  rcases update_cases files path change with ⟨f, -, hupdate⟩ | ⟨d, files', hload, hstore, hupdate⟩ |
      ⟨d, files', fault, -, -, hupdate⟩
  · rw [hupdate] at h
    cases h
  · rw [hupdate]
    exact ⟨d, hload, load_of_stored hstore⟩
  · rw [hupdate] at h
    cases h

end Document

/-! ## What a save does -/

namespace Archive

open Document (Unharmed)

/-- The document that is kept. -/
def read (a : Archive) (files : FileTree) : Except Failure Document :=
  match a with
  | memory d => .ok d
  | file path => Document.load files path

theorem read_update {a : Archive} {files : FileTree} {change : Document → Document}
    (h : (a.update files change).2.2.ok = true) :
    ∃ d, a.read files = .ok d ∧ (a.update files change).1.read (a.update files change).2.1 = .ok (change d) := by
  cases a with
  | memory d => exact ⟨d, rfl, rfl⟩
  | file path => exact Document.load_of_update h

/-- A save of one section of the document in a file: it was read and reads with the section replaced, or what is at the
path is unharmed. -/
structure ReplacesOrSpares (files : FileTree) (path : String) (change : Document → Document)
    (saved : Archive × FileTree × SaveOutcome) : Prop where
  stays : saved.1 = .file path
  rooted : saved.2.1.Rooted
  replaced (h : saved.2.2.ok = true) : ∃ d, Document.load files path = .ok d ∧
    (files.readText path = .error .notFound → d = {}) ∧ Document.load saved.2.1 path = .ok (change d)
  spared (h : saved.2.2.ok = false) : Unharmed files saved.2.1 path

theorem replacesOrSpares_update {files : FileTree} (hr : files.Rooted) (path : String) (change : Document → Document) :
    ReplacesOrSpares files path change ((Archive.file path).update files change) := by
  refine ⟨rfl, ?_, fun h => ?_, fun h => ?_⟩
  · rcases Document.update_cases files path change with ⟨f, -, hupdate⟩ | ⟨d, files', -, hstore, hupdate⟩ |
        ⟨d, files', fault, -, hstore, hupdate⟩
    · rw [update, hupdate]
      exact hr
    · rw [update, hupdate]
      exact Document.rooted_store hr hstore
    · rw [update, hupdate]
      exact Document.rooted_store hr hstore
  · obtain ⟨d, hload, hload'⟩ := Document.load_of_update h
    refine ⟨d, hload, fun habsent => ?_, hload'⟩
    rw [Document.load, habsent] at hload
    exact (Except.ok.inj hload).symm
  · rcases Document.update_cases files path change with ⟨f, -, hupdate⟩ | ⟨d, files', -, -, hupdate⟩ |
        ⟨d, files', fault, -, hstore, hupdate⟩
    · rw [update, hupdate]
      exact .of_grows hr (.refl files)
    · rw [update, hupdate] at h
      cases h
    · rw [update, hupdate]
      exact Document.unharmed_of_refused hr hstore

/-- Saves of a section replace it and nothing else, or they fail and harm nothing. -/
theorem save_replaces_section_or_spares (files : FileTree) (path : String) (hr : files.Rooted) :
    (∀ sources, ReplacesOrSpares files path (fun d => { d with sources := sources })
      ((Archive.file path).saveSources files sources)) ∧
    ∀ name, ReplacesOrSpares files path (fun d => { d with activeProfile := name })
      ((Archive.file path).saveActiveProfile files name) :=
  ⟨fun _ => replacesOrSpares_update hr path _, fun _ => replacesOrSpares_update hr path _⟩

/-- A first save makes the file, and it reads as the default with the new section. -/
theorem first_save_of_sources :
    FileTree.empty.Rooted ∧
    ((Archive.file "etc/fleet.json").saveSources .empty [{ id := "cam", kind := .url, locator := "" }]).2.2.ok = true ∧
    Document.load ((Archive.file "etc/fleet.json").saveSources .empty [{ id := "cam", kind := .url, locator := "" }]).2.1
      "etc/fleet.json" = .ok { sources := [{ id := "cam", kind := .url, locator := "" }] } := by
  have hok : ((Archive.file "etc/fleet.json").saveSources .empty
      [{ id := "cam", kind := .url, locator := "" }]).2.2.ok = true := by decide +kernel
  have habsent : FileTree.empty.readText "etc/fleet.json" = .error .notFound := by decide +kernel
  obtain ⟨d, -, hd, hload⟩ :=
    ((save_replaces_section_or_spares .empty "etc/fleet.json" FileTree.rooted_empty).1 _).replaced hok
  rw [hd habsent] at hload
  exact ⟨FileTree.rooted_empty, hok, hload⟩

/-- The text of a document in which a profile is selected. -/
def kept : String := "\x7b\"active_profile\":\"quality\"\x7d"

/-- A document in a file, and a directory under the name that a save of it would write aside. -/
def blocked : FileTree :=
  (FileTree.empty.put ["work", "f"] (.file (Bytes.ofString kept))).put ["work", "f.json.tmp"] .directory

/-- A path that goes up out of a missing directory reads nothing, and the empty document is loaded. A save that fails on
the way has made that directory: the path then reads a file that was there before, and its document is loaded. -/
theorem detour_opened_by_failed_save :
    blocked.Rooted ∧ blocked.read "g/../f" = .error .notFound ∧ Document.load blocked "g/../f" = .ok {} ∧
    ((Archive.file "g/../f").saveActiveProfile blocked "low-latency").2.2.ok = false ∧
    ((Archive.file "g/../f").saveActiveProfile blocked "low-latency").2.1.read "g/../f" = .ok (Bytes.ofString kept) ∧
    Document.load ((Archive.file "g/../f").saveActiveProfile blocked "low-latency").2.1 "g/../f" =
      .ok { activeProfile := "quality" } := by
  refine ⟨?_, ?_, ?_, ?_, ?_, ?_⟩
  · refine (FileTree.rooted_empty.put (List.cons_ne_nil _ _) ?_ ?_).put (List.cons_ne_nil _ _) ?_ fun _ => rfl
    · decide +kernel
    · decide +kernel
    · decide +kernel
  · decide +kernel
  · decide +kernel
  · decide +kernel
  · decide +kernel
  · decide +kernel

end Archive

end EncoderFleet
