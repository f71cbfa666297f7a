import EncoderFleet.Document.Basic
import EncoderFleet.Files.Tree

/-!
# Keeping the configuration

An `Archive` is where the document is kept: a JSON file, or memory. A save replaces one section and keeps the others: it
loads the document, changes the section, writes the whole into a file beside the document and renames that file, so that
the document is at every moment either the old one or the new one.
-/

namespace EncoderFleet

namespace Document

/-- The document in a file; the empty one if there is no such file. -/
def load (files : FileTree) (path : String) : Except Failure Document :=
  match files.readText path with
  | .ok text => parse text
  | .error .notFound => .ok {}
  | .error fault => .error (.io fault)

/-- Make the directories that lead to a file. -/
def makeWay (files : FileTree) (path : String) : FileTree × Option Fault :=
  match Path.parent? path with
  | none => (files, none)
  | some up => files.makeDirectories up

/-- Write a document into a file, by way of a file beside it. Answers with the tree that is left, whatever happened, and
with the fault that stopped the work, if one did. -/
def store (files : FileTree) (path : String) (d : Document) : FileTree × Option Fault :=
  match makeWay files path with
  | (files, some fault) => (files, some fault)
  | (files, none) =>
    let aside := Path.withExtension path "json.tmp"
    match files.write aside (Bytes.ofString d.render) with
    | .error fault => (files, some fault)
    | .ok files =>
      match files.rename aside path with
      | .error fault => (files, some fault)
      | .ok files => (files, none)

/-- Change the document in a file. -/
def update (files : FileTree) (path : String) (change : Document → Document) : FileTree × SaveOutcome :=
  match load files path with
  | .error f => (files, .failed (some path) f)
  | .ok d =>
    match store files path (change d) with
    | (files, none) => (files, .saved (some path))
    | (files, some fault) => (files, .failed (some path) (.io fault))

end Document

/-- Where the document is kept. -/
inductive Archive
  | memory (d : Document)
  | file (path : String)

namespace Archive

/-- Change the document that is kept. -/
def update (a : Archive) (files : FileTree) (change : Document → Document) : Archive × FileTree × SaveOutcome :=
  match a with
  | memory d => (memory (change d), files, .saved none)
  | file path => let r := Document.update files path change; (file path, r.1, r.2)

/-- Keep these sources. -/
def saveSources (a : Archive) (files : FileTree) (sources : List Source) : Archive × FileTree × SaveOutcome :=
  a.update files fun d => { d with sources := sources }

/-- Keep this selection of a profile. -/
def saveActiveProfile (a : Archive) (files : FileTree) (name : String) : Archive × FileTree × SaveOutcome :=
  a.update files fun d => { d with activeProfile := name }

end Archive

end EncoderFleet
