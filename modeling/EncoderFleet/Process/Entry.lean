import EncoderFleet.Text.Arguments
import EncoderFleet.Text.Identity

/-!
# Entries of a process table

An entry of a process table has a pid, the name of the program and the arguments that the process was started with, the
program among them. `Entry.new` takes the name from the arguments, and no entry is made in another way. A process *runs*
an executable when its name and that of the executable agree, the case of letters and an extension `.exe` aside, and
*carries* a signature when the signature stands somewhere among its arguments, unbroken and word for word.
-/

namespace EncoderFleet

/-- A running process. -/
structure Entry where
  pid : UInt32
  /-- The file name of the program. -/
  name : String
  /-- The arguments, the program first. -/
  cmdline : List String
deriving DecidableEq

namespace Entry

/-- The process with these arguments, under the file name of its program; without arguments it has no name. -/
def new (pid : UInt32) (cmdline : List String) : Entry where
  pid := pid
  name := (cmdline.head?.map Text.baseName).getD ""
  cmdline := cmdline

/-- A program name without its extension `.exe`; a name that is nothing else keeps it. -/
def stem (name : String) : String :=
  let cs := name.toList
  if 4 < cs.length ∧ Text.endsWithFolded cs ".exe".toList then String.ofList (cs.take (cs.length - 4)) else name

/-- Whether the process runs an executable. -/
def runs (e : Entry) (executable : String) : Bool := Text.same (stem e.name) (stem executable)

/-- Whether a list of words stands somewhere in another, unbroken. -/
def standsIn (words : List String) : List String → Bool
  | [] => words.isEmpty
  | a :: as => words.isPrefixOf (a :: as) || standsIn words as

/-- Whether the process carries a signature; no process carries the empty one. -/
def carries (e : Entry) (signature : List String) : Bool := !signature.isEmpty && standsIn signature e.cmdline

end Entry

end EncoderFleet
