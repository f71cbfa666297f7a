import EncoderFleet.Data.Bytes

/-!
# Paths

A path is a text, and stays as it was written: `join` and `withExtension` change only its end. `components` is what the
path says when it is walked; it passes over empty components, while a single dot is a step on the spot, and so can only
be made in a directory. `lastName?` is the name that a path ends in, if it ends in one, with the text before that name.
-/

namespace EncoderFleet.Path

/-- A step of a walk. -/
inductive Component
  | here
  | up
  | name (s : String)
deriving DecidableEq

/-- The parts between slashes, empty ones included. -/
def parts : List Char → List (List Char)
  | [] => [[]]
  | c :: cs =>
    match parts cs with
    | [] => [[c]]
    | p :: ps => if c == '/' then [] :: p :: ps else (c :: p) :: ps

/-- Whether the path starts at the root. -/
def isAbsolute (path : String) : Bool := path.toList.head? == some '/'

/-- The step that a part stands for, if any. -/
def step? (part : List Char) : Option Component :=
  if part == [] then none
  else if part == ['.'] then some .here
  else if part == ['.', '.'] then some .up
  else some (.name (String.ofList part))

/-- The steps that a path stands for. -/
def components (path : String) : List Component := (parts path.toList).filterMap step?

/-- Whether the path ends in a slash, and so can only name a directory. -/
def namesDirectory (path : String) : Bool := path.toList.getLast? == some '/'

/-- Whether the last step of the path is one by name. -/
def endsInName (path : String) : Bool :=
  match (components path).getLast? with
  | some (.name _) => true
  | _ => false

/-- A path below another one. Joining an absolute path replaces, joining the empty one leaves a slash at the end. -/
def join (base name : String) : String :=
  if isAbsolute name then name
  else if base == "" || base.toList.getLast? == some '/' then base ++ name
  else base ++ "/" ++ name

/-- Drop slashes, and dots behind slashes, from the end of a path given last character first. -/
def dropTail : List Char → List Char
  | '/' :: cs => dropTail cs
  | '.' :: '/' :: cs => dropTail ('/' :: cs)
  | cs => cs

/-- The path up to its last name, and that name. -/
def lastName? (path : String) : Option (String × String) :=
  let kept := dropTail path.toList.reverse
  let name := (kept.takeWhile (· != '/')).reverse
  if name == [] || name == ['.'] || name == ['.', '.'] then none
  else some (String.ofList ((kept.dropWhile (· != '/')).reverse), String.ofList name)

/-- A name up to its last dot; a dot at the very front does not count. -/
def stem (name : List Char) : List Char :=
  match name.reverse.dropWhile (· != '.') with
  | [] => name
  | [_] => name
  | _ :: before => before.reverse

/-- The path without the letters after the last dot of its last name, if it ends with that name. -/
def cutExtension (path : String) : String :=
  match lastName? path with
  | none => path
  | some (front, name) =>
    let kept := stem name.toList
    if front ++ name == path && kept != name.toList then front ++ String.ofList kept ++ "." else path

/-- The path with this extension behind the stem of its last name; a path without a last name stays as it is. -/
def putExtension (path extension : String) : String :=
  match lastName? path with
  | none => path
  | some (front, name) => front ++ String.ofList (stem name.toList) ++ "." ++ extension

/-- The path with the extension of its last name replaced. The old extension is cut off first: a name such as `..old`
then leaves two dots, which are no name, and so gets no other extension. -/
def withExtension (path extension : String) : String := putExtension (cutExtension path) extension

/-- The path without its last component; none for the root and the empty path. -/
def parent? (path : String) : Option String :=
  match dropTail path.toList.reverse with
  | [] => none
  | kept =>
    let front := kept.dropWhile (· != '/')
    some (String.ofList (match dropTail front with | [] => if front == [] then [] else ['/'] | f => f.reverse))

end EncoderFleet.Path
