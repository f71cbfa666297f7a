/-!
# Faults of the file system and of processes

What the operating system may answer instead of doing what it was asked. `Fault.message` is the wording of each.
-/

namespace EncoderFleet

/-- A refusal of the operating system. -/
inductive Fault
  | notFound
  | accessDenied
  /-- A place that is in use, as every place is that a path names without a name. -/
  | busy
  | alreadyExists
  | notDirectory
  | isDirectory
  | nameTooLong
  /-- The file holds bytes that are no UTF-8 text. -/
  | notText
  /-- A file name with a NUL. -/
  | nulInName
  /-- A program name or argument with a NUL. -/
  | nulInArgument
  /-- Any other refusal, in the words of whoever refused. -/
  | other (text : String)
deriving DecidableEq

/-- The wording of a refusal; those of the system itself carry their number. -/
def Fault.message : Fault → String
  | .notFound => "No such file or directory (os error 2)"
  | .accessDenied => "Permission denied (os error 13)"
  | .busy => "Device or resource busy (os error 16)"
  | .alreadyExists => "File exists (os error 17)"
  | .notDirectory => "Not a directory (os error 20)"
  | .isDirectory => "Is a directory (os error 21)"
  | .nameTooLong => "File name too long (os error 36)"
  | .notText => "stream did not contain valid UTF-8"
  | .nulInName => "file name contained an unexpected NUL byte"
  | .nulInArgument => "nul byte found in provided data"
  | .other text => text

end EncoderFleet
