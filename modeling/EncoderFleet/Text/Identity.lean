/-!
# Identity of names

Sources, profiles and hubs are named by texts in which the case of an ASCII letter carries no meaning. `fold` picks one
spelling for each identity, and two texts are the `Same` name exactly when their folds agree.
-/

namespace EncoderFleet.Text

/-- The spelling that stands for an identity: ASCII capitals become small letters, all else stays. -/
def fold (s : String) : String := String.ofList (s.toList.map Char.toLower)

/-- Two spellings of one name. -/
def same (a b : String) : Bool := fold a == fold b

theorem same_iff {a b : String} : same a b = true ↔ fold a = fold b := by simp [same]

theorem same_refl (a : String) : same a a = true := by simp [same]

theorem same_comm (a b : String) : same a b = same b a := by simp [same, Bool.beq_comm]

/-- The last component of a program path; both slashes separate components. -/
def baseName (path : String) : String :=
  String.ofList (path.toList.reverse.takeWhile fun c => c != '/' && c != '\\').reverse

/-- Whether the text ends with `ending`, the case of ASCII letters aside. -/
def endsWithFolded (text ending : List Char) : Bool :=
  (text.map Char.toLower).drop (text.length - ending.length) == ending.map Char.toLower

end EncoderFleet.Text
