import EncoderFleet.Files.Tree
import Mathlib.Data.List.Induction

/-!
# Walks through a tree of files

A walk only passes through directories, and so it leads to the same place in every tree that has those directories
(`walk_of_keeps`, `resolve_of_keeps`). What a path leads to is a step from a directory (`exists_last_step`); in a tree
in which everything lies in a directory (`Rooted`), a path that leads to no directory ends in a name
(`Rooted.endsInName`).

Making directories only ever adds directories where nothing stood (`Grows`, `grows_makeDirectories`). A file that could
be read before reads the same after that (`Grows.read`). A file that can be read after it could be read before, unless
the path went up out of a directory that was missing (`Grows.read_cases`).
-/

namespace EncoderFleet.FileTree

variable {t u v : FileTree} {a p q : Place} {path : String}

/-- What the steps of an operation found, if the whole of it succeeded. -/
theorem bind_eq_ok {α β : Type} {x : Except Fault α} {next : α → Except Fault β} {b : β} :
    x >>= next = .ok b ↔ ∃ a, x = .ok a ∧ next a = .ok b := by
  cases x with
  | error f =>
    constructor
    · intro h
      cases h
    · rintro ⟨a, h, -⟩
      cases h
  | ok a =>
    refine ⟨fun h => ⟨a, rfl, h⟩, ?_⟩
    rintro ⟨a', h, hb⟩
    cases h
    exact hb

/-! ## Single places -/

@[simp] theorem node?_root (t : FileTree) : t.node? [] = some .directory := rfl

theorem node?_put (hp : p ≠ []) (n : FileNode) (q : Place) :
    (t.put p n).node? q = if q = p then some n else t.node? q := by
  unfold node? put
  by_cases hq : q = []
  · subst hq
    rw [if_pos rfl, if_neg (Ne.symm hp), if_pos rfl]
  · rw [if_neg hq, KeyMap.get?_insert, if_neg hq]

/-- The root is a directory. -/
theorem ne_root (h : t.node? p ≠ some .directory) : p ≠ [] := by
  rintro rfl
  exact h rfl

theorem find_eq_ok {o : Option FileNode} (h : t.find p = .ok o) : t.node? p = o := by
  unfold find at h
  split at h
  · cases h
  · exact Except.ok.inj h

/-- Whether a name is too long does not depend on the tree. -/
theorem find_of_find {o : Option FileNode} (h : t.find p = .ok o) (u : FileTree) : u.find p = .ok (u.node? p) := by
  unfold find at h ⊢
  split at h
  · cases h
  · rw [if_neg ‹_›]

/-! ## Walks -/

/-- Where a step leads to. -/
def follow (a : Place) : Path.Component → Place
  | .here => a
  | .up => a.dropLast
  | .name s => a ++ [s]

theorem walk_next (t : FileTree) (a : Place) (c : Path.Component) (cs : List Path.Component) :
    t.walk a (c :: cs) =
      match t.find a with
      | .error f => .error f
      | .ok none => .error .notFound
      | .ok (some (.file _)) => .error .notDirectory
      | .ok (some .directory) => t.walk (follow a c) cs := by
  cases c <;> rfl

theorem walk_cons {c : Path.Component} {cs : List Path.Component} :
    t.walk a (c :: cs) = .ok p ↔ t.find a = .ok (some .directory) ∧ t.walk (follow a c) cs = .ok p := by
  rw [walk_next]
  constructor
  · intro h
    split at h
    · cases h
    · cases h
    · cases h
    · exact ⟨‹_›, h⟩
  · rintro ⟨hf, hw⟩
    rw [hf]
    exact hw

theorem walk_append {cs ds : List Path.Component} (h : t.walk a (cs ++ ds) = .ok p) :
    ∃ b, t.walk a cs = .ok b ∧ t.walk b ds = .ok p := by
  induction cs generalizing a with
  | nil => exact ⟨a, rfl, h⟩
  | cons c cs ih =>
    obtain ⟨hf, hw⟩ := walk_cons.mp h
    obtain ⟨b, hb, hd⟩ := ih hw
    exact ⟨b, walk_cons.mpr ⟨hf, hb⟩, hd⟩

/-- A tree has all directories of another one, and paths start at the same place. -/
structure Keeps (t u : FileTree) : Prop where
  start : u.start = t.start
  directory {q : Place} (h : t.node? q = some .directory) : u.node? q = some .directory

/-- Something is put where no directory is lost by it. -/
theorem keeps_put {n : FileNode} (hp : p ≠ []) (hn : t.node? p = some .directory → n = .directory) :
    Keeps t (t.put p n) := by
  refine ⟨rfl, fun {q} hq => ?_⟩
  rw [node?_put hp]
  split
  · next heq =>
    subst heq
    rw [hn hq]
  · exact hq

/-- A walk leads to the same place in every tree that has the directories on the way. -/
theorem walk_of_keeps (hk : Keeps t u) {cs : List Path.Component} (h : t.walk a cs = .ok p) : u.walk a cs = .ok p := by
  induction cs generalizing a with
  | nil => exact h
  | cons c cs ih =>
    obtain ⟨hf, hw⟩ := walk_cons.mp h
    refine walk_cons.mpr ⟨?_, ih hw⟩
    rw [find_of_find hf u, hk.directory (find_eq_ok hf)]

/-- Without a step up a walk only goes down. -/
theorem prefix_of_walk {cs : List Path.Component} (hup : .up ∉ cs) (h : t.walk a cs = .ok p) : a <+: p := by
  induction cs generalizing a with
  | nil =>
    obtain rfl : a = p := Except.ok.inj h
    exact List.prefix_rfl
  | cons c cs ih =>
    obtain ⟨hc, hcs⟩ := not_or.mp (mt List.mem_cons.mpr hup)
    have hnext := ih hcs (walk_cons.mp h).2
    cases c with
    | here => exact hnext
    | up => exact absurd rfl hc
    | name s => exact (List.prefix_append a [s]).trans hnext

/-! ## Paths -/

/-- Where the walk along a path begins. -/
def origin (t : FileTree) (path : String) : Place := if Path.isAbsolute path then [] else t.start

/-- A path that is resolved in one tree is walked in every tree. -/
theorem resolve_eq_walk (h : t.resolve path = .ok p) (u : FileTree) :
    u.resolve path = u.walk (u.origin path) (Path.components path) := by
  unfold resolve at h ⊢
  split at h
  · cases h
  split at h
  · cases h
  split at h
  · cases h
  rw [if_neg ‹_›, if_neg ‹_›, if_neg ‹_›]
  rfl

theorem resolve_of_keeps (hk : Keeps t u) (h : t.resolve path = .ok p) : u.resolve path = .ok p := by
  rw [resolve_eq_walk h u, origin, hk.start]
  exact walk_of_keeps hk ((resolve_eq_walk h t).symm.trans h)

/-- A relative path has a first step. -/
theorem components_ne_nil (hp : path ≠ "") (hr : Path.isAbsolute path = false) : Path.components path ≠ [] := by
  unfold Path.components
  unfold Path.isAbsolute at hr
  cases hl : path.toList with
  | nil => exact absurd (String.toList_eq_nil_iff.mp hl) hp
  | cons c cs =>
    have hc : (c == '/') = false := by
      rw [hl] at hr
      simpa using hr
    have hstep : ∀ p, Path.step? (c :: p) ≠ none := by
      intro p h
      unfold Path.step? at h
      repeat' split at h
      all_goals cases h
      contradiction
    rw [Path.parts]
    cases Path.parts cs with
    | nil => exact fun h => hstep [] (List.filterMap_eq_nil_iff.mp h _ List.mem_cons_self)
    | cons p ps =>
      simp only [hc, Bool.false_eq_true, if_false]
      exact fun h => hstep p (List.filterMap_eq_nil_iff.mp h _ List.mem_cons_self)

/-- A path leads to the root, or its last step leads there from a directory. -/
theorem exists_last_step (h : t.resolve path = .ok p) :
    p = [] ∨ ∃ b c, (Path.components path).getLast? = some c ∧ t.node? b = some .directory ∧ p = follow b c := by
  have hw := (resolve_eq_walk h t).symm.trans h
  rcases List.eq_nil_or_concat (Path.components path) with hnil | ⟨cs, c, hcs⟩
  · -- Only an absolute path has no steps.
    refine .inl ?_
    have hne : path ≠ "" := by
      rintro rfl
      cases h
    have habs : Path.isAbsolute path = true := by
      by_contra hr
      exact components_ne_nil hne (Bool.eq_false_iff.mpr hr) hnil
    rw [hnil, origin, if_pos habs] at hw
    exact (Except.ok.inj hw).symm
  · refine .inr ?_
    rw [List.concat_eq_append] at hcs
    rw [hcs] at hw
    obtain ⟨b, -, hb⟩ := walk_append hw
    obtain ⟨hf, hb⟩ := walk_cons.mp hb
    exact ⟨b, c, by simp [hcs], find_eq_ok hf, (Except.ok.inj hb).symm⟩

/-- Everything in the tree lies in a directory. -/
def Rooted (t : FileTree) : Prop := ∀ p n, t.node? p = some n → p ≠ [] → t.node? p.dropLast = some .directory

theorem Rooted.parent (hr : t.Rooted) (h : t.node? p = some .directory) : t.node? p.dropLast = some .directory := by
  by_cases hp : p = []
  · subst hp
    rfl
  · exact hr p .directory h hp

/-- Something is put into a directory. -/
theorem Rooted.put {n : FileNode} (hr : t.Rooted) (hp : p ≠ []) (hd : t.node? p.dropLast = some .directory)
    (hn : t.node? p = some .directory → n = .directory) : (t.put p n).Rooted := by
  intro q m hq hne
  refine (keeps_put hp hn).directory ?_
  rw [node?_put hp] at hq
  split at hq
  · next heq =>
    rw [heq]
    exact hd
  · exact hr q m hq hne

theorem rooted_bare (start : Place) : Rooted { start := start } := by
  intro p n hp hne
  rw [node?, if_neg hne] at hp
  cases hp

theorem rooted_empty : empty.Rooted :=
  (rooted_bare ["work"]).put (List.cons_ne_nil _ _) rfl fun _ => rfl

/-- Where something stands, something stands on every place on the way. -/
theorem Rooted.node_of_prefix (hr : t.Rooted) {n : FileNode} (h : t.node? p = some n) (ha : a <+: p) :
    t.node? a ≠ none := by
  obtain ⟨l, rfl⟩ := ha
  induction l using List.reverseRecOn generalizing n with
  | nil => simpa using Option.ne_none_iff_exists'.mpr ⟨n, h⟩
  | append_singleton l s ih =>
    have hd := hr _ n h (by simp)
    rw [← List.append_assoc, List.dropLast_concat] at hd
    exact ih hd

/-- A path that leads to no directory ends in a name. -/
theorem Rooted.endsInName (hr : t.Rooted) (h : t.resolve path = .ok p) (hn : t.node? p ≠ some .directory) :
    Path.endsInName path = true := by
  rcases exists_last_step h with rfl | ⟨b, c, hc, hb, rfl⟩
  · exact absurd (node?_root t) hn
  · cases c with
    | here => exact absurd hb hn
    | up => exact absurd (hr.parent hb) hn
    | name s => rw [Path.endsInName, hc]

/-- What a path leads to lies in a directory. -/
theorem Rooted.lies_in (hr : t.Rooted) (h : t.resolve path = .ok p) : t.node? p.dropLast = some .directory := by
  rcases exists_last_step h with rfl | ⟨b, c, -, hb, rfl⟩
  · rfl
  · cases c with
    | here => exact hr.parent hb
    | up => exact hr.parent (hr.parent hb)
    | name s =>
      rw [follow, List.dropLast_concat]
      exact hb

/-! ## Making directories -/

/-- A tree has grown: directories were added where nothing stood, and each of them lies in a directory. -/
structure Grows (t u : FileTree) : Prop where
  start : u.start = t.start
  node (q : Place) : u.node? q = t.node? q ∨ t.node? q = none ∧ u.node? q = some .directory
  rooted (h : t.Rooted) : u.Rooted

theorem Grows.refl (t : FileTree) : Grows t t := ⟨rfl, fun _ => .inl rfl, id⟩

theorem Grows.trans (h : Grows t u) (h' : Grows u v) : Grows t v := by
  refine ⟨h'.start.trans h.start, fun q => ?_, fun hr => h'.rooted (h.rooted hr)⟩
  rcases h.node q with hq | ⟨hn, hq⟩
  · rw [← hq]
    exact h'.node q
  · refine .inr ⟨hn, ?_⟩
    rcases h'.node q with hq' | ⟨hn', -⟩
    · rw [hq', hq]
    · rw [hq] at hn'
      cases hn'

theorem Grows.keeps (h : Grows t u) : Keeps t u := by
  refine ⟨h.start, fun {q} hq => ?_⟩
  rcases h.node q with he | ⟨hn, -⟩
  · rw [he, hq]
  · rw [hq] at hn
    cases hn

theorem grows_makeDirectory (h : t.makeDirectory path = .ok u) : Grows t u := by
  obtain ⟨p, hp, h⟩ := bind_eq_ok.mp h
  obtain ⟨o, hf, h⟩ := bind_eq_ok.mp h
  cases o with
  | some n => cases h
  | none =>
    cases h
    have hnone := find_eq_ok hf
    have hne : p ≠ [] := by
      rintro rfl
      cases hnone
    refine ⟨rfl, fun q => ?_, fun hr => hr.put hne (hr.lies_in hp) fun _ => rfl⟩
    rw [node?_put hne]
    split
    · next heq => exact .inr ⟨heq ▸ hnone, rfl⟩
    · exact .inl rfl

theorem grows_makeDirectoriesWithin (fuel : Nat) (t : FileTree) (path : String) :
    Grows t (makeDirectoriesWithin fuel t path).1 := by
  induction fuel generalizing t path with
  | zero => exact .refl t
  | succ fuel ih =>
    rw [makeDirectoriesWithin]
    split
    · exact .refl t
    · split
      · exact grows_makeDirectory ‹_›
      · split
        · exact .refl t
        · next up _ =>
          -- The directories above are made first, and they stay even if this one cannot be made.
          have hup := ih t up
          split
          · next heq =>
            rw [heq] at hup
            exact hup
          · next heq =>
            rw [heq] at hup
            split
            · exact hup.trans (grows_makeDirectory ‹_›)
            · exact hup
      · exact .refl t

theorem grows_makeDirectories (t : FileTree) (path : String) : Grows t (t.makeDirectories path).1 :=
  grows_makeDirectoriesWithin (path.length + 1) t path

/-! ## Reading -/

theorem read_eq_ok_iff {bs : Bytes} : t.read path = .ok bs ↔
    ∃ p, t.resolve path = .ok p ∧ t.find p = .ok (some (.file bs)) ∧ Path.namesDirectory path = false := by
  unfold read
  constructor
  · intro h
    obtain ⟨p, hp, h⟩ := bind_eq_ok.mp h
    obtain ⟨o, hf, h⟩ := bind_eq_ok.mp h
    match o, h with
    | some (.file content), h =>
      dsimp only at h
      split at h
      · cases h
      · cases h
        exact ⟨p, hp, hf, Bool.eq_false_iff.mpr ‹_›⟩
  · rintro ⟨p, hp, hf, hd⟩
    refine bind_eq_ok.mpr ⟨p, hp, bind_eq_ok.mpr ⟨_, hf, ?_⟩⟩
    simp only [hd, Bool.false_eq_true, if_false]

/-- A file reads the same in every tree that has the directories on the way and the file itself. -/
theorem read_of_keeps {bs : Bytes} (hk : Keeps t u) (hp : t.resolve path = .ok p) (h : t.read path = .ok bs)
    (hu : u.node? p = t.node? p) : u.read path = .ok bs := by
  obtain ⟨p', hp', hf, hd⟩ := read_eq_ok_iff.mp h
  obtain rfl : p' = p := Except.ok.inj (hp'.symm.trans hp)
  refine read_eq_ok_iff.mpr ⟨p', resolve_of_keeps hk hp, ?_, hd⟩
  rw [find_of_find hf u, hu, find_eq_ok hf]

theorem Grows.node_of_file (h : Grows t u) {bs : Bytes} (hu : u.node? p = some (.file bs)) :
    t.node? p = some (.file bs) := by
  rcases h.node p with he | ⟨-, hd⟩
  · rw [← he, hu]
  · rw [hu] at hd
    cases hd

/-- A file reads the same after directories were made. -/
theorem Grows.read (h : Grows t u) {bs : Bytes} (hr : t.read path = .ok bs) : u.read path = .ok bs := by
  obtain ⟨p, hp, hf, -⟩ := read_eq_ok_iff.mp hr
  refine read_of_keeps h.keeps hp hr ?_
  rcases h.node p with he | ⟨hn, -⟩
  · exact he
  · rw [find_eq_ok hf] at hn
    cases hn

/-- A walk that leads to something old in the grown tree led there before, or it went up out of a missing directory. -/
theorem Grows.walk_cases (h : Grows t u) (hr : t.Rooted) {cs : List Path.Component} {n : FileNode}
    (hw : u.walk a cs = .ok p) (hn : t.node? p = some n) :
    t.walk a cs = .ok p ∨ t.walk a cs = .error .notFound ∧ .up ∈ cs := by
  induction cs generalizing a with
  | nil => exact .inl hw
  | cons c cs ih =>
    obtain ⟨hf, hrest⟩ := walk_cons.mp hw
    have hfind := find_of_find hf t
    rcases h.node a with ha | ⟨ha, -⟩
    · rw [find_eq_ok hf] at ha
      rw [← ha] at hfind
      rcases ih hrest with hok | ⟨herr, hup⟩
      · exact .inl (walk_cons.mpr ⟨hfind, hok⟩)
      · refine .inr ⟨?_, List.mem_cons_of_mem c hup⟩
        rw [walk_next, hfind]
        exact herr
    · -- Here the walk stopped before: nothing stood where it goes on now. What it leads to was there, so it goes up.
      rw [ha] at hfind
      refine .inr ⟨by rw [walk_next, hfind], ?_⟩
      by_contra hup
      exact hr.node_of_prefix hn (prefix_of_walk hup hw) ha

/-- What reads as a file after directories were made read so before, or it is a file that was there and that the path
did not lead to, because it went up out of a missing directory. -/
theorem Grows.read_cases (h : Grows t u) (hr : t.Rooted) {bs : Bytes} (hu : u.read path = .ok bs) :
    t.read path = .ok bs ∨
      t.resolve path = .error .notFound ∧ .up ∈ Path.components path ∧
        ∃ p, u.resolve path = .ok p ∧ t.node? p = some (.file bs) := by
  obtain ⟨p, hp, hf, hd⟩ := read_eq_ok_iff.mp hu
  have hn := h.node_of_file (find_eq_ok hf)
  have hw := (resolve_eq_walk hp u).symm.trans hp
  rw [origin, h.start, ← origin] at hw
  rcases h.walk_cases hr hw hn with hok | ⟨herr, hup⟩
  · refine .inl (read_eq_ok_iff.mpr ⟨p, (resolve_eq_walk hp t).trans hok, ?_, hd⟩)
    rw [find_of_find hf t, hn]
  · exact .inr ⟨(resolve_eq_walk hp t).trans herr, hup, p, hp, hn⟩

end EncoderFleet.FileTree
