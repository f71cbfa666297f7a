import EncoderFleet.Proofs.Files.Walks

/-!
# Replacing a file

A write puts a file at one place (`write_cases`); a rename moves the content of a file to where the new path leads
(`rename_cases`, `read_of_rename`). Both keep the directories, and leave a tree in which everything lies in a directory
(`Rooted.write`, `Rooted.rename`).

Two paths that both read as one file can always be renamed into each other (`Rooted.rename_same`). So where a file was
written aside and its rename is refused, it is not the file that should have been replaced (`Rooted.apart_of_refused`),
and the latter reads as before (`Rooted.read_of_refused`, `Rooted.read_before_refused`).
-/

namespace EncoderFleet.FileTree

variable {t u : FileTree} {p q : Place} {path old new : String} {content : Bytes}

/-! ## Writing -/

/-- What a write does: it puts the file at a place that is no directory, and the path then reads as it. -/
theorem write_cases (h : t.write path content = .ok u) :
    ∃ p, t.resolve path = .ok p ∧ t.node? p ≠ some .directory ∧ u = t.put p (.file content) ∧
      u.read path = .ok content := by
  obtain ⟨p, hp, h⟩ := bind_eq_ok.mp h
  split at h
  · cases h
  next hnames =>
  obtain ⟨o, hf, h⟩ := bind_eq_ok.mp h
  split at h
  · cases h
  next hfree =>
  cases h
  have hfree : t.node? p ≠ some .directory := by
    rw [find_eq_ok hf]
    exact hfree
  have hne := ne_root hfree
  refine ⟨p, hp, hfree, rfl, read_eq_ok_iff.mpr ⟨p, ?_, ?_, Bool.eq_false_iff.mpr hnames⟩⟩
  · exact resolve_of_keeps (keeps_put hne fun hd => absurd hd hfree) hp
  · rw [find_of_find hf, node?_put hne, if_pos rfl]

theorem keeps_write (h : t.write path content = .ok u) : Keeps t u := by
  obtain ⟨p, -, hfree, rfl, -⟩ := write_cases h
  exact keeps_put (ne_root hfree) fun hd => absurd hd hfree

/-- A new file is no directory, so there are no new directories either. -/
theorem keeps_of_put_file (hp : p ≠ []) : Keeps (t.put p (.file content)) t := by
  refine ⟨rfl, fun {q} hq => ?_⟩
  rw [node?_put hp] at hq
  split at hq
  · cases hq
  · exact hq

theorem Rooted.write (hr : t.Rooted) (h : t.write path content = .ok u) : u.Rooted := by
  obtain ⟨p, hp, hfree, rfl, -⟩ := write_cases h
  exact hr.put (ne_root hfree) (hr.lies_in hp) fun hd => absurd hd hfree

/-! ## Renaming -/

/-- The tree after a file was moved. -/
def moved (t : FileTree) (p q : Place) (content : Bytes) : FileTree :=
  { t with nodes := (t.nodes.erase p).insert q (.file content) }

theorem node?_moved (hq : t.node? q ≠ some .directory) (r : Place) :
    (t.moved p q content).node? r =
      if r = q then some (.file content) else if r = [] then some .directory else if r = p then none
      else t.node? r := by
  have hne := ne_root hq
  unfold node? moved
  by_cases hr : r = []
  · subst hr
    rw [if_pos rfl, if_neg (Ne.symm hne), if_pos rfl]
  · rw [if_neg hr, if_neg hr, if_neg hr, KeyMap.get?_insert, KeyMap.get?_erase]

/-- What a rename does: it moves a file to a place that is no directory. -/
theorem rename_cases (h : t.rename old new = .ok u) :
    ∃ p q content o, t.resolve old = .ok p ∧ t.resolve new = .ok q ∧ t.node? p = some (.file content) ∧
      t.find q = .ok o ∧ o ≠ some .directory ∧ Path.namesDirectory new = false ∧
      u = if p = q then t else t.moved p q content := by
  obtain ⟨p, hp, h⟩ := bind_eq_ok.mp h
  obtain ⟨q, hq, h⟩ := bind_eq_ok.mp h
  split at h
  · cases h
  obtain ⟨n, hf, h⟩ := bind_eq_ok.mp h
  match n, h with
  | some (.file content), h =>
    obtain ⟨o, hthere, h⟩ := bind_eq_ok.mp h
    split at h
    · cases h
    next hnames =>
    split at h
    · cases h
    next hfree =>
    refine ⟨p, q, content, o, hp, hq, find_eq_ok hf, hthere, ?_, Bool.eq_false_iff.mpr hnames, ?_⟩
    · rintro rfl
      exact hfree rfl
    · split at h
      · cases h
        rw [if_pos ‹_›]
      · cases h
        rw [if_neg ‹_›, moved]

theorem keeps_moved (hp : t.node? p = some (.file content)) (hq : t.node? q ≠ some .directory) :
    Keeps t (t.moved p q content) := by
  refine ⟨rfl, fun {r} hr => ?_⟩
  rw [node?_moved hq]
  have hrq : r ≠ q := by
    rintro rfl
    exact hq hr
  have hrp : r ≠ p := by
    rintro rfl
    rw [hp] at hr
    cases hr
  rw [if_neg hrq, if_neg hrp]
  split
  · rfl
  · exact hr

/-- The content of the file is what the new path reads. -/
theorem read_of_rename (h : t.rename old new = .ok u) (hold : t.read old = .ok content) :
    u.read new = .ok content := by
  obtain ⟨p, q, content', o, hp, hq, hfile, hthere, ho, hnames, rfl⟩ := rename_cases h
  obtain ⟨p', hp', hf, -⟩ := read_eq_ok_iff.mp hold
  obtain rfl : p' = p := Except.ok.inj (hp'.symm.trans hp)
  obtain rfl : content' = content := by
    have hboth := hfile.symm.trans (find_eq_ok hf)
    injection hboth with hnode
    injection hnode
  have hfree : t.node? q ≠ some .directory := find_eq_ok hthere ▸ ho
  split
  · next heq =>
    subst heq
    exact read_eq_ok_iff.mpr ⟨p', hq, hf, hnames⟩
  · refine read_eq_ok_iff.mpr ⟨q, resolve_of_keeps (keeps_moved hfile hfree) hq, ?_, hnames⟩
    rw [find_of_find hthere, node?_moved hfree, if_pos rfl]

theorem Rooted.rename (hr : t.Rooted) (h : t.rename old new = .ok u) : u.Rooted := by
  obtain ⟨p, q, content, o, hp, hq, hfile, hthere, ho, -, rfl⟩ := rename_cases h
  have hfree : t.node? q ≠ some .directory := find_eq_ok hthere ▸ ho
  split
  · exact hr
  · intro r n hrn hne
    refine (keeps_moved hfile hfree).directory ?_
    rw [node?_moved hfree] at hrn
    split at hrn
    · next heq =>
      rw [heq]
      exact hr.lies_in hq
    · split at hrn
      · cases hrn
      · exact hr r n hrn hne

/-- A file can be renamed to itself, however the two paths lead to it. -/
theorem Rooted.rename_same (hr : t.Rooted) {a b : Bytes} (hold : t.read old = .ok a) (hnew : t.read new = .ok b)
    (hp : t.resolve old = .ok p) (hq : t.resolve new = .ok p) : t.rename old new = .ok t := by
  obtain ⟨p₁, hp₁, hfile, -⟩ := read_eq_ok_iff.mp hold
  obtain rfl : p₁ = p := Except.ok.inj (hp₁.symm.trans hp)
  obtain ⟨-, -, -, hnames⟩ := read_eq_ok_iff.mp hnew
  have hfree : t.node? p₁ ≠ some .directory := by
    rw [find_eq_ok hfile]
    exact fun h => by cases h
  -- Before it looks for the file a rename asks that both paths end in a name.
  have hends₁ := hr.endsInName hp hfree
  have hends₂ := hr.endsInName hq hfree
  refine bind_eq_ok.mpr ⟨p₁, hp, bind_eq_ok.mpr ⟨p₁, hq, ?_⟩⟩
  rw [hends₁, hends₂]
  refine bind_eq_ok.mpr ⟨_, hfile, bind_eq_ok.mpr ⟨_, hfile, ?_⟩⟩
  simp [hnames]

/-! ## A rename that is refused -/

section Refused

variable {f : Fault} (hr : t.Rooted) (hw : t.write old content = .ok u) (hrefused : u.rename old new = .error f)

include hr hw hrefused

/-- The file that was written is not the one that should have been replaced. -/
theorem Rooted.apart_of_refused {bs : Bytes} (hread : u.read new = .ok bs) (hp : u.resolve old = .ok p)
    (hq : u.resolve new = .ok q) : q ≠ p := by
  rintro rfl
  obtain ⟨-, -, -, -, hold⟩ := write_cases hw
  rw [(hr.write hw).rename_same hold hread hp hq] at hrefused
  cases hrefused

/-- A file that could be read is still there. -/
theorem Rooted.read_of_refused {bs : Bytes} (hread : t.read new = .ok bs) : u.read new = .ok bs := by
  have hkeeps := keeps_write hw
  obtain ⟨p, hp, hfree, rfl, hold⟩ := write_cases hw
  obtain ⟨q, hq, hf, hnames⟩ := read_eq_ok_iff.mp hread
  have hp' := resolve_of_keeps hkeeps hp
  have hq' := resolve_of_keeps hkeeps hq
  by_cases hqp : q = p
  · -- Then the path reads as what was written, and nothing would have stood against the rename.
    have hnew : (t.put p (.file content)).read new = .ok content := by
      refine read_eq_ok_iff.mpr ⟨q, hq', ?_, hnames⟩
      rw [find_of_find hf, node?_put (ne_root hfree), if_pos hqp]
    exact absurd hqp (hr.apart_of_refused hw hrefused hnew hp' hq')
  · refine read_of_keeps hkeeps hq hread ?_
    rw [node?_put (ne_root hfree), if_neg hqp]

/-- A file that can be read was there before. -/
theorem Rooted.read_before_refused {bs : Bytes} (hread : u.read new = .ok bs) : t.read new = .ok bs := by
  have hkeeps := keeps_write hw
  obtain ⟨p, hp, hfree, rfl, -⟩ := write_cases hw
  obtain ⟨q, hq, -, -⟩ := read_eq_ok_iff.mp hread
  refine read_of_keeps (keeps_of_put_file (ne_root hfree)) hq hread ?_
  rw [node?_put (ne_root hfree), if_neg (hr.apart_of_refused hw hrefused hread (resolve_of_keeps hkeeps hp) hq)]

end Refused

end EncoderFleet.FileTree
