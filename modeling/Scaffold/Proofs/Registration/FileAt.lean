/-
# A file of a file tree

A file tree is a disk with a file wherever a path names one (`holdsFile`). Directories that are
created are new, so they change no file (`createDirectories_files`), and a path that leads somewhere
leads there in every tree that has more directories (`Extends.entryOf`).
-/

import Scaffold.Proofs.Registration.Files
import Scaffold.Proofs.Registration.Tree

namespace Scaffold

/-- The segments of a path before its last one, and that one. -/
theorem Path.segments_eq_concat (path : Path) :
    segments path = (segments path).dropLast ++ [(segments path).getLastD []] := by
  have hne : segments path ≠ [] := List.splitOn_ne_nil _ _
  rw [List.getLastD_eq_getLast?, List.getLast?_eq_some_getLast hne, Option.getD_some,
    List.dropLast_append_getLast hne]

namespace FileTree

/-- The file at a location. -/
def file? (tree : FileTree) (place : List Text) : Option Node :=
  (tree.node? place).filter (· != .directory)

/-- The directories of the first tree are directories of the second, and something stands in the
second wherever something stands in the first. -/
structure Extends (tree tree' : FileTree) : Prop where
  workingDirectory_eq : tree'.workingDirectory = tree.workingDirectory
  directory {place : List Text} (h : tree.node? place = some .directory) :
    tree'.node? place = some .directory
  isSome {place : List Text} (h : (tree.node? place).isSome) : (tree'.node? place).isSome

namespace Extends

variable {tree tree' tree'' : FileTree}

/-- A tree extends itself. -/
theorem refl (tree : FileTree) : Extends tree tree := ⟨rfl, id, id⟩

/-- Extensions follow one after the other. -/
theorem trans (h : Extends tree tree') (h' : Extends tree' tree'') : Extends tree tree'' where
  workingDirectory_eq := h'.workingDirectory_eq.trans h.workingDirectory_eq
  directory hd := h'.directory (h.directory hd)
  isSome hs := h'.isSome (h.isSome hs)

/-- A node may be put where no directory is lost. -/
theorem setNode {place : List Text} (hp : place ≠ []) {node : Node}
    (h : tree.node? place ≠ some .directory) : Extends tree (tree.setNode place node) where
  workingDirectory_eq := rfl
  directory {other} hd := by
    have hne : other ≠ place := by
      rintro rfl
      exact h hd
    rwa [node?_setNode_of_ne _ _ hne]
  isSome {other} hs := by
    by_cases hother : other = place
    · rw [hother, node?_setNode_self _ hp]
      rfl
    · rwa [node?_setNode_of_ne _ _ hother]

/-- A step in a tree can be taken in an extension. -/
theorem enter (h : Extends tree tree') {place next : List Text} {segment : Text}
    (henter : tree.enter place segment = .ok next) : tree'.enter place segment = .ok next := by
  unfold FileTree.enter at henter ⊢
  by_cases hdirectory : tree.node? place = some .directory
  · rw [if_neg (not_not.2 hdirectory)] at henter
    rw [if_neg (not_not.2 (h.directory hdirectory))]
    by_cases hidle : Path.isIdle segment
    · rwa [if_pos hidle] at henter ⊢
    by_cases hdots : segment = ['.', '.']
    · rwa [if_neg hidle, if_pos hdots] at henter ⊢
    by_cases hlong : nameLimit < byteLength segment
    · rw [if_neg hidle, if_neg hdots, if_pos hlong] at henter
      cases henter
    by_cases hsome : (tree.node? (place ++ [segment])).isSome
    · rw [if_neg hidle, if_neg hdots, if_neg hlong, if_pos hsome] at henter
      rwa [if_neg hidle, if_neg hdots, if_neg hlong, if_pos (h.isSome hsome)]
    · rw [if_neg hidle, if_neg hdots, if_neg hlong, if_neg hsome] at henter
      cases henter
  · rw [if_pos hdirectory] at henter
    cases henter

/-- A way in a tree can be taken in an extension. -/
theorem foldlM_enter (h : Extends tree tree') {segments : List Text} {place next : List Text}
    (hfold : segments.foldlM tree.enter place = .ok next) :
    segments.foldlM tree'.enter place = .ok next := by
  induction segments generalizing place with
  | nil => exact hfold
  | cons segment segments ih =>
    rw [List.foldlM_cons] at hfold ⊢
    cases henter : tree.enter place segment with
    | error obstacle =>
      rw [henter] at hfold
      cases hfold
    | ok middle =>
      rw [henter] at hfold
      rw [h.enter henter]
      exact ih hfold

end Extends

/-! ### The name of a file -/

section
variable {tree tree' : FileTree} {path : Path} {place : List Text}

/-- An entry is a name in a directory. -/
structure Named (tree : FileTree) (path : Path) (place : List Text) : Prop where
  usable : path.isEmpty = false ∧ isUsable path = true
  name : ¬(Path.isIdle ((Path.segments path).getLastD []) ∨
    (Path.segments path).getLastD [] = ['.', '.'])
  short : ¬nameLimit < byteLength ((Path.segments path).getLastD [])
  above : ∃ above, (Path.segments path).dropLast.foldlM tree.enter (tree.start path) = .ok above ∧
    tree.node? above = some .directory ∧ place = above ++ [(Path.segments path).getLastD []]

/-- An entry is a name in a directory. -/
theorem entryOf_eq_ok_iff : tree.entryOf path = .ok place ↔ Named tree path place := by
  unfold entryOf
  constructor
  · intro h
    split at h
    · cases h
    · rename_i hempty
      split at h
      · cases h
      · rename_i husable
        simp only at h
        split at h
        · cases h
        · rename_i above habove
          split at h
          · cases h
          · rename_i hdirectory
            split at h
            · cases h
            · rename_i hname
              split at h
              · cases h
              · rename_i hshort
                cases h
                exact ⟨⟨by simpa using hempty, by simpa using husable⟩, hname, hshort, above,
                  habove, not_not.1 hdirectory, rfl⟩
  · rintro ⟨⟨hempty, husable⟩, hname, hshort, above, habove, hdirectory, rfl⟩
    rw [if_neg (by rw [hempty]; exact Bool.false_ne_true), if_neg (by rw [husable]; decide)]
    simp only [habove]
    rw [if_neg (not_not.2 hdirectory), if_neg hname, if_neg hshort]

/-- The place of a name is not the top directory. -/
theorem Named.ne_nil (h : Named tree path place) : place ≠ [] := by
  obtain ⟨above, -, -, rfl⟩ := h.above
  exact List.concat_ne_nil _ _

/-- A name names the same location where there is more. -/
theorem Extends.named (h : Extends tree tree') (hn : Named tree path place) :
    Named tree' path place := by
  obtain ⟨above, habove, hdirectory, hplace⟩ := hn.above
  have hstart : tree'.start path = tree.start path := by
    rw [start, start, h.workingDirectory_eq]
  refine { hn with above := ⟨above, ?_, h.directory hdirectory, hplace⟩ }
  rw [hstart]
  exact h.foldlM_enter habove

/-- A name leads to what it names. -/
theorem Named.nodeAt? (h : Named tree path place) (hs : (tree.node? place).isSome) :
    tree.nodeAt? path = tree.node? place := by
  obtain ⟨above, habove, hdirectory, hplace⟩ := h.above
  have henter : tree.enter above ((Path.segments path).getLastD []) = .ok place := by
    have hname := not_or.1 h.name
    unfold enter
    rw [if_neg (not_not.2 hdirectory), if_neg hname.1, if_neg hname.2, if_neg h.short, ← hplace,
      if_pos hs]
  have hfollow : tree.follow path = .ok place := by
    unfold follow
    rw [if_neg (by rw [h.usable.1]; exact Bool.false_ne_true),
      if_neg (by rw [h.usable.2]; decide), Path.segments_eq_concat, List.foldlM_append, habove]
    change ([(Path.segments path).getLastD []].foldlM tree.enter above) = _
    rw [List.foldlM_cons, henter]
    rfl
  rw [FileTree.nodeAt?, hfollow]

/-! ### Directories that are created -/

/-- The second tree has some more directories, and the same files. -/
structure Grown (tree tree' : FileTree) : Prop where
  extend : Extends tree tree'
  file?_eq : tree'.file? = tree.file?

/-- A tree is grown from itself. -/
theorem Grown.refl (tree : FileTree) : Grown tree tree := ⟨.refl tree, rfl⟩

/-- Trees grow one after the other. -/
theorem Grown.trans {tree'' : FileTree} (h : Grown tree tree') (h' : Grown tree' tree'') :
    Grown tree tree'' :=
  ⟨h.extend.trans h'.extend, h'.file?_eq.trans h.file?_eq⟩

/-- A tree grows where a directory is created. -/
theorem grown_of_createDirectory (h : tree.createDirectory path = .ok tree') :
    Grown tree tree' := by
  unfold createDirectory at h
  split at h
  · cases h
  · split at h
    · cases h
    · rename_i place hentry
      split at h
      · cases h
      · rename_i hfree
        cases h
        have hp := (entryOf_eq_ok_iff.1 hentry).ne_nil
        have hnone : tree.node? place = none := by simpa using hfree
        refine ⟨.setNode hp (by rw [hnone]; nofun), funext fun other => ?_⟩
        unfold file?
        by_cases hother : other = place
        · rw [hother, node?_setNode_self _ hp, hnone]
          rfl
        · rw [node?_setNode_of_ne _ _ hother]

/-- What can be chained and holds wherever one directory is created holds where several are. -/
theorem createWithin_of_createDirectory (rel : FileTree → FileTree → Prop)
    (hrefl : ∀ tree, rel tree tree)
    (htrans : ∀ {tree tree' tree'' : FileTree}, rel tree tree' → rel tree' tree'' → rel tree tree'')
    (hone : ∀ {tree tree' : FileTree} {path : Path},
      tree.createDirectory path = .ok tree' → rel tree tree')
    (fuel : Nat) (tree : FileTree) (path : Path) : rel tree (createWithin fuel tree path).1 := by
  fun_induction createWithin fuel tree path with
  | case1 => exact hrefl _
  | case2 => exact hrefl _
  | case3 fuel tree path hempty changed hcreate => exact hone hcreate
  | case4 => exact hrefl _
  | case5 fuel tree path hempty hmissing above habove grown hgrown ih =>
    rwa [hgrown] at ih
  | case6 fuel tree path hempty hmissing above habove grown hgrown changed hcreate ih =>
    rw [hgrown] at ih
    exact htrans ih (hone hcreate)
  | case7 fuel tree path hempty hmissing above habove grown hgrown obstacle hcreate ih =>
    rwa [hgrown] at ih
  | case8 => exact hrefl _

/-- **Creating directories changes no file.** -/
theorem grown_createWithin (fuel : Nat) (tree : FileTree) (path : Path) :
    Grown tree (createWithin fuel tree path).1 :=
  createWithin_of_createDirectory Grown Grown.refl Grown.trans grown_of_createDirectory fuel tree
    path

end

/-! ### The disk -/

/-- The text of a file, and no other file, changes where a file is put. -/
theorem file?_setNode (tree : FileTree) {place : List Text} (hp : place ≠ []) (text : Text) :
    (tree.setNode place (.file text)).file? =
      Function.update tree.file? place (some (.file text)) := by
  funext other
  by_cases hother : other = place
  · rw [hother, Function.update_self, file?, node?_setNode_self _ hp]
    rfl
  · rw [Function.update_of_ne hother, file?, file?, node?_setNode_of_ne _ _ hother]

/-- The path names the location, and a file stands there. -/
structure HasFile (full : Path) (place : List Text) (tree : FileTree) : Prop where
  entryOf : tree.entryOf full = .ok place
  isSome : (tree.file? place).isSome

namespace HasFile

variable {full : Path} {place : List Text} {tree tree' : FileTree}

/-- Where a file stands, no directory does. -/
theorem node?_eq (h : HasFile full place tree) : tree.node? place = tree.file? place ∧
    tree.node? place ≠ some .directory := by
  have hsome := h.isSome
  unfold file? at hsome ⊢
  cases hnode : tree.node? place with
  | none =>
    rw [hnode] at hsome
    cases hsome
  | some node =>
    rw [hnode] at hsome
    cases node with
    | directory => cases hsome
    | file text => exact ⟨rfl, nofun⟩
    | binary => exact ⟨rfl, nofun⟩

/-- A path leads to the file that it names. -/
theorem nodeAt?_eq (h : HasFile full place tree) : tree.nodeAt? full = tree.file? place := by
  have hnode := h.node?_eq.1
  rw [(entryOf_eq_ok_iff.1 h.entryOf).nodeAt? (hnode ▸ h.isSome), hnode]

/-- A path names its file in every extension that has one there. -/
theorem extend (h : HasFile full place tree) (hextends : Extends tree tree')
    (hs : (tree'.file? place).isSome) : HasFile full place tree' :=
  ⟨entryOf_eq_ok_iff.2 (hextends.named (entryOf_eq_ok_iff.1 h.entryOf)), hs⟩

end HasFile

/-- **A file tree holds the file that a path names.** -/
theorem holdsFile (full : Path) (place : List Text) :
    Registration.HoldsFile full place file? (HasFile full place) where
  isPresent {tree} h := by
    show ((tree.nodeAt? full).isSome, tree) = _
    rw [h.nodeAt?_eq, h.isSome]
  read {tree} h := by
    show (tree.read? full, tree) = _
    rw [read?, h.nodeAt?_eq]
    cases tree.file? place with
    | none => rfl
    | some node => cases node <;> rfl
  createDirectories {tree} h directory _ := by
    have hgrown := grown_createWithin (directory.length + 1) tree directory
    refine ⟨(tree.createDirectories directory).2, (tree.createDirectories directory).1, rfl, ?_,
      hgrown.file?_eq⟩
    refine h.extend hgrown.extend ?_
    rw [createDirectories, hgrown.file?_eq]
    exact h.isSome
  replace {tree} h text := by
    have hp := (entryOf_eq_ok_iff.1 h.entryOf).ne_nil
    have hnode := h.node?_eq.2
    have hreplace : tree.replace full text = (tree.setNode place (.file text), true) := by
      rw [FileTree.replace, h.entryOf]
      simp only [if_neg hnode]
    have hfiles := file?_setNode tree hp text
    refine ⟨true, tree.setNode place (.file text), ?_, ?_, hfiles⟩
    · show ((tree.replace full text).2, (tree.replace full text).1) = _
      rw [hreplace]
    · refine h.extend (.setNode hp hnode) ?_
      rw [hfiles, Function.update_self]
      rfl

end FileTree
end Scaffold
