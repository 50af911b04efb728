/-
# A file that a file tree keeps

A file tree is a disk that keeps a file in one of its directories: putting a text in its place
succeeds, and from then on the file reads as that text (`keepsFile`).
-/

import Scaffold.FileTree
import Scaffold.Proofs.Registration.Step

namespace Scaffold
namespace FileTree

/-! ### Nodes that are put -/

/-- Changing one entry of a list of nodes leaves what stands elsewhere. -/
theorem lookup_map_of_ne {nodes : List (List Text × Node)} {place other : List Text} (node : Node)
    (h : other ≠ place) :
    (nodes.map fun entry => if entry.1 == place then (place, node) else entry).lookup other =
      nodes.lookup other := by
  induction nodes with
  | nil => rfl
  | cons entry nodes ih =>
    obtain ⟨key, old⟩ := entry
    rw [List.map_cons]
    by_cases hkey : key = place
    · subst hkey
      rw [if_pos (beq_self_eq_true key), List.lookup_cons, List.lookup_cons,
        beq_eq_false_iff_ne.2 h]
      exact ih
    · rw [if_neg (by simpa using hkey), List.lookup_cons, List.lookup_cons, ih]

/-- Changing one entry of a list of nodes changes what stands there. -/
theorem lookup_map_self {nodes : List (List Text × Node)} {place : List Text} (node : Node)
    (h : nodes.any (·.1 == place) = true) :
    (nodes.map fun entry => if entry.1 == place then (place, node) else entry).lookup place =
      some node := by
  induction nodes with
  | nil => cases h
  | cons entry nodes ih =>
    obtain ⟨key, old⟩ := entry
    rw [List.map_cons]
    by_cases hkey : key = place
    · rw [if_pos (by simpa using hkey), List.lookup_cons_self]
    · have hrest : nodes.any (·.1 == place) = true := by simpa [hkey] using h
      rw [if_neg (by simpa using hkey), List.lookup_cons, beq_eq_false_iff_ne.2 (Ne.symm hkey)]
      exact ih hrest

/-- A node stands where it was put. -/
theorem node?_setNode_self (tree : FileTree) {place : List Text} (hp : place ≠ []) (node : Node) :
    (tree.setNode place node).node? place = some node := by
  have hempty : ¬place.isEmpty = true := by simpa using hp
  rw [node?, if_neg hempty, setNode]
  simp only
  split
  · rename_i hany
    exact lookup_map_self node hany
  · rename_i hany
    have hnone : tree.nodes.lookup place = none := by
      rw [List.lookup_eq_none_iff]
      intro entry hentry
      have hne : ¬(entry.1 == place) = true := fun h => hany (List.any_eq_true.2 ⟨entry, hentry, h⟩)
      rw [beq_iff_eq] at hne
      simpa using Ne.symm hne
    rw [List.lookup_append, hnone, Option.none_or, List.lookup_cons_self]

/-- The other nodes stand where they were. -/
theorem node?_setNode_of_ne (tree : FileTree) {place other : List Text} (node : Node)
    (h : other ≠ place) : (tree.setNode place node).node? other = tree.node? other := by
  rw [node?, node?, setNode]
  simp only
  split
  · rfl
  · split
    · exact lookup_map_of_ne node h
    · rw [List.lookup_append, List.lookup_cons, beq_eq_false_iff_ne.2 h, List.lookup_nil,
        Option.or_none]

/-! ### A file in a directory at the top -/

section
variable {tree : FileTree} (h : tree.node? [['p']] = some .directory)
include h

/-- The directory of the file can be entered. -/
theorem foldlM_enter_directory :
    [[], ['p']].foldlM tree.enter [] = .ok [['p']] := by
  have htop : tree.enter [] [] = .ok [] := rfl
  have hdirectory : tree.enter [] ['p'] = .ok [['p']] := by
    unfold enter
    rw [if_neg (by simp [node?]), if_neg (by decide), if_neg (by decide), if_neg (by decide)]
    simp only [List.nil_append, h, Option.isSome_some, if_true]
  rw [List.foldlM_cons, htop]
  change (tree.enter [] ['p'] >>= pure) = _
  rw [bind_pure, hdirectory]

/-- The file is a name in its directory. -/
theorem entryOf_file : tree.entryOf "/p/c".toList = .ok [['p'], ['c']] := by
  have hsegments : Path.segments "/p/c".toList = [[], ['p'], ['c']] := by decide
  unfold entryOf
  rw [if_neg (by decide), if_neg (by decide), hsegments]
  have hstart : tree.start "/p/c".toList = [] := rfl
  have hdrop : [[], ['p'], ['c']].dropLast = ([[], ['p']] : List Text) := rfl
  simp only [hstart, hdrop, foldlM_enter_directory h, h]
  rfl

/-- The path of the file leads to it. -/
theorem nodeAt?_file : tree.nodeAt? "/p/c".toList = tree.node? [['p'], ['c']] := by
  have hsegments : Path.segments "/p/c".toList = [[], ['p']] ++ [['c']] := by decide
  have hfollow : tree.follow "/p/c".toList = tree.enter [['p']] ['c'] := by
    unfold follow
    rw [if_neg (by decide), if_neg (by decide), hsegments, List.foldlM_append]
    have hstart : tree.start "/p/c".toList = [] := rfl
    rw [hstart, foldlM_enter_directory h]
    change (tree.enter [['p']] ['c'] >>= pure) = _
    rw [bind_pure]
  have henter : tree.enter [['p']] ['c'] =
      if (tree.node? [['p'], ['c']]).isSome then .ok [['p'], ['c']] else .error .missing := by
    unfold enter
    rw [if_neg (by simp [h]), if_neg (by decide), if_neg (by decide), if_neg (by decide)]
    rfl
  rw [nodeAt?, hfollow, henter]
  cases hnode : tree.node? [['p'], ['c']] with
  | none => rfl
  | some node => simp [hnode]

/-- The directory of the file is there. -/
theorem createDirectories_top : tree.createDirectories "/p".toList = (tree, true) := by
  have hsegments : Path.segments "/p".toList = [[], ['p']] := by decide
  have hstart : tree.start "/p".toList = [] := rfl
  have hentry : tree.entryOf "/p".toList = .ok [['p']] := by
    unfold entryOf
    rw [if_neg (by decide), if_neg (by decide), hsegments]
    rfl
  have hcreate : tree.createDirectory "/p".toList = .error .occupied := by
    have hslashes : Path.dropTrailingSlashes "/p".toList = "/p".toList := by decide
    unfold createDirectory
    rw [if_neg (by decide), hslashes, hentry]
    simp only [h, Option.isSome_some, if_true]
  have hdirectory : tree.isDirectory "/p".toList = true := by
    unfold isDirectory nodeAt? follow
    rw [if_neg (by decide), if_neg (by decide), hsegments, hstart, foldlM_enter_directory h]
    simp only [h]
    rfl
  unfold createDirectories createWithin
  rw [if_neg (by decide), hcreate]
  simp only [hdirectory]

end

/-- The file at `/p/c` is kept where `/p` is a directory. -/
theorem keepsFile : Registration.KeepsFile "/p/c".toList fun texts (tree : FileTree) =>
    tree.node? [['p']] = some .directory ∧
      tree.node? [['p'], ['c']] = texts.head?.map Node.file where
  isPresent {texts tree} h := by
    refine ⟨tree, ?_, h⟩
    change ((tree.nodeAt? "/p/c".toList).isSome, tree) = _
    rw [nodeAt?_file h.1, h.2]
    cases texts with
    | nil => rfl
    | cons => rfl
  read {text texts tree} h := by
    refine ⟨tree, ?_, h⟩
    change (tree.read? "/p/c".toList, tree) = _
    rw [read?, nodeAt?_file h.1, h.2]
    rfl
  write {texts tree} h text directory hdirectory := by
    have hparent : Path.parent? "/p/c".toList = some "/p".toList := by decide
    obtain rfl : "/p".toList = directory := Option.some.inj (hparent.symm.trans hdirectory)
    have hnode : tree.node? [['p'], ['c']] ≠ some .directory := by
      rw [h.2]
      cases texts with
      | nil => exact nofun
      | cons => exact nofun
    refine ⟨tree, tree.setNode [['p'], ['c']] (.file text), ?_, ?_, ?_, ?_⟩
    · change ((tree.createDirectories "/p".toList).2, (tree.createDirectories "/p".toList).1) = _
      rw [createDirectories_top h.1]
    · have hreplace : tree.replace "/p/c".toList text =
          (tree.setNode [['p'], ['c']] (.file text), true) := by
        rw [replace, entryOf_file h.1]
        simp only [if_neg hnode]
      change ((tree.replace "/p/c".toList text).2, (tree.replace "/p/c".toList text).1) = _
      rw [hreplace]
    · rw [node?_setNode_of_ne _ _ (by decide)]
      exact h.1
    · exact node?_setNode_self tree (by decide) _

end FileTree
end Scaffold
