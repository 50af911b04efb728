/-
# Paths that are alike

Two paths are alike if both are absolute or neither is, and they have the same components: they
differ in slashes and single dots alone, and lead to the same place from anywhere. What a project
does to the directories that it is told keeps them alike, with one exception: after a `./` in front
another slash must not follow, since without the `./` the path would be absolute
(`alike_directory`).
-/

import Mathlib.Data.List.DropRight
import Scaffold.Context
import Scaffold.Proofs.Project.Walk

namespace Scaffold
namespace Path

/-- The paths have the same components, from the same start. -/
structure Alike (path other : Path) : Prop where
  isAbsolute_eq : isAbsolute path = isAbsolute other
  components_eq : components path = components other

instance (path other : Path) : Decidable (Alike path other) :=
  decidable_of_iff (isAbsolute path = isAbsolute other ∧ components path = components other)
    ⟨fun h => ⟨h.1, h.2⟩, fun h => ⟨h.1, h.2⟩⟩

namespace Alike

variable {path other third base : Path}

/-- A path is like itself. -/
theorem refl (path : Path) : Alike path path := ⟨rfl, rfl⟩

/-- Likeness goes both ways. -/
theorem symm (h : Alike path other) : Alike other path :=
  ⟨h.isAbsolute_eq.symm, h.components_eq.symm⟩

/-- Paths that are like the same one are alike. -/
theorem trans (h : Alike path other) (h' : Alike other third) : Alike path third :=
  ⟨h.isAbsolute_eq.trans h'.isAbsolute_eq, h.components_eq.trans h'.components_eq⟩

/-- Paths that are alike are walked to the same location. -/
theorem walk_eq (h : Alike path other) (place : List Text) :
    walk place path = walk place other := by
  rw [walk_eq_components, walk_eq_components, h.components_eq]

/-- Paths that are alike stay so behind a base. -/
theorem join (h : Alike path other) (base : Path) : Alike (base.join path) (base.join other) := by
  refine ⟨by rw [isAbsolute_join_eq, isAbsolute_join_eq, h.isAbsolute_eq], ?_⟩
  by_cases habsolute : isAbsolute other = true
  · rw [join_of_isAbsolute habsolute, join_of_isAbsolute (h.isAbsolute_eq.trans habsolute),
      h.components_eq]
  · have hother := Bool.eq_false_iff.2 habsolute
    rw [components_join hother, components_join (h.isAbsolute_eq.trans hother), h.components_eq]

/-- Paths that are alike stay so before a relative name. -/
theorem join_of_relative {name : Path} (h : Alike path other) (hname : isAbsolute name = false) :
    Alike (path.join name) (other.join name) where
  isAbsolute_eq := by rw [isAbsolute_join_eq, isAbsolute_join_eq, h.isAbsolute_eq]
  components_eq := by rw [components_join hname, components_join hname, h.components_eq]

end Alike

/-- A path goes on from another, and that one from a third. -/
theorem alike_join_assoc (base path : Path) {other : Path} (h : isAbsolute other = false) :
    Alike (join base (join path other)) (join (join base path) other) := by
  refine ⟨by simp only [isAbsolute_join_eq, Bool.or_assoc], ?_⟩
  by_cases habsolute : isAbsolute path = true
  · rw [join_of_isAbsolute (isAbsolute_join habsolute), join_of_isAbsolute habsolute]
  · have hpath := Bool.eq_false_iff.2 habsolute
    have hjoin : isAbsolute (join path other) = false := by rw [isAbsolute_join_eq, hpath, h]; rfl
    rw [components_join hjoin, components_join h, components_join h, components_join hpath,
      List.append_assoc]

/-! ### What is dropped -/

/-- A slash at the end does not count. -/
theorem alike_append_slash {path : Path} (h : path ≠ []) : Alike (path ++ ['/']) path := by
  refine ⟨isAbsolute_append_eq h _, ?_⟩
  rw [components_append_slash]
  exact List.append_nil _

/-- The trimming of slashes at the end that lists have. -/
theorem dropTrailingSlashes_eq_rdropWhile (path : Path) :
    dropTrailingSlashes path = path.rdropWhile (· == '/') := rfl

/-- Slashes at the end leave the components as they are. -/
theorem components_dropTrailingSlashes (path : Path) :
    components (dropTrailingSlashes path) = components path := by
  rw [dropTrailingSlashes_eq_rdropWhile]
  induction path using List.reverseRecOn with
  | nil => rfl
  | append_singleton path c ih =>
    by_cases hc : c = '/'
    · subst hc
      rw [List.rdropWhile_concat_pos _ _ _ rfl, ih, components_append_slash]
      exact (List.append_nil _).symm
    · rw [List.rdropWhile_concat_neg _ _ _ (by simpa using hc)]

/-- Slashes at the end of two paths are dropped from the second one, and from the first if nothing
else is left. -/
theorem dropTrailingSlashes_append (path other : Path) :
    dropTrailingSlashes (path ++ other) =
      if dropTrailingSlashes other = [] then dropTrailingSlashes path
      else path ++ dropTrailingSlashes other := by
  simp only [dropTrailingSlashes_eq_rdropWhile, List.rdropWhile, List.reverse_append,
    List.dropWhile_append, List.isEmpty_iff, List.reverse_eq_nil_iff]
  split
  · rfl
  · rw [List.reverse_append, List.reverse_reverse]

/-- What is left of a path starts where the path does. -/
theorem isAbsolute_dropTrailingSlashes {path : Path} (h : dropTrailingSlashes path ≠ []) :
    isAbsolute (dropTrailingSlashes path) = isAbsolute path := by
  obtain ⟨rest, hrest⟩ : dropTrailingSlashes path <+: path := List.rdropWhile_prefix ..
  calc isAbsolute (dropTrailingSlashes path)
    _ = isAbsolute (dropTrailingSlashes path ++ rest) := (isAbsolute_append_eq h rest).symm
    _ = isAbsolute path := by rw [hrest]

/-- The slashes at the end of a path do not matter, if it has components. -/
theorem alike_dropTrailingSlashes {path : Path} (h : components path ≠ []) :
    Alike (dropTrailingSlashes path) path := by
  refine ⟨isAbsolute_dropTrailingSlashes fun hnil => h ?_, components_dropTrailingSlashes path⟩
  rw [← components_dropTrailingSlashes, hnil]
  rfl

/-- A dot and a slash in front leave the components as they are. -/
theorem components_dropDotSlash (path : Path) :
    components (dropDotSlash path) = components path := by
  unfold dropDotSlash Text.after?
  split
  · rename_i hprefix
    obtain ⟨rest, rfl⟩ := List.isPrefixOf_iff_prefix.1 hprefix
    exact (components_append_slash ['.'] rest).symm
  · rfl

/-- A `./` in front of a path does not matter, if no slash follows. -/
theorem alike_dropDotSlash {path : Path} (h : ¬['.', '/', '/'] <+: path) :
    Alike (dropDotSlash path) path := by
  refine ⟨?_, components_dropDotSlash path⟩
  unfold dropDotSlash Text.after?
  split
  · rename_i hprefix
    obtain ⟨rest, rfl⟩ := List.isPrefixOf_iff_prefix.1 hprefix
    change isAbsolute rest = false
    rw [Bool.eq_false_iff]
    intro habsolute
    cases rest with
    | nil => cases habsolute
    | cons c rest =>
      obtain rfl : c = '/' := by simpa using habsolute
      exact h ⟨rest, rfl⟩
  · rfl

end Path

/-- **A directory of a project keeps its meaning**, if it has components and no slash follows a
`./` in front of it. -/
theorem Context.alike_directory (project : Project) {written : Path}
    (hcomponents : Path.components written ≠ []) (hslash : ¬['.', '/', '/'] <+: written) :
    Path.Alike (directory project written) (project.resolve written) := by
  have hdots := Path.alike_dropDotSlash hslash
  refine Path.Alike.join ?_ project.root
  exact (Path.alike_dropTrailingSlashes (by rwa [hdots.components_eq])).trans hdots

end Scaffold
