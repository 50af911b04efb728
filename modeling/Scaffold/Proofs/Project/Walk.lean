/-
# Walking a path

A path is its components: the segments that do not stay where they are. A joined path has the
components of its parts, so it is walked one part after the other (`walk_join`). Where a path leads
in a file tree, it leads to the location it is walked to by its text alone (`eq_walk_of_follow`,
`Named.place_eq`); the converse needs every directory on the way to be there.
-/

import Scaffold.Proofs.Registration.FileAt

namespace Scaffold

namespace Location

/-- An idle segment leads nowhere else. -/
theorem step_of_isIdle {segment : Text} (h : Path.isIdle segment = true) (names : List Text) :
    step names segment = names := by
  have h : segment = [] ∨ segment = ['.'] := by simpa [Path.isIdle] using h
  rw [step, if_pos h]

/-- Two dots lead one name up. -/
theorem step_dots (names : List Text) : step names ['.', '.'] = names.dropLast := rfl

/-- A name leads one name down. -/
theorem step_name {segment : Text} (h : ¬Path.isIdle segment = true) (hdots : segment ≠ ['.', '.'])
    (names : List Text) : step names segment = names ++ [segment] := by
  have h : ¬(segment = [] ∨ segment = ['.']) := by simpa [Path.isIdle] using h
  rw [step, if_neg h, if_neg hdots]

/-- Names lead down. -/
theorem foldl_step_names {segments : List Text}
    (h : ∀ segment ∈ segments, ¬Path.isIdle segment = true ∧ segment ≠ ['.', '.'])
    (names : List Text) : segments.foldl step names = names ++ segments := by
  induction segments generalizing names with
  | nil => exact (List.append_nil names).symm
  | cons segment segments ih =>
    obtain ⟨hsegment, hrest⟩ := List.forall_mem_cons.1 h
    rw [List.foldl_cons, step_name hsegment.1 hsegment.2, ih hrest, List.append_assoc]
    rfl

end Location

namespace Path

/-- The segments of a path that lead somewhere. -/
def components (path : Path) : List Text := (segments path).filter (!isIdle ·)

/-- Where a path leads from a location when it is walked by its text alone. -/
def walk (place : List Text) (path : Path) : List Text :=
  (segments path).foldl Location.step place

/-- A path is walked by its components. -/
theorem walk_eq_components (place : List Text) (path : Path) :
    walk place path = (components path).foldl Location.step place := by
  unfold walk components
  induction segments path generalizing place with
  | nil => rfl
  | cons segment segments ih =>
    rw [List.foldl_cons, List.filter_cons]
    by_cases hidle : isIdle segment = true
    · rw [hidle, Location.step_of_isIdle hidle]
      exact ih place
    · rw [Bool.eq_false_iff.2 hidle]
      exact ih _

/-- The segments of two paths with a slash between them are those of each. -/
theorem segments_append_slash (base other : Path) :
    segments (base ++ '/' :: other) = segments base ++ segments other :=
  List.splitOn_append_cons_self base other

/-- Two paths with a slash between them are walked one after the other. -/
theorem walk_append_slash (place : List Text) (base other : Path) :
    walk place (base ++ '/' :: other) = walk (walk place base) other := by
  rw [walk, segments_append_slash, List.foldl_append]
  rfl

/-- The components of two paths with a slash between them are those of each. -/
theorem components_append_slash (base other : Path) :
    components (base ++ '/' :: other) = components base ++ components other := by
  rw [components, segments_append_slash, List.filter_append]
  rfl

/-- A path is absolute just in case it starts with a slash. -/
@[simp] theorem isAbsolute_cons (c : Char) (path : Path) :
    isAbsolute (c :: path) = (c == '/') := by
  rw [isAbsolute, List.head?_cons, Option.some_beq_some]

/-- A relative path goes on where the path before it ends. -/
theorem components_join {base other : Path} (h : isAbsolute other = false) :
    components (join base other) = components base ++ components other := by
  rw [join, if_neg (by rw [h]; exact Bool.false_ne_true)]
  rcases List.eq_nil_or_concat base with rfl | ⟨above, c, rfl⟩
  · rfl
  · rw [List.concat_eq_append]
    by_cases hc : c = '/'
    · rw [if_pos (by simp [hc]), hc, List.append_assoc]
      change components (above ++ '/' :: other) = components (above ++ '/' :: []) ++ _
      rw [components_append_slash, components_append_slash]
      exact congrArg (· ++ _) (List.append_nil _).symm
    · rw [if_neg (by simp [hc]), components_append_slash]

/-- An absolute path is joined to nothing. -/
theorem join_of_isAbsolute {base other : Path} (h : isAbsolute other = true) :
    join base other = other := if_pos h

/-- An absolute path is not empty. -/
theorem ne_nil_of_isAbsolute {path : Path} (h : isAbsolute path = true) : path ≠ [] := by
  rintro rfl
  cases h

/-- A path starts where its beginning does. -/
theorem isAbsolute_append_eq {base : Path} (h : base ≠ []) (other : Path) :
    isAbsolute (base ++ other) = isAbsolute base := by
  cases base with
  | nil => exact absurd rfl h
  | cons c base => rw [List.cons_append, isAbsolute_cons, isAbsolute_cons]

/-- An absolute path stays absolute with more behind it. -/
theorem isAbsolute_append {base : Path} (h : isAbsolute base = true) (other : Path) :
    isAbsolute (base ++ other) = true := by
  rw [isAbsolute_append_eq (ne_nil_of_isAbsolute h), h]

/-- A joined path is absolute if one of the two is. -/
theorem isAbsolute_join_eq (base other : Path) :
    isAbsolute (join base other) = (isAbsolute base || isAbsolute other) := by
  unfold join
  split
  · rename_i h
    rw [h, Bool.or_true]
  · rename_i h
    rw [Bool.eq_false_iff.2 h, Bool.or_false]
    cases base with
    | nil => exact Bool.eq_false_iff.2 h
    | cons c base => split <;> rw [List.cons_append, isAbsolute_cons, isAbsolute_cons]

/-- A path joined to an absolute one is absolute. -/
theorem isAbsolute_join {base other : Path} (h : isAbsolute base = true) :
    isAbsolute (join base other) = true := by
  rw [isAbsolute_join_eq, h, Bool.true_or]

/-- **A joined path is walked one part after the other.** -/
theorem walk_join (place : List Text) (base other : Path) :
    walk place (join base other) =
      walk (if isAbsolute other then place else walk place base) other := by
  by_cases h : isAbsolute other = true
  · rw [if_pos h, join_of_isAbsolute h]
  · rw [if_neg h]
    simp only [walk_eq_components, components_join (Bool.eq_false_iff.2 h), List.foldl_append]

end Path

namespace FileTree

variable {tree : FileTree} {path : Path} {place next : List Text}

/-- A step in a tree is a step by the text alone, from a directory. -/
theorem eq_step_of_enter {segment : Text} (h : tree.enter place segment = .ok next) :
    next = Location.step place segment ∧ tree.node? place = some .directory := by
  unfold enter at h
  split at h
  · cases h
  · rename_i hdirectory
    refine ⟨?_, not_not.1 hdirectory⟩
    split at h
    · rename_i hidle
      rw [Location.step_of_isIdle hidle]
      exact (Except.ok.inj h).symm
    · rename_i hidle
      split at h
      · rename_i hdots
        rw [hdots, Location.step_dots]
        exact (Except.ok.inj h).symm
      · rename_i hdots
        rw [Location.step_name hidle hdots]
        split at h
        · cases h
        · split at h
          · exact (Except.ok.inj h).symm
          · cases h

/-- A way in a tree is a walk by the text alone. -/
theorem eq_foldl_of_foldlM_enter {segments : List Text}
    (h : segments.foldlM tree.enter place = .ok next) :
    next = segments.foldl Location.step place := by
  induction segments generalizing place with
  | nil => exact (Except.ok.inj h).symm
  | cons segment segments ih =>
    rw [List.foldlM_cons] at h
    cases henter : tree.enter place segment with
    | error obstacle =>
      rw [henter] at h
      cases h
    | ok middle =>
      rw [henter] at h
      rw [List.foldl_cons, ← (eq_step_of_enter henter).1]
      exact ih h

/-- **A path that leads somewhere leads where it is walked to.** -/
theorem eq_walk_of_follow (h : tree.follow path = .ok place) :
    place = Path.walk (tree.start path) path := by
  unfold follow at h
  split at h
  · cases h
  · split at h
    · cases h
    · exact eq_foldl_of_foldlM_enter h

/-- What a path leads to stands where its text leads. -/
theorem node?_walk_of_nodeAt? {node : Node} (h : tree.nodeAt? path = some node) :
    tree.node? (Path.walk (tree.start path) path) = some node := by
  unfold nodeAt? at h
  cases hfollow : tree.follow path with
  | error obstacle =>
    rw [hfollow] at h
    cases h
  | ok place =>
    rw [hfollow] at h
    rwa [← eq_walk_of_follow hfollow]

/-- **A name names the location that its path is walked to.** -/
theorem Named.place_eq (h : Named tree path place) :
    place = Path.walk (tree.start path) path := by
  obtain ⟨above, habove, -, hplace⟩ := h.above
  have hname := not_or.1 h.name
  rw [Path.walk, Path.segments_eq_concat, List.foldl_append, ← eq_foldl_of_foldlM_enter habove,
    hplace]
  exact (Location.step_name hname.1 hname.2 above).symm

end FileTree
end Scaffold
