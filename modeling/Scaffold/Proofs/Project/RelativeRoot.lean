/-
# Projects with a relative root

The library takes the directory of a project as it is given, also a relative one. What such a
project lets through is decided without the working directory, and there a pair of dots that leads
above the start of a path is dropped. From a directory it takes a name off instead
(`walk_append`). A relative path that does not climb above the start is confined all the same, in
whatever working directory (`confines_iff_owns`). Any other path that is let through leads out of
the project in some working directory, and every relative root lets one through
(`confines_relative`).
-/

import Scaffold.Proofs.Project.Inside

namespace Scaffold

namespace Location

/-- How often a walk from some names leads above their start. -/
def climbs : List Text → List Text → Nat
  | _, [] => 0
  | names, segment :: segments =>
    (if segment = ['.', '.'] ∧ names = [] then 1 else 0) + climbs (step names segment) segments

/-- The steps above a place add up along two lists of names. -/
theorem climbs_append (names first second : List Text) :
    climbs names (first ++ second) =
      climbs names first + climbs (first.foldl step names) second := by
  induction first generalizing names with
  | nil => exact (Nat.zero_add _).symm
  | cons segment first ih =>
    rw [List.cons_append, climbs, climbs, ih, List.foldl_cons, Nat.add_assoc]

/-- A walk from further down takes one name off what stands above for each time that it climbs. -/
theorem foldl_step_append (above names segments : List Text) :
    segments.foldl step (above ++ names) =
      above.take (above.length - climbs names segments) ++ segments.foldl step names := by
  induction segments generalizing above names with
  | nil => simp [climbs]
  | cons segment segments ih =>
    rw [List.foldl_cons, List.foldl_cons, climbs]
    by_cases hidle : Path.isIdle segment = true
    · have hdots : segment ≠ ['.', '.'] := by
        rintro rfl
        cases hidle
      rw [step_of_isIdle hidle, step_of_isIdle hidle, if_neg (fun h => hdots h.1), Nat.zero_add, ih]
    · by_cases hdots : segment = ['.', '.']
      · subst hdots
        rw [step_dots, step_dots]
        rcases List.eq_nil_or_concat names with rfl | ⟨names, name, rfl⟩
        · -- the pair of dots leads above the start
          have h := ih above.dropLast []
          rw [List.append_nil, List.length_dropLast, List.dropLast_eq_take, List.take_take] at h
          rw [List.append_nil, if_pos ⟨rfl, rfl⟩, List.dropLast_nil, List.dropLast_eq_take, h]
          congr 2
          omega
        · rw [List.concat_eq_append, ← List.append_assoc, List.dropLast_concat,
            List.dropLast_concat, if_neg (by simp), Nat.zero_add, ih]
      · rw [step_name hidle hdots, step_name hidle hdots, List.append_assoc,
          if_neg (fun h => hdots h.1), Nat.zero_add, ih]

end Location

namespace Path

/-- How often the path, walked from a location, leads above its start. -/
def climb (place : List Text) (path : Path) : Nat := Location.climbs place (components path)

/-- A walk takes away as many of the names above as it climbs. -/
theorem walk_append (above place : List Text) (path : Path) :
    walk (above ++ place) path =
      above.take (above.length - climb place path) ++ walk place path := by
  rw [walk_eq_components, walk_eq_components]
  exact Location.foldl_step_append above place (components path)

example : walk [['w'], ['x']] "../../../y".toList = [['y']] ∧
    climb [['x']] "../../../y".toList = 2 := by decide

/-- Along two paths the steps above a place add up. -/
theorem climb_append_slash (place : List Text) (base other : Path) :
    climb place (base ++ '/' :: other) = climb place base + climb (walk place base) other := by
  rw [climb, components_append_slash, Location.climbs_append, ← walk_eq_components]
  rfl

/-- A path that goes back first, some times. -/
def back (path : Path) : Nat → Path
  | 0 => path
  | n + 1 => "..".toList ++ '/' :: back path n

/-- A path back takes away as many names. -/
theorem walk_back (place : List Text) (path : Path) (n : Nat) :
    walk place (back path n) = walk (place.take (place.length - n)) path := by
  induction n generalizing place with
  | zero => rw [back, Nat.sub_zero, List.take_length]
  | succ n ih =>
    have hdots : walk place "..".toList = place.dropLast := rfl
    rw [back, walk_append_slash, hdots, ih, List.length_dropLast, List.dropLast_eq_take,
      List.take_take]
    congr 2
    omega

/-- A path back climbs where fewer names are above. -/
theorem climb_back_pos (place : List Text) (path : Path) {n : Nat} (h : place.length < n) :
    0 < climb place (back path n) := by
  induction n generalizing place with
  | zero => cases h
  | succ n ih =>
    rw [back, climb_append_slash]
    rcases List.eq_nil_or_concat place with rfl | ⟨above, name, rfl⟩
    · exact Nat.add_pos_left (Nat.one_pos) _
    · refine Nat.add_pos_right _ ?_
      have hdots : walk (above.concat name) "..".toList = above := by
        rw [List.concat_eq_append]
        exact List.dropLast_concat
      rw [hdots]
      refine ih above ?_
      rw [List.length_concat] at h
      omega

/-- A directory of one name in itself, over and over. -/
def nested (name : Text) (n : Nat) : Path := (List.replicate n ('/' :: name)).flatten

/-- A nested name leads down as often as it is nested. -/
theorem walk_nested {name : Text} (h : name = ['a'] ∨ name = ['b']) (n : Nat) :
    walk [] (nested name n) = List.replicate n name := by
  induction n with
  | zero => rfl
  | succ n ih =>
    have hname : ∀ place : List Text, walk place name = place ++ [name] := by
      rcases h with rfl | rfl <;> exact fun _ => rfl
    have hnested : nested name (n + 1) = nested name n ++ '/' :: name := by
      rw [nested, List.replicate_succ', List.flatten_append]
      simp [nested]
    rw [hnested, walk_append_slash, ih, hname, List.replicate_succ']

end Path

namespace Project

open Scaffold.Path (climb walk)

/-- The project whose relative root is seen from a working directory. -/
def seenFrom (root working : Path) : Project := ⟨Path.join working root⟩

section
variable {root : Path} (hroot : Path.isAbsolute root = false) (working path : Path)
include hroot

/-- The root takes names off the working directory, and its own names lead down from there. -/
theorem place_seenFrom : (seenFrom root working).place =
    (walk [] working).take ((walk [] working).length - climb [] root) ++ walk [] root := by
  have hwalk := Path.walk_append (walk [] working) [] root
  rw [List.append_nil] at hwalk
  rw [Project.place, seenFrom, Path.walk_join, hroot, if_neg Bool.false_ne_true, hwalk]

/-- What a relative root lets through: a relative path is walked from the names of the root, and an
absolute path is let through where the root has no names. -/
theorem confines_iff : confines ⟨root⟩ path = true ↔
    if Path.isAbsolute path then walk [] root = []
    else walk [] root <+: walk (walk [] root) path := by
  have hnames : (Path.location (Path.join root path)).names =
      walk (if Path.isAbsolute path then [] else walk [] root) path := Path.walk_join [] root path
  have hplace : (Path.location root).names = walk [] root := rfl
  rw [confines, resolve, Location.covers, hnames, hplace]
  cases hpath : Path.isAbsolute path with
  | true => simp [Path.location, hroot, hpath, Path.isAbsolute_join_eq]
  | false =>
    simp only [Path.location, hroot, hpath, Path.isAbsolute_join_eq, Bool.false_eq_true, if_false,
      Bool.not_false, Bool.true_and, Bool.or_false, beq_self_eq_true, Bool.or_eq_true,
      List.isEmpty_iff, List.isPrefixOf_iff_prefix]
    refine or_iff_right_of_imp fun hnone => ?_
    rw [hnone]
    exact List.nil_prefix

/-- A path that does not climb is let through where it stays in the project. -/
theorem confines_iff_owns (hpath : Path.isAbsolute path = false)
    (hclimb : climb (walk [] root) path = 0) :
    confines ⟨root⟩ path = true ↔
      (seenFrom root working).Owns ((seenFrom root working).target path) := by
  rw [confines_iff hroot, if_neg (by simp [hpath]), Owns, target, if_neg (by simp [hpath]),
    place_seenFrom hroot, Path.walk_append, hclimb, Nat.sub_zero, List.take_length,
    List.prefix_append_right_inj]

omit hroot in
/-- Some working directory is as deep as wanted, all below a name that is not the first of those
that are given. -/
theorem exists_working (names : List Text) {depth : Nat} (h : 0 < depth) : ∃ working name,
    Path.isAbsolute working = true ∧ walk [] working = List.replicate depth name ∧
      ∀ rest, ¬name :: rest <+: names := by
  have hname : ∃ name, (name = ['a'] ∨ name = ['b']) ∧ ∀ rest, ¬name :: rest <+: names := by
    cases names with
    | nil => exact ⟨['a'], .inl rfl, fun rest hprefix => by simp at hprefix⟩
    | cons first names =>
      by_cases hfirst : first = ['a']
      · refine ⟨['b'], .inr rfl, fun rest hprefix => ?_⟩
        rw [List.cons_prefix_cons, hfirst] at hprefix
        cases hprefix.1
      · exact ⟨['a'], .inl rfl, fun rest hprefix => hfirst (List.cons_prefix_cons.1 hprefix).1.symm⟩
  obtain ⟨name, hname, hfirst⟩ := hname
  obtain ⟨n, rfl⟩ := Nat.exists_eq_add_one.2 h
  exact ⟨Path.nested name (n + 1), name, rfl, Path.walk_nested hname _, hfirst⟩

/-- A path that climbs, or an absolute one, leads out of the project in some working directory. -/
theorem exists_not_owns (h : ¬(Path.isAbsolute path = false ∧ climb (walk [] root) path = 0)) :
    ∃ working, Path.isAbsolute working = true ∧
      ¬(seenFrom root working).Owns ((seenFrom root working).target path) := by
  have hplace {n : Nat} {working : Path} {name : Text}
      (hwalk : walk [] working = List.replicate (n + climb [] root) name) :
      (seenFrom root working).place = List.replicate n name ++ walk [] root := by
    rw [place_seenFrom hroot, hwalk, List.length_replicate, List.take_replicate]
    congr 2
    omega
  cases hpath : Path.isAbsolute path with
  | true =>
    obtain ⟨working, name, habsolute, hwalk, hname⟩ :=
      exists_working (walk [] path) (Nat.add_pos_left Nat.one_pos (climb [] root))
    refine ⟨working, habsolute, fun howns => ?_⟩
    rw [Owns, target, if_pos hpath, hplace hwalk] at howns
    exact hname _ howns
  | false =>
    have hclimb : 0 < climb (walk [] root) path := Nat.pos_of_ne_zero fun hzero => h ⟨hpath, hzero⟩
    obtain ⟨working, name, habsolute, hwalk, hname⟩ :=
      exists_working (walk (walk [] root) path) (Nat.add_pos_left hclimb (climb [] root))
    refine ⟨working, habsolute, fun howns => ?_⟩
    -- the path takes off all that the root has left of the working directory
    rw [Owns, target, if_neg (by simp [hpath]), hplace hwalk, Path.walk_append,
      List.length_replicate, Nat.sub_self, List.take_zero, List.nil_append] at howns
    obtain ⟨n, hn⟩ := Nat.exists_eq_add_one.2 hclimb
    rw [hn] at howns
    exact hname _ howns

/-- Every relative root lets a path through that climbs, and so do the operations of the project. -/
theorem exists_climbs : ∃ path, Path.isAbsolute path = false ∧ 0 < climb (walk [] root) path ∧
    confines ⟨root⟩ path = true ∧ ∃ full, confine ⟨root⟩ path = .ok full := by
  -- back behind the start of the root, taken twice, and then down the root again
  let path := Path.back root (2 * (walk [] root).length + 1)
  have hpath : Path.isAbsolute path = false := rfl
  have hback {place : List Text} (h : place.length ≤ 2 * (walk [] root).length) :
      walk place path = walk [] root := by
    rw [Path.walk_back, Nat.sub_eq_zero_of_le (by omega), List.take_zero]
  have htwice : (walk (walk [] root) root).length ≤ 2 * (walk [] root).length := by
    have hwalk := Path.walk_append (walk [] root) [] root
    rw [List.append_nil] at hwalk
    rw [hwalk, List.length_append, List.length_take]
    omega
  have hresolve : Path.isAbsolute (resolve ⟨root⟩ path) = false := by
    rw [resolve, Path.isAbsolute_join_eq, hroot, hpath]
    rfl
  refine ⟨path, hpath, Path.climb_back_pos _ _ (by omega), ?_, resolve ⟨root⟩ path,
    confine_eq_ok_iff.2 ⟨?_, rfl⟩⟩
  · rw [confines_iff hroot, if_neg (by simp [hpath])]
    exact ⟨[], by rw [List.append_nil, hback (by omega)]⟩
  · rw [confines_iff hroot, if_neg (by simp [hresolve]), resolve, Path.walk_join,
      if_neg (by simp [hpath])]
    exact ⟨[], by rw [List.append_nil, hback htwice]⟩

/-- **Projects with a relative root.**  A path that is let through leads to the project or below it
in every working directory just in case it is relative and does not climb above the names of the
root; what does not climb is moreover refused where it leads out. Every relative root lets a path
through that climbs, so in some working directory the project acts outside. -/
theorem confines_relative :
    (∀ path, confines ⟨root⟩ path = true →
      ((∀ working, Path.isAbsolute working = true →
          (seenFrom root working).Owns ((seenFrom root working).target path)) ↔
        Path.isAbsolute path = false ∧ climb (walk [] root) path = 0)) ∧
    (∀ path, Path.isAbsolute path = false → climb (walk [] root) path = 0 →
      confines ⟨root⟩ path = false → ∀ working, Path.isAbsolute working = true →
        ¬(seenFrom root working).Owns ((seenFrom root working).target path)) ∧
    ∃ path working full, Path.isAbsolute working = true ∧ confines ⟨root⟩ path = true ∧
      confine ⟨root⟩ path = .ok full ∧
      ¬(seenFrom root working).Owns ((seenFrom root working).target path) := by
  refine ⟨fun path hconfines => ⟨fun howns => ?_, ?_⟩, ?_, ?_⟩
  · by_contra hclimbs
    obtain ⟨working, habsolute, hout⟩ := exists_not_owns hroot path hclimbs
    exact hout (howns working habsolute)
  · rintro ⟨hpath, hclimb⟩ working -
    exact (confines_iff_owns hroot working path hpath hclimb).1 hconfines
  · intro path hpath hclimb hrefused working _ howns
    exact Bool.false_ne_true
      (hrefused.symm.trans ((confines_iff_owns hroot working path hpath hclimb).2 howns))
  · obtain ⟨path, -, hclimb, hconfines, full, hconfine⟩ := exists_climbs hroot
    obtain ⟨working, habsolute, hout⟩ := exists_not_owns hroot path fun h => hclimb.ne' h.2
    exact ⟨path, working, full, habsolute, hconfines, hconfine, hout⟩

end

/-- What the root `x` lets through stays inside where it does not climb. -/
theorem confines_relative_at_name :
    let working := "/w".toList
    confines ⟨"x".toList⟩ "a/../b".toList = true ∧
      (seenFrom "x".toList working).Owns
        ((seenFrom "x".toList working).target "a/../b".toList) := by
  intro working
  have hconfines : confines ⟨"x".toList⟩ "a/../b".toList = true := by decide +kernel
  refine ⟨hconfines, ?_⟩
  refine (((confines_relative (show Path.isAbsolute "x".toList = false by decide)).1 _
    hconfines).2 ?_) working (by decide)
  decide +kernel

/-- From the working directory `/w`, the project `.` lets the path to its parent through, and a
module that is created there stands outside. -/
theorem relative_root_escapes :
    let tree : FileTree := ⟨[([['w']], .directory)], [['w']]⟩
    let whole := seenFrom ".".toList "/w".toList
    let run := (CreatedModule.createAt ".".toList ⟨"M".toList, "..".toList⟩ :
      Action (StateM FileTree) CreatedModule).run.run tree
    let place := [['M'], "src".toList, "ConfigProvider.php".toList]
    confines ⟨".".toList⟩ "..".toList = true ∧ ¬whole.Owns (whole.target "..".toList) ∧
      run.1.toOption.isSome ∧ ¬whole.Owns place ∧ tree.node? place = none ∧
      run.2.node? place ≠ none := by
  intro tree whole run place
  exact ⟨by decide +kernel, by decide +kernel, by decide +kernel, by decide +kernel,
    by decide +kernel, by decide +kernel⟩

end Project
end Scaffold
