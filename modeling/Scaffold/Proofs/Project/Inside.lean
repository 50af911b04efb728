/-
# A project acts inside its directory

The root of the project is absolute. A location belongs to the project if it is the one the root is
walked to or lies below it (`Owns`), and a path names the location it is walked to from there
(`target`). Where that location belongs to the project, the operations of the project act on it
and on no file elsewhere (`ActsAt`); where it does not, they refuse the path (`Refuses`). So the
commands, which only use these operations, change no file outside (`acts_inside`).
-/

import Scaffold.Proofs.Project.Steps

namespace Scaffold

/-- The files at the locations with the property are the same in both trees. -/
def FileTree.Agree (P : List Text → Prop) (tree tree' : FileTree) : Prop :=
  ∀ place, P place → tree'.file? place = tree.file? place

namespace Project

/-- The location of the project's directory. -/
def place (project : Project) : List Text := Path.walk [] project.root

/-- The location that a path is walked to, as seen from the project. -/
def target (project : Project) (path : Path) : List Text :=
  Path.walk (if Path.isAbsolute path then [] else project.place) path

/-- The location is that of the project's directory or lies below it, by whole names. -/
def Owns (project : Project) (place : List Text) : Prop := project.place <+: place

instance (project : Project) (place : List Text) : Decidable (project.Owns place) :=
  inferInstanceAs (Decidable (_ <+: _))

/-- The operations refuse a path. -/
structure Refuses (project : Project) (path : Path) : Prop where
  write (text : Text) (tree : FileTree) :
    (project.write path text : Action (StateM FileTree) Unit).run.run tree =
      (.error (.pathTraversal (project.resolve path)), tree)
  read (tree : FileTree) :
    (project.read path : Action (StateM FileTree) Text).run.run tree =
      (.error (.pathTraversal (project.resolve path)), tree)
  isPresent (tree : FileTree) :
    (project.isPresent path : StateM FileTree Bool).run tree = (false, tree)

/-- Through a path, the operations act on what stands at one location: a write puts the text there
and changes no other file, or it fails and changes none; what is read is the text that stands there;
and what is present stands there. -/
structure ActsAt (project : Project) (path : Path) (place : List Text) : Prop where
  write (text : Text) (tree : FileTree) : ∃ result tree',
    (project.write path text : Action (StateM FileTree) Unit).run.run tree = (result, tree') ∧
      (result = .ok () ∧
          tree'.file? = Function.update tree.file? place (some (.file text)) ∨
        (∃ e, result = .error e ∧ ∀ full, e ≠ .pathTraversal full) ∧ tree'.file? = tree.file?)
  read (tree : FileTree) : ∃ result,
    (project.read path : Action (StateM FileTree) Text).run.run tree = (result, tree) ∧
      (result = .error .disk ∨ ∃ text, result = .ok text ∧ tree.node? place = some (.file text))
  isPresent (tree : FileTree) : ∃ present,
    (project.isPresent path : StateM FileTree Bool).run tree = (present, tree) ∧
      (present = true → (tree.node? place).isSome)

section
variable {project : Project} (hroot : Path.isAbsolute project.root = true)
include hroot

/-- What a project with an absolute root resolves is absolute. -/
theorem isAbsolute_resolve (path : Path) : Path.isAbsolute (project.resolve path) = true :=
  Path.isAbsolute_join hroot

/-- A path is let through just in case it leads to the project or below it. -/
theorem confines_resolve_iff (path : Path) :
    project.confines (project.resolve path) = true ↔ project.Owns (project.target path) := by
  have habsolute := isAbsolute_resolve hroot path
  have hresolve : project.resolve (project.resolve path) = project.resolve path :=
    Path.join_of_isAbsolute habsolute
  have hnames : (Path.location (project.resolve path)).names = project.target path :=
    Path.walk_join [] project.root path
  rw [confines, hresolve, Location.covers, hnames]
  simp [Path.location, hroot, habsolute, Owns, place, Path.walk]

/-- A path that leads out of the project is refused. -/
theorem refuses_of_not_owns {path : Path} (h : ¬project.Owns (project.target path)) :
    project.Refuses path := by
  have hconfine : project.confine path = .error (.pathTraversal (project.resolve path)) :=
    confine_eq_error_iff.2 ⟨fun hok => h ((confines_resolve_iff hroot path).1 hok), rfl⟩
  refine ⟨fun text tree => ?_, fun tree => ?_, fun tree => ?_⟩
  · obtain ⟨result, tree', hrun, hwrote⟩ := run_write project path text tree
    rw [hrun]
    cases hwrote with
    | refused confine =>
      obtain rfl := Except.error.inj (confine.symm.trans hconfine)
      rfl
    | failed confine => cases confine.symm.trans hconfine
    | written confine => cases confine.symm.trans hconfine
  · rw [run_read, hconfine]
  · rw [run_isPresent, hconfine]

/-- What a resolved path names is its target. -/
theorem eq_target_of_named {tree : FileTree} {path : Path} {place : List Text}
    (h : FileTree.Named tree (project.resolve path) place) : place = project.target path := by
  have hstart : tree.start (project.resolve path) = [] := if_pos (isAbsolute_resolve hroot path)
  rw [h.place_eq, hstart]
  exact Path.walk_join [] project.root path

/-- What a resolved path leads to stands at its target. -/
theorem node?_target_of_nodeAt? {tree : FileTree} {path : Path} {node : Node}
    (h : tree.nodeAt? (project.resolve path) = some node) :
    tree.node? (project.target path) = some node := by
  have hstart : tree.start (project.resolve path) = [] := if_pos (isAbsolute_resolve hroot path)
  have hwalk : Path.walk [] (project.resolve path) = project.target path :=
    Path.walk_join [] project.root path
  rw [← hwalk, ← hstart]
  exact FileTree.node?_walk_of_nodeAt? h

/-- What is written stands at the location that its path names, and no other file changes. -/
theorem Wrote.file?_eq {path : Path} {text : Text} {tree tree' : FileTree}
    (h : project.Wrote path text tree (.ok ()) tree') :
    tree'.file? = Function.update tree.file? (project.target path) (some (.file text)) := by
  cases h with
  | written confine grown _ named free =>
    obtain ⟨-, rfl⟩ := confine_eq_ok_iff.1 confine
    rw [FileTree.file?_setNode _ named.ne_nil, grown.file?_eq, eq_target_of_named hroot named]

/-- A path that stays in the project acts on the location that it names. -/
theorem actsAt_of_owns {path : Path} (h : project.Owns (project.target path)) :
    project.ActsAt path (project.target path) := by
  have hconfine : project.confine path = .ok (project.resolve path) :=
    confine_eq_ok_iff.2 ⟨(confines_resolve_iff hroot path).2 h, rfl⟩
  refine ⟨fun text tree => ?_, fun tree => ?_, fun tree => ?_⟩
  · obtain ⟨result, tree', hrun, hwrote⟩ := run_write project path text tree
    refine ⟨result, tree', hrun, ?_⟩
    cases hwrote with
    | refused confine => cases confine.symm.trans hconfine
    | failed confine cause grown =>
      refine .inr ⟨⟨_, rfl, ?_⟩, grown.file?_eq⟩
      rcases cause with rfl | rfl <;> exact fun _ => nofun
    | written confine grown rooted named free =>
      exact .inl ⟨rfl, Wrote.file?_eq hroot (.written confine grown rooted named free)⟩
  · rw [run_read, hconfine]
    dsimp only
    cases hread : tree.read? (project.resolve path) with
    | none => exact ⟨_, rfl, .inl rfl⟩
    | some text =>
      exact ⟨_, rfl, .inr ⟨text, rfl,
        node?_target_of_nodeAt? hroot (FileTree.read?_eq_some_iff.1 hread)⟩⟩
  · rw [run_isPresent, hconfine]
    refine ⟨_, rfl, fun hpresent => ?_⟩
    obtain ⟨node, hnode⟩ := Option.isSome_iff_exists.1 hpresent
    rw [node?_target_of_nodeAt? hroot hnode]
    rfl

end

/-- What is done in a project changes no file outside. -/
theorem respects_outside {project : Project} (hroot : Path.isAbsolute project.root = true) :
    project.Respects (FileTree.Agree (¬project.Owns ·)) where
  refl _ _ _ := rfl
  trans h h' place hplace := (h' place hplace).trans (h place hplace)
  write path text tree place hplace := by
    by_cases howns : project.Owns (project.target path)
    · obtain ⟨result, tree', hrun, ⟨-, hfiles⟩ | ⟨-, hfiles⟩⟩ :=
        (actsAt_of_owns hroot howns).write text tree
      · rw [hrun]
        dsimp only
        rw [hfiles, Function.update_of_ne]
        rintro rfl
        exact hplace howns
      · rw [hrun]
        exact congrFun hfiles place
    · rw [(refuses_of_not_owns hroot howns).write text tree]

end Project

open Scaffold.Action (Steps)
open FileTree (Agree)

/-- **A project acts inside its directory.**  The root is absolute, with dots or without. A path
that is walked to the project's directory or below it is acted on there; any other is refused, and
the tree is as it was. Whatever the settings, the namespaces and the names are, registering a
factory, creating one and creating a module change no file outside. -/
theorem acts_inside {project : Project} (hroot : Path.isAbsolute project.root = true) :
    (∀ path, project.Owns (project.target path) →
      project.ActsAt path (project.target path)) ∧
    (∀ path, ¬project.Owns (project.target path) → project.Refuses path) ∧
    (∀ settings factory target, Steps (Agree (¬project.Owns ·))
      (Registration.register project settings factory target)) ∧
    (∀ context : Context, context.project = project →
      (∀ request, Steps (Agree (¬project.Owns ·)) (Factory.create context request)) ∧
      (∀ request, Steps (Agree (¬project.Owns ·)) (CreatedModule.create context request))) ∧
    (∀ request, Steps (Agree (¬project.Owns ·)) (Factory.createAt project.root request)) ∧
    (∀ request, Steps (Agree (¬project.Owns ·)) (CreatedModule.createAt project.root request)) := by
  have hrespects := Project.respects_outside hroot
  exact ⟨fun path => Project.actsAt_of_owns hroot, fun path => Project.refuses_of_not_owns hroot,
    hrespects.register,
    fun context hproject => ⟨hrespects.createFactory hproject, hrespects.createModule hproject⟩,
    hrespects.createFactoryAt, hrespects.createModuleAt⟩

/-- In the project at `/a/./../p`, a path that leaves it and comes back is acted on, and one of a
directory whose name starts alike is refused. -/
theorem acts_inside_at_dots :
    let project : Project := ⟨"/a/./../p".toList⟩
    project.ActsAt "../../p/c/../d".toList [['p'], ['d']] ∧ project.Refuses "../pq/d".toList ∧
      ∀ request, Steps (Agree (¬project.Owns ·)) (CreatedModule.createAt project.root request) := by
  intro project
  obtain ⟨hacts, hrefuses, -, -, -, hmodules⟩ :=
    acts_inside (show Path.isAbsolute project.root = true by decide)
  have hd : project.target "../../p/c/../d".toList = [['p'], ['d']] := by decide +kernel
  refine ⟨?_, hrefuses _ (by decide +kernel), hmodules⟩
  rw [← hd]
  exact hacts _ (by decide +kernel)

end Scaffold
