/-
# The files of a module

A module that is created has two files, whose paths go on from the path of its directory
(`plan_files`). Creating it has one of a few outcomes (`Outcome`): nothing is written, where the
name is none or something stands in the module's place; or one of the two writes fails; or both
files are written.
-/

import Scaffold.Proofs.ClassName
import Scaffold.Proofs.Project.Access
import Scaffold.ModuleCreation

namespace Scaffold

namespace Path

/-- A relative path is joined behind a slash. -/
theorem join_eq_append {base other : Path} (h : isAbsolute other = false) (hbase : base ≠ [])
    (hlast : base.getLast? ≠ some '/') : join base other = base ++ '/' :: other := by
  rw [join, if_neg (by rw [h]; exact Bool.false_ne_true), if_neg]
  simpa using ⟨hbase, hlast⟩

/-- A joined path ends with the second one. -/
theorem suffix_join (base other : Path) : other <:+ join base other := by
  unfold join
  split
  · exact List.suffix_refl other
  · split
    · exact List.suffix_append base other
    · exact (List.suffix_cons '/' other).trans (List.suffix_append base _)

end Path

namespace CreatedModule

variable {project : Project} {request : ModuleRequest} {layout : ModuleLayout}

/-- A module is planned just in case its name is an identifier, at the place that the request
gives. -/
theorem plan_eq_ok_iff : plan project request = .ok layout ↔
    isIdentifier request.name = true ∧
      layout = ⟨request.name, project.resolve (relativeRoot request), "src".toList⟩ := by
  unfold plan ModuleLayout.parse
  split
  · rename_i h
    exact ⟨fun hok => ⟨h, (Except.ok.inj hok).symm⟩, fun hok => congrArg Except.ok hok.2.symm⟩
  · rename_i h
    exact iff_of_false nofun fun hok => h hok.1

/-- A path that ends with an identifier ends with no slash. -/
theorem ne_nil_of_suffix {name path : Text} (hname : isIdentifier name = true)
    (hsuffix : name <:+ path) : path ≠ [] ∧ path.getLast? ≠ some '/' := by
  have hne : name ≠ [] := by
    rintro rfl
    cases hname
  refine ⟨fun hnil => hne (List.suffix_nil.1 (hnil ▸ hsuffix)), fun hslash => ?_⟩
  obtain ⟨before, rfl⟩ := hsuffix
  rw [List.getLast?_append, List.getLast?_eq_some_getLast hne, Option.some_or] at hslash
  have hchar := (isIdentifier_iff.1 hname).2 _ (List.getLast_mem hne)
  rw [Option.some.inj hslash] at hchar
  cases hchar

/-- The directory of a module does not end with a slash. -/
theorem rootPath_ends (h : plan project request = .ok layout) :
    layout.rootPath ≠ [] ∧ layout.rootPath.getLast? ≠ some '/' := by
  obtain ⟨hname, rfl⟩ := plan_eq_ok_iff.1 h
  exact ne_nil_of_suffix hname
    ((Path.suffix_join _ request.name).trans (Path.suffix_join project.root _))

/-- The file of the configuration provider and the one that keeps the templates. -/
theorem plan_files (h : plan project request = .ok layout) :
    Path.join layout.sourceDirectory "ConfigProvider.php".toList =
        layout.rootPath ++ '/' :: "src/ConfigProvider.php".toList ∧
      templatesKeeper layout = layout.rootPath ++ '/' :: "templates/.gitkeep".toList := by
  obtain ⟨hne, hlast⟩ := rootPath_ends h
  obtain ⟨-, rfl⟩ := plan_eq_ok_iff.1 h
  change project.resolve (relativeRoot request) ≠ [] at hne
  have hjoin : ∀ directory file : Path, Path.isAbsolute directory = false →
      directory.getLast?.any (· != '/') → Path.isAbsolute file = false →
      Path.join (Path.join (project.resolve (relativeRoot request)) directory) file =
        project.resolve (relativeRoot request) ++ '/' :: (directory ++ '/' :: file) := by
    intro directory file hdirectory hend hfile
    rw [Path.join_eq_append hdirectory hne hlast, Path.join_eq_append hfile]
    · rw [List.append_assoc]
      rfl
    · exact List.append_ne_nil_of_left_ne_nil hne _
    · rw [List.getLast?_append, List.getLast?_cons]
      cases hd : directory.getLast? with
      | none =>
        rw [hd] at hend
        cases hend
      | some c =>
        rw [hd] at hend
        simpa using hend
  exact ⟨hjoin "src".toList _ rfl rfl rfl, hjoin "templates".toList _ rfl rfl rfl⟩

/-- The provider of a module stands in its source directory. -/
theorem walk_provider (place : List Text) : Path.walk place "src/ConfigProvider.php".toList =
    place ++ ["src".toList, "ConfigProvider.php".toList] :=
  Location.foldl_step_names (by decide +kernel) place

/-- The keeper of a module stands in its directory of templates. -/
theorem walk_keeper (place : List Text) : Path.walk place "templates/.gitkeep".toList =
    place ++ ["templates".toList, ".gitkeep".toList] :=
  Location.foldl_step_names (by decide +kernel) place

open Registration (run_bind run_bind_error run_lift run_ofExcept run_ofExcept_error)

variable {σ : Type} [Disk (StateM σ)]

/-- How creating a module comes out. -/
inductive Outcome (project : Project) (request : ModuleRequest) (s : σ) :
    Except Failure CreatedModule → σ → Prop
  | unplanned {e : Failure} (plan : plan project request = .error e) :
      Outcome project request s (.error e) s
  | occupied {layout : ModuleLayout} (plan : plan project request = .ok layout)
      (present : (project.isPresent layout.rootPath : StateM σ Bool).run s = (true, s)) :
      Outcome project request s (.error (.fileExists layout.rootPath)) s
  | noProvider {layout : ModuleLayout} {e : Failure} {s₁ : σ}
      (plan : plan project request = .ok layout)
      (absent : (project.isPresent layout.rootPath : StateM σ Bool).run s = (false, s))
      (provider : (project.write (Path.join layout.sourceDirectory "ConfigProvider.php".toList)
        (providerSource layout.name) : Action (StateM σ) Unit).run.run s = (.error e, s₁)) :
      Outcome project request s (.error e) s₁
  | noKeeper {layout : ModuleLayout} {e : Failure} {s₁ s₂ : σ}
      (plan : plan project request = .ok layout)
      (absent : (project.isPresent layout.rootPath : StateM σ Bool).run s = (false, s))
      (provider : (project.write (Path.join layout.sourceDirectory "ConfigProvider.php".toList)
        (providerSource layout.name) : Action (StateM σ) Unit).run.run s = (.ok (), s₁))
      (keeper : (project.write (templatesKeeper layout) [] :
        Action (StateM σ) Unit).run.run s₁ = (.error e, s₂)) :
      Outcome project request s (.error e) s₂
  | created {layout : ModuleLayout} {s₁ s₂ : σ}
      (plan : plan project request = .ok layout)
      (absent : (project.isPresent layout.rootPath : StateM σ Bool).run s = (false, s))
      (provider : (project.write (Path.join layout.sourceDirectory "ConfigProvider.php".toList)
        (providerSource layout.name) : Action (StateM σ) Unit).run.run s = (.ok (), s₁))
      (keeper : (project.write (templatesKeeper layout) [] :
        Action (StateM σ) Unit).run.run s₁ = (.ok (), s₂)) :
      Outcome project request s
        (.ok
          { layout, configProvider := Path.join layout.sourceDirectory "ConfigProvider.php".toList,
            autoloadDirectory := Path.join (relativeRoot request) layout.sourcePath ++ ['/'] })
        s₂

/-- **Creating a module has one of its outcomes**, on a disk that asking leaves as it is. -/
theorem run_create (context : Context) (request : ModuleRequest) {s : σ}
    (hask : ∀ path, ∃ present,
      (context.project.isPresent path : StateM σ Bool).run s = (present, s)) :
    ∃ result s', (create context request : Action (StateM σ) CreatedModule).run.run s =
      (result, s') ∧ Outcome context.project request s result s' := by
  unfold create
  dsimp only
  cases hplan : plan context.project request with
  | error e => exact ⟨_, s, run_bind_error (run_ofExcept_error e s), .unplanned hplan⟩
  | ok layout =>
    rw [run_bind (run_ofExcept layout s)]
    obtain ⟨present, hpresent⟩ := hask layout.rootPath
    rw [run_bind (run_lift hpresent)]
    cases present with
    | true => exact ⟨_, s, rfl, .occupied hplan hpresent⟩
    | false =>
      rw [if_neg Bool.false_ne_true]
      cases hprovider : (context.project.write
          (Path.join layout.sourceDirectory "ConfigProvider.php".toList)
          (providerSource layout.name) : Action (StateM σ) Unit).run.run s with
      | mk result s₁ =>
        cases result with
        | error e =>
          exact ⟨_, s₁, run_bind_error hprovider, .noProvider hplan hpresent hprovider⟩
        | ok =>
          rw [run_bind hprovider]
          cases hkeeper : (context.project.write (templatesKeeper layout) [] :
              Action (StateM σ) Unit).run.run s₁ with
          | mk result s₂ =>
            cases result with
            | error e =>
              exact ⟨_, s₂, run_bind_error hkeeper, .noKeeper hplan hpresent hprovider hkeeper⟩
            | ok =>
              rw [run_bind hkeeper]
              exact ⟨_, s₂, rfl, .created hplan hpresent hprovider hkeeper⟩

end CreatedModule
end Scaffold
