/-
# What creating a factory may change

Creating a factory writes the file of the factory and then, where it is asked to register it, the
aggregation file. Each of the two writes may fail, and much else may fail before, between and
behind them; a failure tells which of the two files has changed (`create_footprint`). All that is
asked of the disk is that reading leaves it as it is and that a write that fails changes no file
(`Disk.Tracks`).
-/

import Scaffold.Proofs.Project.Steady

namespace Scaffold

open Registration (Replaces run_bind run_bind_error run_ofExcept run_ofExcept_error)

/-- A disk on which nothing but a write that is done changes a file. `file? s p` is the file at the
place `p` in the state `s`, `denotes full` is the place that a path leads to, and `Holds` is what
stays true of the disk. -/
structure Disk.Tracks {σ P : Type} [DecidableEq P] [Disk (StateM σ)] (denotes : Path → P)
    (file? : σ → P → Option Node) (Holds : σ → Prop) : Prop where
  isPresent {s : σ} (h : Holds s) (full : Path) :
    ∃ present, (Disk.isPresent full : StateM σ Bool).run s = (present, s)
  read {s : σ} (h : Holds s) (full : Path) :
    ∃ found, (Disk.read? full : StateM σ (Option Text)).run s = (found, s)
  replaces (full : Path) : Replaces full (denotes full) file? Holds

/-- The files with a text put where a path leads, as seen from the project. -/
def Project.put {P : Type} [DecidableEq P] (project : Project) (denotes : Path → P) (path : Path)
    (text : Text) (files : P → Option Node) : P → Option Node :=
  Function.update files (denotes (project.resolve path)) (some (.file text))

section
variable {σ P : Type} [DecidableEq P] [Disk (StateM σ)] {denotes : Path → P}
  {file? : σ → P → Option Node} {Holds : σ → Prop} (hdisk : Disk.Tracks denotes file? Holds) {s : σ}
  (h : Holds s)

namespace Disk.Tracks

include hdisk h

/-- Asking and reading leave the disk in its state. -/
theorem steady : Disk.Steady s := ⟨hdisk.isPresent h, hdisk.read h⟩

/-- A write puts the text where its path leads, as seen from the project, or changes no file. -/
theorem project_write (project : Project) (path : Path) (text : Text) : ∃ result s',
    (project.write path text : Action (StateM σ) Unit).run.run s = (result, s') ∧ Holds s' ∧
      (result = .ok () ∧ file? s' = project.put denotes path text (file? s) ∨
        (∃ e, result = .error e ∧ ¬e.IsRegistration) ∧ file? s' = file? s) := by
  cases hconfine : project.confine path with
  | error e =>
    refine ⟨_, s, ?_, h, .inr ⟨⟨e, rfl, ?_⟩, rfl⟩⟩
    · rw [Project.write, hconfine]
      exact run_bind_error (run_ofExcept_error e s)
    · obtain ⟨-, rfl⟩ := Project.confine_eq_error_iff.1 hconfine
      rintro ⟨_, _, ⟨⟩⟩
  | ok full =>
    obtain ⟨-, rfl⟩ := Project.confine_eq_ok_iff.1 hconfine
    obtain ⟨result, s', hrun, hs', hdone | ⟨⟨e, rfl, hcause⟩, hfiles⟩⟩ :=
      (hdisk.replaces _).project_write h hconfine text
    · exact ⟨result, s', hrun, hs', .inl hdone⟩
    · refine ⟨_, s', hrun, hs', .inr ⟨⟨e, rfl, ?_⟩, hfiles⟩⟩
      rintro ⟨_, _, rfl⟩
      rcases hcause with hcause | hcause <;> cases hcause

/-- A registration changes the aggregation file if it says so, and no other file. -/
theorem register (project : Project) (settings : InjectorSettings) (factory target : ClassName) :
    ∃ result s', (Registration.register project settings factory target :
        Action (StateM σ) Registration).run.run s = (result, s') ∧ Holds s' ∧
      ((∃ e, result = .error e) ∧ file? s' = file? s ∨
        ∃ registration, result = .ok registration ∧
          registration.path = project.resolve settings.configFile ∧
          (registration.written = false ∧ file? s' = file? s ∨
            registration.written = true ∧
              ∃ text, file? s' = project.put denotes registration.path text (file? s))) := by
  rcases (hdisk.steady h).register project settings factory target with
    ⟨e, hrun⟩ | ⟨registration, hpath, ⟨hwritten, hrun⟩ | ⟨hwritten, text, hrun⟩⟩
  · exact ⟨_, s, hrun, h, .inl ⟨⟨e, rfl⟩, rfl⟩⟩
  · exact ⟨_, s, hrun, h, .inr ⟨registration, rfl, hpath, .inl ⟨hwritten, rfl⟩⟩⟩
  · rw [hrun]
    obtain ⟨result, s', hwrite, hs', ⟨rfl, hfiles⟩ | ⟨⟨e, rfl, -⟩, hfiles⟩⟩ :=
      hdisk.project_write h project registration.path text
    · exact ⟨_, s', run_bind hwrite, hs',
        .inr ⟨registration, rfl, hpath, .inr ⟨hwritten, text, hfiles⟩⟩⟩
    · exact ⟨_, s', run_bind_error hwrite, hs', .inl ⟨⟨e, rfl⟩, hfiles⟩⟩

/-- A factory is written as a whole, or no file has changed. -/
theorem generate (project : Project) (autoload : Autoload) (suffix : Text) (target : ClassName)
    (overwrite : Bool) :
    ∃ result s', (Factory.generate project autoload suffix target overwrite :
        Action (StateM σ) Factory).run.run s = (result, s') ∧ Holds s' ∧
      ((∃ e, result = .error e ∧ ¬e.IsRegistration) ∧ file? s' = file? s ∨
        ∃ factory, result = .ok factory ∧ factory.target = target ∧
          factory.Planned autoload suffix ∧
          file? s' = project.put denotes factory.path factory.text (file? s)) := by
  rcases (hdisk.steady h).generate project autoload suffix target overwrite with
    ⟨e, he, hrun⟩ | ⟨factory, htarget, hplanned, hrun⟩
  · exact ⟨_, s, hrun, h, .inl ⟨⟨e, rfl, he⟩, rfl⟩⟩
  · rw [hrun]
    obtain ⟨result, s', hwrite, hs', ⟨rfl, hfiles⟩ | ⟨⟨e, rfl, he⟩, hfiles⟩⟩ :=
      hdisk.project_write h project factory.path factory.text
    · exact ⟨_, s', run_bind hwrite, hs', .inr ⟨factory, rfl, htarget, hplanned, hfiles⟩⟩
    · exact ⟨_, s', run_bind_error hwrite, hs', .inl ⟨⟨e, rfl, he⟩, hfiles⟩⟩

end Disk.Tracks

/-! ### Creating a factory -/

variable (denotes) in
/-- How creating a factory comes out, and the files that it leaves of `files`. -/
inductive Footprint (context : Context) (request : FactoryRequest) (files : P → Option Node) :
    Except Failure CreatedFactory → (P → Option Node) → Prop
  | nothing {e : Failure} (cause : ¬e.IsRegistration) :
      Footprint context request files (.error e) files
  | unregistered {factory : Factory} {cause : Failure} (asked : request.noRegister = false)
      (target : ClassName.parse request.target = .ok factory.target)
      (planned : factory.Planned context.autoload context.settings.suffix) :
      Footprint context request files (.error (.registrationFailed factory.path cause))
        (context.project.put denotes factory.path factory.text files)
  | alone {factory : Factory} (asked : request.noRegister = true)
      (target : ClassName.parse request.target = .ok factory.target)
      (planned : factory.Planned context.autoload context.settings.suffix) :
      Footprint context request files (.ok ⟨factory, none⟩)
        (context.project.put denotes factory.path factory.text files)
  | registered {factory : Factory} {registration : Registration}
      (asked : request.noRegister = false)
      (target : ClassName.parse request.target = .ok factory.target)
      (planned : factory.Planned context.autoload context.settings.suffix)
      (path_eq : registration.path = context.project.resolve context.settings.injector.configFile)
      (unwritten : registration.written = false) :
      Footprint context request files (.ok ⟨factory, some registration⟩)
        (context.project.put denotes factory.path factory.text files)
  | aggregated {factory : Factory} {registration : Registration} {text : Text}
      (asked : request.noRegister = false)
      (target : ClassName.parse request.target = .ok factory.target)
      (planned : factory.Planned context.autoload context.settings.suffix)
      (path_eq : registration.path = context.project.resolve context.settings.injector.configFile)
      (written : registration.written = true) :
      Footprint context request files (.ok ⟨factory, some registration⟩)
        (context.project.put denotes registration.path text
          (context.project.put denotes factory.path factory.text files))

include hdisk h

/-- **What creating a factory may change.**  A write that fails changes no file (`hdisk`). A failure
that is not one of registering has changed no file. Where registering fails, the file of the factory
has been put where its path leads, and every other file is as before, the aggregation file among
them. A factory that is not to be registered is put there and nowhere else; one that is registered
changes the aggregation file besides, and only if the registration says that it was written. -/
theorem create_footprint (context : Context) (request : FactoryRequest) : ∃ result s',
    (Factory.create context request : Action (StateM σ) CreatedFactory).run.run s = (result, s') ∧
      Holds s' ∧ Footprint denotes context request (file? s) result (file? s') := by
  unfold Factory.create
  cases hparse : ClassName.parse request.target with
  | error e =>
    refine ⟨_, s, run_bind_error (run_ofExcept_error e s), h, .nothing ?_⟩
    rintro ⟨path, cause, rfl⟩
    unfold ClassName.parse at hparse
    dsimp only at hparse
    split at hparse <;> cases hparse
  | ok target =>
    rw [run_bind (run_ofExcept target s)]
    obtain ⟨result, s₁, hrun, hs₁, ⟨⟨e, rfl, he⟩, hfiles⟩ | ⟨factory, rfl, rfl, hplanned, hfiles⟩⟩ :=
      hdisk.generate h context.project context.autoload context.settings.suffix target
        request.overwrite
    · rw [run_bind_error (show (Factory.generateIn context target request.overwrite :
        Action (StateM σ) Factory).run.run s = _ from hrun)]
      exact ⟨_, s₁, rfl, hs₁, hfiles ▸ .nothing he⟩
    · rw [run_bind (show (Factory.generateIn context factory.target request.overwrite :
        Action (StateM σ) Factory).run.run s = _ from hrun)]
      cases hasked : request.noRegister with
      | true => exact ⟨_, s₁, rfl, hs₁, hfiles ▸ .alone hasked hparse hplanned⟩
      | false =>
        rw [if_neg Bool.false_ne_true]
        obtain ⟨result, s₂, hregister, hs₂, hcases⟩ := hdisk.register hs₁ context.project
          context.settings.injector factory.name factory.target
        have hadapted := Factory.run_registerIn hregister
        rw [hfiles] at hcases
        rcases hcases with
          ⟨⟨e, rfl⟩, hsame⟩ | ⟨registration, rfl, hp, ⟨hw, hsame⟩ | ⟨hw, text, hput⟩⟩
        · exact ⟨_, s₂, run_bind_error hadapted, hs₂, hsame ▸ .unregistered hasked hparse hplanned⟩
        · exact ⟨_, s₂, run_bind hadapted, hs₂, hsame ▸ .registered hasked hparse hplanned hp hw⟩
        · exact ⟨_, s₂, run_bind hadapted, hs₂, hput ▸ .aggregated hasked hparse hplanned hp hw⟩

end

/-! ### On a file tree -/

/-- Where a path leads by its text, from a working directory. -/
def FileTree.denotes (top : List Text) (full : Path) : List Text :=
  Path.walk (if Path.isAbsolute full then [] else top) full

/-- A path that goes on is walked from where it leads so far. -/
theorem FileTree.denotes_append_slash {base : Path} (h : base ≠ []) (top : List Text)
    (rest : Path) : denotes top (base ++ '/' :: rest) = Path.walk (denotes top base) rest := by
  rw [denotes, denotes, Path.isAbsolute_append_eq h, Path.walk_append_slash]

/-- A write that is done puts the file to which its path leads. -/
theorem Project.Wrote.file?_eq_put {project : Project} {path : Path} {text : Text}
    {tree tree' : FileTree} (h : project.Wrote path text tree (.ok ()) tree') :
    tree'.file? =
      project.put (FileTree.denotes tree.workingDirectory) path text tree.file? := by
  cases h with
  | written confine grown _ named =>
    obtain ⟨-, rfl⟩ := confine_eq_ok_iff.1 confine
    rw [FileTree.file?_setNode _ named.ne_nil, grown.file?_eq, put, named.place_eq, FileTree.start,
      grown.extend.workingDirectory_eq]
    rfl

/-- **A file tree tracks its files** by where paths lead. -/
theorem FileTree.tracks (top : List Text) :
    Disk.Tracks (denotes top) file? (·.workingDirectory = top) where
  isPresent _ _ := ⟨_, rfl⟩
  read _ _ := ⟨_, rfl⟩
  replaces full :=
    { createDirectories := fun {tree} h directory _ => by
        have hgrown := grown_createWithin (directory.length + 1) tree directory
        exact ⟨(tree.createDirectories directory).2, (tree.createDirectories directory).1, rfl,
          hgrown.extend.workingDirectory_eq.trans h, hgrown.file?_eq⟩
      replace := fun {tree} h text => by
        refine ⟨(tree.replace full text).2, (tree.replace full text).1, rfl, ?_⟩
        rcases tree.replace_cases full text with hsame | ⟨place, hnamed, -, hput⟩
        · rw [hsame]
          exact ⟨h, rfl⟩
        · have hplace : denotes top full = place := by
            rw [hnamed.place_eq, denotes, start, h]
          rw [hput, hplace]
          exact ⟨h, file?_setNode tree hnamed.ne_nil text⟩ }

/-- The aggregation file returns no array. The factory is there all the same, and nothing else is
new. -/
theorem create_footprint_unregistered :
    let tree : FileTree :=
      ⟨[([['p']], .directory), ([['p'], ['c']], .file "<?php return 1;".toList)], []⟩
    let context : Context := ⟨⟨"/p".toList⟩, ⟨"Factory".toList, ⟨['c'], true⟩, []⟩,
      ⟨[⟨"A\\".toList, "src".toList⟩]⟩⟩
    let factory : Factory := ⟨⟨"A\\B".toList⟩, ⟨"A\\BFactory".toList⟩, "src/BFactory.php".toList⟩
    ∃ cause tree', (Factory.create context ⟨"A\\B".toList, false, false⟩ :
        Action (StateM FileTree) CreatedFactory).run.run tree =
          (.error (.registrationFailed factory.path cause), tree') ∧
      tree'.file? = Function.update tree.file? [['p'], "src".toList, "BFactory.php".toList]
        (some (.file factory.text)) := by
  intro tree context factory
  let request : FactoryRequest := ⟨"A\\B".toList, false, false⟩
  obtain ⟨result, tree', hrun, -, hfootprint⟩ :=
    create_footprint (FileTree.tracks []) (show tree.workingDirectory = [] from rfl) context request
  have hfailed : (match ((Factory.create context request :
      Action (StateM FileTree) CreatedFactory).run.run tree).1 with
      | .error e => e
      | .ok _ => .disk) = .registrationFailed factory.path (.configFile "/p/c".toList
        (.malformed ⟨1, 14⟩ (.fault .notAnArray))) := by decide +kernel
  rw [hrun] at hfailed
  generalize hfiles : tree'.file? = files at hfootprint
  cases hfootprint with
  | nothing cause => exact absurd ⟨_, _, hfailed⟩ cause
  | @unregistered found cause asked target planned =>
    have hparse : ClassName.parse request.target = .ok factory.target :=
      Script.eq_ok_of_toOption (by decide +kernel)
    have hplace : FileTree.denotes [] (context.project.resolve factory.path) =
        [['p'], "src".toList, "BFactory.php".toList] := by decide +kernel
    have hfound : found = factory := by
      have htarget : found.target = factory.target := Except.ok.inj (target.symm.trans hparse)
      have hname := planned.name_eq
      rw [htarget] at hname
      exact congr (congr (congrArg Factory.mk htarget) hname)
        (Failure.registrationFailed.inj hfailed).1
    subst hfound
    refine ⟨cause, tree', hrun, hfiles.trans ?_⟩
    rw [Project.put, hplace]
  | alone => cases hfailed
  | registered => cases hfailed
  | aggregated => cases hfailed

end Scaffold
