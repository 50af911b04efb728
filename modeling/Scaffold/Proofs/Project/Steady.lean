/-
# Steps that only read

What creating a factory does before it writes. Loading the project, asking for files and reading
them leave the disk in its state, whatever they find (`Disk.Steady`). So a registration and the
creation of a factory either end there, or come down to one write (`Disk.Steady.register`,
`Disk.Steady.generate`).
-/

import Scaffold.Factory
import Scaffold.Proofs.Project.Access

namespace Scaffold

open Registration (run_bind run_bind_error run_lift run_ofExcept run_ofExcept_error)

/-- Asking and reading leave the disk in its state. -/
structure Disk.Steady {σ : Type} [Disk (StateM σ)] (s : σ) : Prop where
  isPresent (full : Path) :
    ∃ present, (Disk.isPresent full : StateM σ Bool).run s = (present, s)
  read (full : Path) :
    ∃ found, (Disk.read? full : StateM σ (Option Text)).run s = (found, s)

/-- The failure is one of registering a factory that was written. -/
def Failure.IsRegistration (e : Failure) : Prop := ∃ path cause, e = .registrationFailed path cause

/-- The factory has the name and the place that a context gives to the factory of its class. -/
structure Factory.Planned (autoload : Autoload) (suffix : Text) (factory : Factory) : Prop where
  name_eq : factory.name = factory.target.withSuffix suffix
  path_eq : autoload.factoryPath factory.target suffix = .ok factory.path

/-- The file of a factory. -/
def Factory.text (factory : Factory) : Text := source factory.target factory.name

/-- Steps that leave the disk as it is do so together. -/
theorem exists_run_bind {σ α β : Type} {x : Action (StateM σ) α}
    {f : α → Action (StateM σ) β} {s : σ} (hx : ∃ result, x.run.run s = (result, s))
    (hf : ∀ a, ∃ result, (f a).run.run s = (result, s)) :
    ∃ result, (x >>= f).run.run s = (result, s) := by
  obtain ⟨result, hx⟩ := hx
  cases result with
  | error e => exact ⟨_, run_bind_error hx⟩
  | ok a =>
    obtain ⟨result, hf⟩ := hf a
    exact ⟨result, (run_bind hx).trans hf⟩

namespace Disk.Steady

variable {σ : Type} [Disk (StateM σ)] {s : σ} (h : Disk.Steady s)
include h

/-- Asking for a file changes nothing. -/
theorem project_isPresent (project : Project) (path : Path) : ∃ present,
    (project.isPresent path : StateM σ Bool).run s = (present, s) := by
  unfold Project.isPresent
  cases project.confine path with
  | error e => exact ⟨false, rfl⟩
  | ok full => exact h.isPresent full

/-- Reading a file changes nothing. -/
theorem project_read (project : Project) (path : Path) : ∃ result,
    (project.read path : Action (StateM σ) Text).run.run s = (result, s) := by
  unfold Project.read
  cases project.confine path with
  | error e => exact ⟨_, run_bind_error (run_ofExcept_error e s)⟩
  | ok full =>
    obtain ⟨found, hread⟩ := h.read full
    rw [run_bind (run_ofExcept full s), run_bind (run_lift hread)]
    cases found with
    | none => exact ⟨_, rfl⟩
    | some text => exact ⟨_, rfl⟩

/-- Asking for a file, as a step of an action, changes nothing. -/
theorem lift_isPresent (project : Project) (path : Path) : ∃ result,
    (ExceptT.lift (project.isPresent path) : Action (StateM σ) Bool).run.run s = (result, s) := by
  obtain ⟨present, hpresent⟩ := h.project_isPresent project path
  exact ⟨_, run_lift hpresent⟩

/-- Loading a project leaves the disk as it is. -/
theorem load (project : Project) : ∃ result,
    (Context.load project : Action (StateM σ) Context).run.run s = (result, s) := by
  have hsettings : ∃ result,
      (Context.loadSettings project : Action (StateM σ) Settings).run.run s = (result, s) := by
    refine exists_run_bind (h.lift_isPresent project Settings.fileName) fun present => ?_
    cases present with
    | false => exact ⟨_, rfl⟩
    | true => exact exists_run_bind (h.project_read project Settings.fileName) fun text => ⟨_, rfl⟩
  have hspaces : ∃ result,
      (Context.loadManifestSpaces project : Action (StateM σ) (Table Path)).run.run s =
        (result, s) := by
    refine exists_run_bind (h.lift_isPresent project Manifest.fileName) fun present => ?_
    cases present with
    | false => exact ⟨_, rfl⟩
    | true =>
      refine exists_run_bind (h.project_read project Manifest.fileName) fun text => ?_
      exact exists_run_bind ⟨_, rfl⟩ fun manifest => ⟨_, rfl⟩
  refine exists_run_bind hsettings fun settings => ?_
  exact exists_run_bind (exists_run_bind hspaces fun spaces => ⟨_, rfl⟩) fun autoload => ⟨_, rfl⟩

/-- Opening a document changes nothing. -/
theorem openDocument (project : Project) (settings : InjectorSettings) (path : Path) : ∃ result,
    (Registration.openDocument project settings path :
      Action (StateM σ) Config.Document).run.run s = (result, s) := by
  refine exists_run_bind (h.lift_isPresent project path) fun present => ?_
  cases present with
  | false =>
    rw [if_neg Bool.false_ne_true]
    split <;> exact ⟨_, rfl⟩
  | true =>
    refine exists_run_bind (h.lift_isPresent project path) fun present => ?_
    cases present with
    | false => exact ⟨_, rfl⟩
    | true => exact exists_run_bind (h.project_read project path) fun source => ⟨_, rfl⟩

/-- Before a registration writes, if it does at all, it only reads. -/
theorem register (project : Project) (settings : InjectorSettings) (factory target : ClassName) :
    (∃ e, (Registration.register project settings factory target :
        Action (StateM σ) Registration).run.run s = (.error e, s)) ∨
      ∃ registration, registration.path = project.resolve settings.configFile ∧
        (registration.written = false ∧
            (Registration.register project settings factory target :
              Action (StateM σ) Registration).run.run s = (.ok registration, s) ∨
          registration.written = true ∧ ∃ text,
            (Registration.register project settings factory target :
              Action (StateM σ) Registration).run.run s = (do
                project.write registration.path text
                return registration : Action (StateM σ) Registration).run.run s) := by
  obtain ⟨result, hopen⟩ := h.openDocument project settings (project.resolve settings.configFile)
  cases result with
  | error e => exact .inl ⟨e, run_bind_error hopen⟩
  | ok document =>
    cases hset : Registration.setFactory factory target document with
    | mk document' result =>
      cases result with
      | error e =>
        refine .inl ⟨.configFile (project.resolve settings.configFile) e, ?_⟩
        unfold Registration.register
        rw [run_bind hopen, hset]
        exact run_bind_error (run_ofExcept_error _ s)
      | ok change =>
        let registration : Registration :=
          ⟨project.resolve settings.configFile, change, document'.created⟩
        rw [Registration.run_register registration hopen hset rfl]
        refine .inr ⟨registration, rfl, ?_⟩
        cases hwritten : registration.written with
        | false => exact .inl ⟨rfl, rfl⟩
        | true => exact .inr ⟨rfl, document'.render, rfl⟩

/-- Before a factory is written, if it is at all, the disk is only asked. -/
theorem generate (project : Project) (autoload : Autoload) (suffix : Text) (target : ClassName)
    (overwrite : Bool) :
    (∃ e, ¬e.IsRegistration ∧ (Factory.generate project autoload suffix target overwrite :
        Action (StateM σ) Factory).run.run s = (.error e, s)) ∨
      ∃ factory, factory.target = target ∧ factory.Planned autoload suffix ∧
        (Factory.generate project autoload suffix target overwrite :
          Action (StateM σ) Factory).run.run s = (do
            project.write factory.path factory.text
            return factory : Action (StateM σ) Factory).run.run s := by
  unfold Factory.generate
  dsimp only
  cases hpath : autoload.factoryPath target suffix with
  | error e =>
    refine .inl ⟨e, ?_, run_bind_error (run_ofExcept_error e s)⟩
    rintro ⟨path, cause, rfl⟩
    rw [Autoload.factoryPath, Autoload.resolve] at hpath
    split at hpath <;> cases hpath
  | ok path =>
    rw [run_bind (run_ofExcept path s)]
    let factory : Factory := ⟨target, target.withSuffix suffix, path⟩
    cases overwrite with
    | true => exact .inr ⟨factory, rfl, ⟨rfl, hpath⟩, rfl⟩
    | false =>
      obtain ⟨present, hpresent⟩ := h.project_isPresent project path
      rw [Bool.not_false, if_pos rfl, run_bind (run_lift hpresent)]
      cases present with
      | false => exact .inr ⟨factory, rfl, ⟨rfl, hpath⟩, rfl⟩
      | true =>
        refine .inl ⟨.fileExists path, ?_, rfl⟩
        rintro ⟨_, _, ⟨⟩⟩

end Disk.Steady

/-- A failure to register a factory names the factory. -/
theorem Factory.run_registerIn {σ : Type} [Disk (StateM σ)] {context : Context} {factory : Factory}
    {result : Except Failure Registration} {s s' : σ}
    (hrun : (Registration.register context.project context.settings.injector factory.name
      factory.target : Action (StateM σ) Registration).run.run s = (result, s')) :
    (registerIn context factory : Action (StateM σ) Registration).run.run s =
      (result.mapError (.registrationFailed factory.path), s') := by
  have hadapt : (registerIn context factory : Action (StateM σ) Registration).run.run s =
      (fun r => (r.1.mapError (.registrationFailed factory.path), r.2))
        ((Registration.register context.project context.settings.injector factory.name
          factory.target : Action (StateM σ) Registration).run.run s) := rfl
  rw [hadapt, hrun]

end Scaffold
