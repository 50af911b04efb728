/-
# What the commands do step by step

The commands change the disk by the writes of a project and by nothing else. So a relation between
file trees that holds from each tree to itself, that can be chained and that every write respects
(`Project.Respects`) holds from the tree that a command starts from to the one that it leaves,
whether the command succeeds or not.
-/

import Scaffold.Factory
import Scaffold.ModuleCreation
import Scaffold.Proofs.Project.Access

namespace Scaffold

/-! ### Actions -/

/-- Wherever the action starts, it leaves a tree that is related to the one at the start. -/
def Action.Steps {α : Type} (rel : FileTree → FileTree → Prop) (x : Action (StateM FileTree) α) :
    Prop :=
  ∀ tree, rel tree (x.run.run tree).2

/-- The relation can be chained, and every write of the project respects it. -/
structure Project.Respects (project : Project) (rel : FileTree → FileTree → Prop) : Prop where
  refl (tree : FileTree) : rel tree tree
  trans {tree tree' tree'' : FileTree} (h : rel tree tree') (h' : rel tree' tree'') :
    rel tree tree''
  write (path : Path) (text : Text) : Action.Steps rel (project.write path text)

namespace Project.Respects

open Scaffold.Action (Steps)

variable {project : Project} {rel : FileTree → FileTree → Prop} (h : project.Respects rel)
  {α β : Type}
include h

/-- A result leaves a related tree. -/
theorem ofExcept (result : Except Failure α) : Steps rel (Action.ofExcept result) :=
  fun tree => h.refl tree

/-- Two actions, one after the other, leave a related tree if each does. -/
theorem bind {x : Action (StateM FileTree) α} {f : α → Action (StateM FileTree) β}
    (hx : Steps rel x) (hf : ∀ a, Steps rel (f a)) : Steps rel (x >>= f) := by
  intro tree
  have hstart := hx tree
  cases hrun : x.run.run tree with
  | mk result tree' =>
    rw [hrun] at hstart
    cases result with
    | error e =>
      rw [Registration.run_bind_error hrun]
      exact hstart
    | ok a =>
      rw [Registration.run_bind hrun]
      exact h.trans hstart (hf a tree')

/-- Asking for a file leaves a related tree. -/
theorem isPresent (path : Path) : Steps rel (ExceptT.lift (project.isPresent path)) := by
  intro tree
  rw [Registration.run_lift (run_isPresent project path tree)]
  exact h.refl tree

/-- Reading a file leaves a related tree. -/
theorem read (path : Path) : Steps rel (project.read path) := by
  intro tree
  rw [run_read]
  exact h.refl tree

/-! ### Reading what a project says about itself -/

/-- Loading the settings leaves a related tree. -/
theorem loadSettings : Steps rel (Context.loadSettings project) := by
  unfold Context.loadSettings
  refine h.bind (h.isPresent _) fun present => ?_
  split
  · exact h.bind (h.read _) fun text => h.ofExcept _
  · exact h.ofExcept (.ok _)

/-- Loading the namespaces leaves a related tree. -/
theorem loadAutoload (settings : Settings) : Steps rel (Context.loadAutoload project settings) := by
  unfold Context.loadAutoload Context.loadManifestSpaces
  refine h.bind (h.bind (h.isPresent _) fun present => ?_) fun declared => h.ofExcept (.ok _)
  split
  · exact h.bind (h.read _) fun text => h.bind (h.ofExcept _) fun manifest => h.ofExcept (.ok _)
  · exact h.ofExcept (.ok _)

/-! ### Commands -/

/-- Opening a document leaves a related tree. -/
theorem openDocument (settings : InjectorSettings) (path : Path) :
    Steps rel (Registration.openDocument project settings path) := by
  unfold Registration.openDocument Registration.loadDocument
  refine h.bind (h.isPresent path) fun present => ?_
  split
  · refine h.bind (h.isPresent path) fun present => ?_
    split
    · exact h.bind (h.read path) fun source => h.ofExcept _
    · exact h.ofExcept (.error _)
  · split
    · exact h.ofExcept (.ok _)
    · exact h.ofExcept (.error _)

/-- Registering a factory leaves a related tree, as its write does. -/
theorem register (settings : InjectorSettings) (factory target : ClassName) :
    Steps rel (Registration.register project settings factory target) := by
  unfold Registration.register
  refine h.bind (h.openDocument settings _) fun document => ?_
  generalize Registration.setFactory factory target document = outcome
  refine h.bind (h.ofExcept _) fun change => ?_
  dsimp only
  split
  · exact h.bind (h.write _ _) fun _ => h.ofExcept (.ok _)
  · exact h.ofExcept (.ok _)

/-- Writing a factory leaves a related tree, as its write does. -/
theorem generate (autoload : Autoload) (suffix : Text) (target : ClassName) (overwrite : Bool) :
    Steps rel (Factory.generate project autoload suffix target overwrite) := by
  unfold Factory.generate
  refine h.bind (h.ofExcept _) fun path => ?_
  have hwrite : Steps rel (do
      project.write path (Factory.source target (target.withSuffix suffix))
      return { target, name := target.withSuffix suffix, path } :
        Action (StateM FileTree) Factory) :=
    h.bind (h.write path _) fun _ => h.ofExcept (.ok _)
  split
  · refine h.bind (h.isPresent path) fun present => ?_
    split
    · exact h.bind (h.ofExcept (.error _)) fun _ => hwrite
    · exact hwrite
  · exact hwrite

/-- Creating a factory leaves a related tree. -/
theorem createFactory {context : Context} (hproject : context.project = project)
    (request : FactoryRequest) : Steps rel (Factory.create context request) := by
  subst hproject
  unfold Factory.create
  refine h.bind (h.ofExcept _) fun target => ?_
  refine h.bind (h.generate _ _ _ _) fun factory => ?_
  split
  · exact h.ofExcept (.ok _)
  · refine h.bind (fun tree => ?_) fun _ => h.ofExcept (.ok _)
    -- Only the cause of a failure is another one.
    exact h.register context.settings.injector factory.name factory.target tree

/-- Creating a module leaves a related tree. -/
theorem createModule {context : Context} (hproject : context.project = project)
    (request : ModuleRequest) : Steps rel (CreatedModule.create context request) := by
  subst hproject
  unfold CreatedModule.create
  refine h.bind (h.ofExcept _) fun layout => ?_
  refine h.bind (h.isPresent _) fun present => ?_
  have hwrites : Steps rel (do
      let configProvider := Path.join layout.sourceDirectory "ConfigProvider.php".toList
      context.project.write configProvider (CreatedModule.providerSource layout.name)
      context.project.write (CreatedModule.templatesKeeper layout) []
      return { layout, configProvider,
               autoloadDirectory :=
                 Path.join (CreatedModule.relativeRoot request) layout.sourcePath ++ ['/'] } :
        Action (StateM FileTree) CreatedModule) :=
    h.bind (h.write _ _) fun _ => h.bind (h.write _ _) fun _ => h.ofExcept (.ok _)
  split
  · exact h.bind (h.ofExcept (.error _)) fun _ => hwrites
  · exact hwrites

/-- Creating a factory in a directory leaves a related tree. -/
theorem createFactoryAt (request : FactoryRequest) :
    Steps rel (Factory.createAt project.root request) := by
  unfold Factory.createAt Context.load
  simp only [bind_assoc, pure_bind]
  exact h.bind h.loadSettings fun settings => h.bind (h.loadAutoload settings) fun autoload =>
    h.createFactory rfl request

/-- Creating a module in a directory leaves a related tree. -/
theorem createModuleAt (request : ModuleRequest) :
    Steps rel (CreatedModule.createAt project.root request) := by
  unfold CreatedModule.createAt Context.load
  simp only [bind_assoc, pure_bind]
  exact h.bind h.loadSettings fun settings => h.bind (h.loadAutoload settings) fun autoload =>
    h.createModule rfl request

end Project.Respects

/-- **The commands leave whatever stands in the tree in a directory**, if it was so before. -/
theorem Project.respects_rooted (project : Project) :
    project.Respects fun tree tree' => tree.Rooted → tree'.Rooted where
  refl _ h := h
  trans h h' hrooted := h' (h hrooted)
  write path text tree hrooted := by
    obtain ⟨result, tree', hrun, hwrote⟩ := run_write project path text tree
    rw [hrun]
    exact hwrote.rooted hrooted

end Scaffold
