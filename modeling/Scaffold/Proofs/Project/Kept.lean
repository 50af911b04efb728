/-
# Commands that keep every file

Three commands ask for something before they write: a module for its directory, a factory that may
not overwrite for its file, and a registration for the aggregation file. Where the paths are direct,
none of them changes a file that is there (`not_overwritten`); with a missing directory to go back
from, one does (`created_over_existing`). A module's directory must also belong to the project: what
lies outside is never present, but a file of the module may lie inside again.
-/

import Scaffold.Proofs.Project.Absent
import Scaffold.Proofs.Project.ModuleFiles

namespace Scaffold

namespace FileTree

/-- A path stays direct with more behind it that does not go back. -/
theorem Direct.append_slash {tree : FileTree} {base rest : Path} (hbase : base ≠ [])
    (h : tree.Direct base) (hrest : ['.', '.'] ∉ Path.segments rest) :
    tree.Direct (base ++ '/' :: rest) := by
  rw [Direct, Path.segments_append_slash, start_append hbase]
  exact directFrom_append.2 ⟨h, directFrom_of_not_mem hrest⟩

/-- What lies below a path that leads nowhere is free. -/
theorem node?_eq_none_below {tree tree' : FileTree} {base rest : Path} {place : List Text}
    (hrooted : tree.Rooted) (hbase : base ≠ []) (hdirect : tree.Direct base)
    (habsent : tree.nodeAt? base = none) (hrest : ['.', '.'] ∉ Path.segments rest)
    (hstart : tree'.start (base ++ '/' :: rest) = tree.start (base ++ '/' :: rest))
    (h : Named tree' (base ++ '/' :: rest) place) : tree.node? place = none := by
  by_contra hplace
  have hnamed := h.of_node? hrooted (hdirect.append_slash hbase hrest) hstart
    (Option.isSome_iff_ne_none.2 hplace)
  cases habsent.symm.trans (hnamed.nodeAt?_above hbase)

end FileTree

open FileTree (Keeps)
open Registration (run_bind run_bind_error run_lift run_ofExcept run_ofExcept_error)

namespace Action

variable {σ α β : Type} {s s' : σ}

/-- What is returned after an action does not matter for the disk. -/
theorem run_bind_ofExcept {x : Action (StateM σ) α} {f : α → Except Failure β} (s : σ) :
    ((x >>= fun a => ofExcept (f a)).run.run s).2 = (x.run.run s).2 := by
  cases hrun : x.run.run s with
  | mk result s' =>
    cases result with
    | error e => rw [run_bind_error hrun]
    | ok a =>
      rw [run_bind hrun]
      rfl

/-- A sequence of two actions succeeds if both do. -/
theorem run_bind_eq_ok_iff {x : Action (StateM σ) α} {f : α → Action (StateM σ) β} {b : β} :
    (x >>= f).run.run s = (.ok b, s') ↔
      ∃ a s₁, x.run.run s = (.ok a, s₁) ∧ (f a).run.run s₁ = (.ok b, s') := by
  cases hx : x.run.run s with
  | mk result s₁ =>
    cases result with
    | error e =>
      rw [run_bind_error hx]
      exact iff_of_false nofun fun ⟨_, _, h, _⟩ => nomatch h
    | ok a =>
      rw [run_bind hx]
      refine ⟨fun h => ⟨a, s₁, rfl, h⟩, ?_⟩
      rintro ⟨_, _, ⟨⟩, h⟩
      exact h

/-- A result as an action succeeds as the result does, and leaves the disk alone. -/
theorem run_ofExcept_eq_ok_iff {result : Except Failure α} {a : α} :
    (ofExcept result : Action (StateM σ) α).run.run s = (.ok a, s') ↔ result = .ok a ∧ s' = s :=
  ⟨fun h => ⟨(Prod.mk.inj h).1, (Prod.mk.inj h).2.symm⟩, fun h => Prod.ext h.1 h.2.symm⟩

/-- An action that only gives a value leaves the disk alone. -/
theorem run_pure_eq_ok_iff {a b : α} :
    (pure a : Action (StateM σ) α).run.run s = (.ok b, s') ↔ b = a ∧ s' = s :=
  ⟨fun h => ⟨(Except.ok.inj (Prod.mk.inj h).1).symm, (Prod.mk.inj h).2.symm⟩, fun ⟨h, h'⟩ => by
    rw [h, h']
    rfl⟩

end Action

namespace Project

section
variable {project : Project} (hroot : Path.isAbsolute project.root = true) {path rest : Path}
  {tree : FileTree}
include hroot

/-- A resolved path has the target of the path. -/
theorem target_resolve (path : Path) :
    project.target (project.resolve path) = project.target path := by
  rw [target, if_pos (isAbsolute_resolve hroot path)]
  exact Path.walk_join [] project.root path

/-- A path that belongs to the project is asked for as it is. -/
theorem nodeAt?_of_not_isPresent (hinside : project.Owns (project.target path))
    (habsent :
      (project.isPresent (project.resolve path) : StateM FileTree Bool).run tree = (false, tree)) :
    tree.nodeAt? (project.resolve path) = none := by
  have hconfine : project.confine (project.resolve path) = .ok (project.resolve path) := by
    refine confine_eq_ok_iff.2 ⟨(confines_resolve_iff hroot _).2 ?_,
      Path.join_of_isAbsolute (isAbsolute_resolve hroot path)⟩
    rwa [target_resolve hroot]
  rw [run_isPresent, hconfine] at habsent
  exact Option.isNone_iff_eq_none.1 (Option.isSome_eq_false_iff.1 (congrArg Prod.fst habsent))

/-- A write below a directory that is not present keeps every file. -/
theorem Wrote.keeps_below {tree₁ tree₂ : FileTree} {text : Text} {result : Except Failure Unit}
    (hrooted : tree.Rooted) (hinside : project.Owns (project.target path))
    (hdirect : tree.Direct (project.resolve path))
    (habsent :
      (project.isPresent (project.resolve path) : StateM FileTree Bool).run tree = (false, tree))
    (hrest : ['.', '.'] ∉ Path.segments rest)
    (h : project.Wrote (project.resolve path ++ '/' :: rest) text tree₁ result tree₂)
    (hkeeps : Keeps tree tree₁) : Keeps tree tree₂ := by
  have habsolute := isAbsolute_resolve hroot path
  have hbelow : ∀ tree : FileTree, tree.start (project.resolve path ++ '/' :: rest) = [] :=
    fun tree => if_pos (Path.isAbsolute_append habsolute _)
  refine h.keeps_of_free hkeeps fun _ hnamed => ?_
  rw [resolve, Path.join_of_isAbsolute (Path.isAbsolute_append habsolute _)] at hnamed
  refine FileTree.node?_eq_none_below hrooted (Path.ne_nil_of_isAbsolute habsolute) hdirect
    (nodeAt?_of_not_isPresent hroot hinside habsent) hrest ?_ hnamed
  rw [hbelow, hbelow]

end

end Project

namespace CreatedModule

/-- **A module is created over no file**, if its directory belongs to the project. -/
theorem create_keeps {context : Context} (hroot : Path.isAbsolute context.project.root = true)
    {tree : FileTree} (hrooted : tree.Rooted) {request : ModuleRequest}
    (hinside : context.project.Owns (context.project.target (relativeRoot request)))
    (hdirect : tree.Direct (context.project.resolve (relativeRoot request))) :
    Keeps tree
      ((create context request : Action (StateM FileTree) CreatedModule).run.run tree).2 := by
  obtain ⟨result, tree', hrun, houtcome⟩ :=
    run_create context request fun path => ⟨_, Project.run_isPresent context.project path tree⟩
  have hrootPath : ∀ {layout : ModuleLayout}, plan context.project request = .ok layout →
      layout.rootPath = context.project.resolve (relativeRoot request) := by
    intro layout hplan
    rw [(plan_eq_ok_iff.1 hplan).2]
  have hprovider : ∀ {layout : ModuleLayout} {result : Except Failure Unit} {tree₁ : FileTree},
      plan context.project request = .ok layout →
      (context.project.isPresent layout.rootPath : StateM FileTree Bool).run tree = (false, tree) →
      context.project.Wrote (Path.join layout.sourceDirectory "ConfigProvider.php".toList)
        (providerSource layout.name) tree result tree₁ → Keeps tree tree₁ := by
    intro layout result tree₁ hplan habsent hwrote
    rw [(plan_files hplan).1, hrootPath hplan] at hwrote
    rw [hrootPath hplan] at habsent
    exact hwrote.keeps_below hroot hrooted hinside hdirect habsent (by decide) (.refl tree)
  have hkeeper : ∀ {layout : ModuleLayout} {result : Except Failure Unit} {tree₁ tree₂ : FileTree},
      plan context.project request = .ok layout →
      (context.project.isPresent layout.rootPath : StateM FileTree Bool).run tree = (false, tree) →
      context.project.Wrote (templatesKeeper layout) [] tree₁ result tree₂ →
      Keeps tree tree₁ → Keeps tree tree₂ := by
    intro layout result tree₁ tree₂ hplan habsent hwrote
    rw [(plan_files hplan).2, hrootPath hplan] at hwrote
    rw [hrootPath hplan] at habsent
    exact hwrote.keeps_below hroot hrooted hinside hdirect habsent (by decide)
  rw [hrun]
  cases houtcome with
  | unplanned => exact .refl tree
  | occupied => exact .refl tree
  | noProvider plan absent provider =>
    exact hprovider plan absent (FileTree.fallible.wrote provider)
  | noKeeper plan absent provider keeper =>
    exact hkeeper plan absent (FileTree.fallible.wrote keeper)
      (hprovider plan absent (FileTree.fallible.wrote provider))
  | created plan absent provider keeper =>
    exact hkeeper plan absent (FileTree.fallible.wrote keeper)
      (hprovider plan absent (FileTree.fallible.wrote provider))

end CreatedModule

namespace Factory

/-- **A factory that may not overwrite is written over no file.** -/
theorem generate_keeps {project : Project} (hroot : Path.isAbsolute project.root = true)
    {tree : FileTree} (hrooted : tree.Rooted) {autoload : Autoload} {suffix : Text}
    {target : ClassName}
    (hdirect : ∀ path, autoload.factoryPath target suffix = .ok path →
      tree.Direct (project.resolve path)) :
    Keeps tree
      ((generate project autoload suffix target false :
        Action (StateM FileTree) Factory).run.run tree).2 := by
  unfold generate
  dsimp only
  cases hpath : autoload.factoryPath target suffix with
  | error e =>
    rw [run_bind_error (run_ofExcept_error e tree)]
    exact .refl tree
  | ok path =>
    rw [run_bind (run_ofExcept path tree), Bool.not_false, if_pos rfl]
    obtain ⟨present, hpresent⟩ : ∃ present,
        (project.isPresent path : StateM FileTree Bool).run tree = (present, tree) :=
      ⟨_, Project.run_isPresent project path tree⟩
    rw [run_bind (run_lift hpresent)]
    cases present with
    | true => exact .refl tree
    | false =>
      rw [if_neg Bool.false_ne_true]
      have hkeeps := Project.write_keeps hroot hrooted (hdirect path hpath)
        (Project.free_of_not_isPresent hpresent) (.refl tree)
        (source target (target.withSuffix suffix))
      rwa [← Action.run_bind_ofExcept (f := fun _ =>
        .ok { target, name := target.withSuffix suffix, path : Factory })] at hkeeps

end Factory

namespace Registration

open Config (Document)

section
variable {project : Project} {tree tree' : FileTree}

/-- The path leads to a file that is read as the document. -/
def HasDocument (project : Project) (path : Path) (tree : FileTree) (document : Document) : Prop :=
  ∃ full, project.confine path = .ok full ∧ tree.nodeAt? full = some (.file document.source) ∧
    document.created = false ∧ document.IsRead

/-- A document is loaded where there is one. -/
theorem loadDocument_eq_ok_iff {path : Path} {document : Document} :
    (loadDocument project path : Action (StateM FileTree) Document).run.run tree =
      (.ok document, tree') ↔ tree' = tree ∧ HasDocument project path tree document := by
  have hpresent := Project.run_isPresent project path tree
  have hread := Project.run_read project path tree
  unfold loadDocument
  cases hconfine : project.confine path with
  | error e =>
    rw [hconfine] at hpresent
    rw [run_bind (run_lift hpresent)]
    refine iff_of_false nofun ?_
    rintro ⟨-, full, hok, -⟩
    cases hconfine.symm.trans hok
  | ok full =>
    rw [hconfine] at hpresent hread
    dsimp only at hpresent hread
    have hhas : HasDocument project path tree document ↔
        documentIn path (tree.nodeAt? full) = .ok document := by
      rw [documentIn_eq_ok_iff]
      refine ⟨fun ⟨other, hok, hdocument⟩ => ?_, fun hdocument => ⟨full, hconfine, hdocument⟩⟩
      obtain rfl := Except.ok.inj (hconfine.symm.trans hok)
      exact hdocument
    rw [hhas, run_bind (run_lift hpresent)]
    unfold FileTree.read? at hread
    cases hnode : tree.nodeAt? full with
    | none => exact iff_of_false nofun fun h => nomatch h.2
    | some node =>
      rw [hnode] at hread
      rw [if_pos (show (some node).isSome = true from rfl)]
      cases node with
      | directory =>
        rw [run_bind_error hread]
        exact iff_of_false nofun fun h => nomatch h.2
      | binary =>
        rw [run_bind_error hread]
        exact iff_of_false nofun fun h => nomatch h.2
      | file text =>
        rw [run_bind hread]
        exact ⟨fun h => ⟨(Prod.mk.inj h).2.symm, (Prod.mk.inj h).1⟩, fun h => Prod.ext h.2 h.1.symm⟩

/-- A document is loaded, or started where nothing is present. -/
theorem openDocument_eq_ok_iff {settings : InjectorSettings} {path : Path} {document : Document} :
    (openDocument project settings path : Action (StateM FileTree) Document).run.run tree =
      (.ok document, tree') ↔ tree' = tree ∧ (HasDocument project path tree document ∨
        (project.isPresent path : StateM FileTree Bool).run tree = (false, tree) ∧
          settings.createMissing = true ∧ document = .empty) := by
  obtain ⟨present, hpresent⟩ : ∃ present,
      (project.isPresent path : StateM FileTree Bool).run tree = (present, tree) :=
    ⟨_, Project.run_isPresent project path tree⟩
  unfold openDocument
  rw [run_bind (run_lift hpresent), hpresent]
  cases present with
  | true =>
    rw [if_pos rfl, loadDocument_eq_ok_iff]
    refine and_congr_right fun _ => ⟨.inl, fun h => h.resolve_right ?_⟩
    rintro ⟨⟨⟩, -⟩
  | false =>
    have hnone : ¬HasDocument project path tree document := by
      rintro ⟨full, hconfine, hnode, -⟩
      rw [Project.run_isPresent, hconfine] at hpresent
      dsimp only at hpresent
      rw [hnode] at hpresent
      cases hpresent
    rw [if_neg Bool.false_ne_true]
    split
    · rename_i hcreate
      refine ⟨?_, ?_⟩
      · rintro ⟨⟩
        exact ⟨rfl, .inr ⟨rfl, hcreate, rfl⟩⟩
      · rintro ⟨rfl, h | ⟨-, -, rfl⟩⟩
        · exact absurd h hnone
        · rfl
    · rename_i hcreate
      refine iff_of_false nofun ?_
      rintro ⟨-, h | ⟨-, h, -⟩⟩
      · exact hnone h
      · exact hcreate h

/-- A document is only started where nothing is present. -/
theorem openDocument_run_ok {settings : InjectorSettings} {path : Path} {document : Document}
    (h : (openDocument project settings path : Action (StateM FileTree) Document).run.run tree =
      (.ok document, tree')) :
    tree' = tree ∧ (document.created = true →
      (project.isPresent path : StateM FileTree Bool).run tree = (false, tree)) := by
  obtain ⟨htree, ⟨-, -, -, hcreated, -⟩ | ⟨habsent, -⟩⟩ := openDocument_eq_ok_iff.1 h
  · exact ⟨htree, fun hstarted => absurd (hcreated.symm.trans hstarted) Bool.false_ne_true⟩
  · exact ⟨htree, fun _ => habsent⟩

/-- What has been done where a registration succeeds. -/
theorem register_run_ok {settings : InjectorSettings} {factory target : ClassName}
    {registration : Registration}
    (h : (register project settings factory target :
      Action (StateM FileTree) Registration).run.run tree = (.ok registration, tree')) :
    ∃ document document' change,
      (openDocument project settings (project.resolve settings.configFile) :
        Action (StateM FileTree) Document).run.run tree = (.ok document, tree) ∧
      setFactory factory target document = (document', .ok change) ∧
      registration = ⟨project.resolve settings.configFile, change, document'.created⟩ ∧
      (registration.written = true →
        (project.write (project.resolve settings.configFile) document'.render :
          Action (StateM FileTree) Unit).run.run tree = (.ok (), tree')) ∧
      (registration.written = false → tree' = tree) := by
  unfold register at h
  obtain ⟨document, tree₁, hopen, hset⟩ := Action.run_bind_eq_ok_iff.1 h
  obtain ⟨rfl, -⟩ := openDocument_eq_ok_iff.1 hopen
  rcases hedit : setFactory factory target document with ⟨document', result⟩
  rw [hedit] at hset
  obtain ⟨change, tree₂, hreturned, hdone⟩ := Action.run_bind_eq_ok_iff.1 hset
  obtain ⟨hresult, rfl⟩ := Action.run_ofExcept_eq_ok_iff.1 hreturned
  obtain rfl : result = .ok change := by
    cases result with
    | error e => cases hresult
    | ok found => exact congrArg Except.ok (Except.ok.inj hresult)
  refine ⟨document, document', change, hopen, hedit, ?_⟩
  dsimp only at hdone
  split at hdone
  · rename_i hwritten
    obtain ⟨_, tree₃, hwrite, hpure⟩ := Action.run_bind_eq_ok_iff.1 hdone
    obtain ⟨rfl, rfl⟩ := Action.run_pure_eq_ok_iff.1 hpure
    exact ⟨rfl, fun _ => hwrite, fun h => absurd hwritten (Bool.eq_false_iff.1 h)⟩
  · rename_i hwritten
    obtain ⟨rfl, rfl⟩ := Action.run_pure_eq_ok_iff.1 hdone
    exact ⟨rfl, fun h => absurd h hwritten, fun _ => rfl⟩

/-- **An aggregation file is only started where there is none**, and no other file changes. -/
theorem register_keeps (hroot : Path.isAbsolute project.root = true) (hrooted : tree.Rooted)
    {settings : InjectorSettings} (hdirect : tree.Direct (project.resolve settings.configFile))
    {factory target : ClassName} {registration : Registration}
    (hrun : (register project settings factory target :
      Action (StateM FileTree) Registration).run.run tree = (.ok registration, tree'))
    (hcreated : registration.createdFile = true) :
    tree.node? (project.target settings.configFile) = none ∧ Keeps tree tree' := by
  obtain ⟨document, document', change, hopen, hset, rfl, hwrite, -⟩ := register_run_ok hrun
  have habsent := (openDocument_run_ok hopen).2
  -- A document that was loaded is not taken for a started one after it has been edited.
  have hstarted : document.created = true := by
    by_contra hloaded
    have hkept := (Document.keptBySplice_created false).setEntry
      (Bool.eq_false_iff.2 hloaded) factoriesSection (.ofClass target.text) (.ofClass factory.text)
    rw [setFactory] at hset
    rw [hset] at hkept
    exact absurd (hkept.symm.trans hcreated) Bool.false_ne_true
  have hwritten : Registration.written
      ⟨project.resolve settings.configFile, change, document'.created⟩ = true := by
    rw [written]
    exact Bool.or_eq_true_iff.2 (.inl hcreated)
  have hwrote : project.Wrote (project.resolve settings.configFile) document'.render tree (.ok ())
      tree' := FileTree.fallible.wrote (hwrite hwritten)
  have hfree := Project.free_of_not_isPresent (habsent hstarted)
  have hresolve : project.resolve (project.resolve settings.configFile) =
      project.resolve settings.configFile :=
    Path.join_of_isAbsolute (Project.isAbsolute_resolve hroot _)
  rw [← hresolve] at hdirect
  refine ⟨?_, hwrote.keeps hroot hrooted hdirect hfree (.refl tree)⟩
  rw [← Project.target_resolve hroot]
  exact hwrote.node?_target hroot hrooted hdirect hfree

end

end Registration

open Project (respects_rooted)

/-- **What is not present is not overwritten**, where paths are direct: their dots go back from
directories that are there. A write where nothing is present keeps every file; so does creating a
module in a directory of the project; so does a factory that may not overwrite; and an aggregation
file is only started where nothing stands. Each leaves a tree of which the same can be said. -/
theorem not_overwritten {project : Project} (hroot : Path.isAbsolute project.root = true)
    {tree : FileTree} (hrooted : tree.Rooted) :
    (∀ path text tree', tree.Direct (project.resolve path) →
      (project.isPresent path : StateM FileTree Bool).run tree = (false, tree) →
      ((project.write path text : Action (StateM FileTree) Unit).run.run tree).2 = tree' →
      Keeps tree tree' ∧ tree'.Rooted) ∧
    (∀ context request tree', context.project = project →
      project.Owns (project.target (CreatedModule.relativeRoot request)) →
      tree.Direct (project.resolve (CreatedModule.relativeRoot request)) →
      ((CreatedModule.create context request :
        Action (StateM FileTree) CreatedModule).run.run tree).2 = tree' →
      Keeps tree tree' ∧ tree'.Rooted) ∧
    (∀ autoload suffix target tree',
      (∀ path, autoload.factoryPath target suffix = .ok path →
        tree.Direct (project.resolve path)) →
      ((Factory.generate project autoload suffix target false :
        Action (StateM FileTree) Factory).run.run tree).2 = tree' →
      Keeps tree tree' ∧ tree'.Rooted) ∧
    (∀ settings factory target registration tree',
      tree.Direct (project.resolve settings.configFile) →
      (Registration.register project settings factory target :
        Action (StateM FileTree) Registration).run.run tree = (.ok registration, tree') →
      registration.createdFile = true →
      tree.node? (project.target settings.configFile) = none ∧ Keeps tree tree' ∧
        tree'.Rooted) := by
  have hrespects := respects_rooted project
  refine ⟨?_, ?_, ?_, ?_⟩
  · rintro path text _ hdirect habsent rfl
    exact ⟨Project.write_keeps hroot hrooted hdirect (Project.free_of_not_isPresent habsent)
      (.refl tree) text, hrespects.write path text tree hrooted⟩
  · rintro context request _ rfl hinside hdirect rfl
    exact ⟨CreatedModule.create_keeps hroot hrooted hinside hdirect,
      hrespects.createModule rfl request tree hrooted⟩
  · rintro autoload suffix target _ hdirect rfl
    exact ⟨Factory.generate_keeps hroot hrooted hdirect,
      hrespects.generate autoload suffix target false tree hrooted⟩
  · intro settings factory target registration tree' hdirect hrun hcreated
    obtain ⟨hnone, hkeeps⟩ := Registration.register_keeps hroot hrooted hdirect hrun hcreated
    refine ⟨hnone, hkeeps, ?_⟩
    have hsteps := hrespects.register settings factory target tree hrooted
    rwa [hrun] at hsteps

/-- A module is created beside another, on a way back from a directory that is there. -/
theorem not_overwritten_on_tree :
    let tree : FileTree := ⟨[([['p']], .directory), ([['p'], ['a']], .directory),
      ([['p'], ['b']], .directory), ([['p'], ['b'], ['c']], .file ['d'])], []⟩
    let context : Context := ⟨⟨"/p".toList⟩, .default, .empty⟩
    let run := (CreatedModule.create context ⟨"M".toList, "a/../b".toList⟩ :
      Action (StateM FileTree) CreatedModule).run.run tree
    run.1.toOption.isSome ∧ Keeps tree run.2 ∧
      run.2.file? [['p'], ['b'], ['c']] = some (.file ['d']) := by
  intro tree context run
  have hroot : Path.isAbsolute context.project.root = true := by decide
  obtain ⟨-, hmodule, -, -⟩ := not_overwritten hroot (show tree.Rooted by decide +kernel)
  have hbase : context.project.resolve (CreatedModule.relativeRoot ⟨"M".toList, "a/../b".toList⟩) =
      "/p/a/../b/M".toList := by decide +kernel
  have hinside : context.project.Owns (context.project.target
      (CreatedModule.relativeRoot ⟨"M".toList, "a/../b".toList⟩)) := by decide +kernel
  have hdirect : tree.Direct "/p/a/../b/M".toList := by decide +kernel
  rw [← hbase] at hdirect
  obtain ⟨hkeeps, -⟩ := hmodule context _ _ rfl hinside hdirect rfl
  refine ⟨by decide +kernel, hkeeps, hkeeps _ ?_⟩
  rfl

/-- Where the directory that the dots go back from is missing, a module is created over a file that
is there. -/
theorem created_over_existing :
    let place : List Text := ["p".toList, "src".toList, "Blog".toList, "src".toList,
      "ConfigProvider.php".toList]
    let tree : FileTree := ⟨(List.range 4).map (fun n => (place.take (n + 1), .directory)) ++
      [(place, .file "<?php // mine\n".toList)], []⟩
    let context : Context := ⟨⟨"/p".toList⟩, .default, .empty⟩
    let run := (CreatedModule.create context ⟨"Blog".toList, "missing/../src".toList⟩ :
      Action (StateM FileTree) CreatedModule).run.run tree
    ((context.project.isPresent "missing/../src/Blog".toList :
        StateM FileTree Bool).run tree).1 = false ∧
      run.1.toOption.isSome ∧
      tree.file? place = some (.file "<?php // mine\n".toList) ∧
      run.2.file? place ≠ tree.file? place := by
  intro place tree context run
  refine ⟨by decide +kernel, by decide +kernel, by decide +kernel, by decide +kernel⟩

end Scaffold
