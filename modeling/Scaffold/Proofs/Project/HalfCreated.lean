/-
# What creating a module leaves

Creating a module writes two files, one after the other, and takes neither back. A failure before
the first write, or of the first, has changed no file; a failure of the second leaves the
configuration provider, and no other file has changed (`create_leaves`). The module's directory is
there then, if it lies in the project, so the same request is refused. Where it is not there the
request goes through as soon as both writes do.
-/

import Scaffold.Proofs.Project.Footprint
import Scaffold.Proofs.Project.Kept

namespace Scaffold

namespace Path

/-- A path that is joined goes on as it does alone. -/
theorem join_append {base path : Path} (h : path ≠ []) (rest : Path) :
    join base (path ++ rest) = join base path ++ rest := by
  unfold join
  rw [isAbsolute_append_eq h]
  split
  · rfl
  · split
    · exact (List.append_assoc _ _ _).symm
    · rw [List.append_assoc]
      rfl

end Path

/-! ### A disk with faults -/

/-- A file tree on which some of the replacements to come fail. -/
structure FaultyTree where
  tree : FileTree
  /-- Whether each replacement to come fails; those that are not listed do not. -/
  faults : List Bool

namespace FaultyTree

/-- What is done with the tree alone. -/
def onTree {α : Type} (x : StateM FileTree α) : StateM FaultyTree α := fun s =>
  ((x.run s.tree).1, { s with tree := (x.run s.tree).2 })

instance : Disk (StateM FaultyTree) where
  workingDirectory := onTree Disk.workingDirectory
  isPresent path := onTree (Disk.isPresent path)
  isDirectory path := onTree (Disk.isDirectory path)
  read? path := onTree (Disk.read? path)
  createDirectories path := onTree (Disk.createDirectories path)
  replace path text := fun s =>
    if s.faults.headD false then (false, { s with faults := s.faults.tail })
    else onTree (Disk.replace path text) { s with faults := s.faults.tail }

/-- A disk that may fail changes its tree as a tree changes. -/
theorem fallible : Disk.Fallible FaultyTree.tree where
  isPresent _ _ := rfl
  createDirectories s path :=
    ⟨(s.tree.createDirectories path).2, { s with tree := (s.tree.createDirectories path).1 }, rfl,
      FileTree.grown_createWithin _ s.tree path, fun h => h.createDirectories path⟩
  replace s path text := by
    by_cases hfault : s.faults.headD false = true
    · exact ⟨false, { s with faults := s.faults.tail }, if_pos hfault, rfl⟩
    · obtain ⟨done, tree', hrun, hput⟩ := FileTree.fallible.replace s.tree path text
      refine ⟨done, ⟨tree', s.faults.tail⟩, (if_neg hfault).trans ?_, hput⟩
      change (((Disk.replace path text : StateM FileTree Bool).run s.tree).1, _) = _
      rw [hrun]

end FaultyTree

namespace CreatedModule

open Registration (run_bind run_bind_error run_lift run_ofExcept)

/-! ### The parts of a creation -/

section
variable (project : Project) (request : ModuleRequest)

/-- The layout of the module that is asked for. -/
def layoutOf : ModuleLayout :=
  ⟨request.name, project.resolve (relativeRoot request), "src".toList⟩

/-- The path of the module's directory as the disk is to see it. -/
def directory : Path := project.resolve (layoutOf project request).rootPath

/-- The location of the module's directory, from a working directory. -/
def home (top : List Text) : List Text := FileTree.denotes top (directory project request)

/-- Whether the project has anything in the place of the module's directory. -/
def occupied (tree : FileTree) : Bool :=
  match project.confine (layoutOf project request).rootPath with
  | .ok full => (tree.nodeAt? full).isSome
  | .error _ => false

/-- The module's directory lies in the project, and its path goes back only from directories that
are there. -/
structure Proper (tree : FileTree) : Prop where
  rooted : tree.Rooted
  inside : project.confines (directory project request) = true
  direct : tree.Direct (directory project request)

/-- The files with the configuration provider of the module put. -/
def withProvider (top : List Text) (files : List Text → Option Node) : List Text → Option Node :=
  Function.update files (home project request top ++ ["src".toList, "ConfigProvider.php".toList])
    (some (.file (providerSource request.name)))

/-- The files with the one put that keeps the templates of the module. -/
def withKeeper (top : List Text) (files : List Text → Option Node) : List Text → Option Node :=
  Function.update files (home project request top ++ ["templates".toList, ".gitkeep".toList])
    (some (.file []))

variable {m : Type → Type} [Monad m] [Disk m]

/-- The first write. -/
def writeProvider : Action m Unit :=
  project.write (Path.join (layoutOf project request).sourceDirectory "ConfigProvider.php".toList)
    (providerSource request.name)

/-- The second write. -/
def writeKeeper : Action m Unit := project.write (templatesKeeper (layoutOf project request)) []

end

section
variable {σ : Type} [Disk (StateM σ)]

/-- How creating a module comes out, and the files that it leaves. -/
inductive Leaves (tree : σ → FileTree) (project : Project) (request : ModuleRequest) (s : σ) :
    Except Failure CreatedModule → σ → Prop
  | refused {e : Failure}
      (cause : isIdentifier request.name = false ∨ occupied project request (tree s) = true) :
      Leaves tree project request s (.error e) s
  | noProvider {e : Failure} {s' : σ} (absent : occupied project request (tree s) = false)
      (first : (writeProvider project request : Action (StateM σ) Unit).run.run s = (.error e, s'))
      (files : (tree s').file? = (tree s).file?) :
      Leaves tree project request s (.error e) s'
  | noKeeper {e : Failure} {s₁ s' : σ} (absent : occupied project request (tree s) = false)
      (first : (writeProvider project request : Action (StateM σ) Unit).run.run s = (.ok (), s₁))
      (second : (writeKeeper project request : Action (StateM σ) Unit).run.run s₁ = (.error e, s'))
      (files : (tree s').file? =
        withProvider project request (tree s).workingDirectory (tree s).file?)
      (present : project.confines (directory project request) = true →
        occupied project request (tree s') = true) :
      Leaves tree project request s (.error e) s'
  | created {created : CreatedModule} {s₁ s' : σ}
      (absent : occupied project request (tree s) = false)
      (first : (writeProvider project request : Action (StateM σ) Unit).run.run s = (.ok (), s₁))
      (second : (writeKeeper project request : Action (StateM σ) Unit).run.run s₁ = (.ok (), s'))
      (files : (tree s').file? = withKeeper project request (tree s).workingDirectory
        (withProvider project request (tree s).workingDirectory (tree s).file?))
      (fresh : Proper project request (tree s) → ∀ place ∈
        [["src".toList, "ConfigProvider.php".toList], ["templates".toList, ".gitkeep".toList]],
          (tree s).node? (home project request (tree s).workingDirectory ++ place) = none) :
      Leaves tree project request s (.ok created) s'

end

variable {project : Project} {request : ModuleRequest} {layout : ModuleLayout}

/-- A module is planned just in case its name is an identifier. -/
theorem plan_eq_layoutOf_iff : plan project request = .ok layout ↔
    isIdentifier request.name = true ∧ layout = layoutOf project request := plan_eq_ok_iff

/-- A module whose name is an identifier is planned. -/
theorem plan_eq_layoutOf (project : Project) (h : isIdentifier request.name = true) :
    plan project request = .ok (layoutOf project request) := plan_eq_layoutOf_iff.2 ⟨h, rfl⟩

/-! ### Paths below the directory of a module -/

section
variable (hplan : plan project request = .ok layout)
include hplan

/-- The files of a module lie below its directory. -/
theorem resolve_below (rest : Path) : project.resolve (layout.rootPath ++ '/' :: rest) =
    directory project request ++ '/' :: rest := by
  rw [Project.resolve, Path.join_append (rootPath_ends hplan).1,
    (plan_eq_layoutOf_iff.1 hplan).2]
  rfl

/-- The directory of a module has a path. -/
theorem directory_ne_nil : directory project request ≠ [] := by
  obtain ⟨-, rfl⟩ := plan_eq_layoutOf_iff.1 hplan
  exact fun hnil => (rootPath_ends hplan).1
    (List.suffix_nil.1 (hnil ▸ Path.suffix_join project.root _))

/-- A file below the directory of the module is put below its location. -/
theorem put_below (top : List Text) (rest : Path) (text : Text) (files : List Text → Option Node) :
    project.put (FileTree.denotes top) (layout.rootPath ++ '/' :: rest) text files =
      Function.update files (Path.walk (home project request top) rest) (some (.file text)) := by
  rw [Project.put, resolve_below hplan,
    FileTree.denotes_append_slash (directory_ne_nil hplan)]
  rfl

variable {tree tree' : FileTree} {rest : Path} {text : Text}

/-- What was written below the directory of the module is named by its path from then on. -/
theorem named_of_wrote
    (h : project.Wrote (layout.rootPath ++ '/' :: rest) text tree (.ok ()) tree') :
    FileTree.Named tree' (directory project request ++ '/' :: rest)
      (Path.walk (home project request tree'.workingDirectory) rest) := by
  cases h with
  | @written full grown place confine _ _ named free =>
    obtain ⟨-, rfl⟩ := Project.confine_eq_ok_iff.1 confine
    have hextends : FileTree.Extends grown (grown.setNode place (.file text)) :=
      .setNode named.ne_nil free
    have hnamed := hextends.named named
    rw [resolve_below hplan] at hnamed
    have hplace := hnamed.place_eq
    rw [FileTree.start] at hplace
    rw [home, ← FileTree.denotes_append_slash (directory_ne_nil hplan), FileTree.denotes]
    rwa [← hplace]

/-- What is named below the directory of the module has it there. -/
theorem occupied_of_named {place : List Text}
    (hinside : project.confines (directory project request) = true)
    (h : FileTree.Named tree (directory project request ++ '/' :: rest) place) :
    occupied project request tree = true := by
  have hconfine : project.confine (layoutOf project request).rootPath =
      .ok (directory project request) := Project.confine_eq_ok_iff.2 ⟨hinside, rfl⟩
  rw [occupied, hconfine]
  dsimp only
  rw [h.nodeAt?_above (directory_ne_nil hplan)]
  rfl

/-- What is written below the directory of the module is new, if that is not there. -/
theorem node?_eq_none_of_named {place : List Text} (hproper : Proper project request tree)
    (habsent : occupied project request tree = false) (hextends : FileTree.Extends tree tree')
    (hrest : ['.', '.'] ∉ Path.segments rest)
    (h : FileTree.Named tree' (directory project request ++ '/' :: rest) place) :
    tree.node? place = none := by
  have hconfine : project.confine (layoutOf project request).rootPath =
      .ok (directory project request) := Project.confine_eq_ok_iff.2 ⟨hproper.inside, rfl⟩
  rw [occupied, hconfine] at habsent
  refine FileTree.node?_eq_none_below hproper.rooted (directory_ne_nil hplan) hproper.direct
    (Option.isNone_iff_eq_none.1 (Option.isSome_eq_false_iff.1 habsent)) hrest ?_ h
  rw [FileTree.start, FileTree.start, hextends.workingDirectory_eq]

end

/-! ### Creating -/

section
variable {σ : Type} [Disk (StateM σ)] {tree : σ → FileTree} (hdisk : Disk.Fallible tree)
  {context : Context} {s s₁ s₂ : σ}
include hdisk

/-- Creating asks for the directory of the module. -/
theorem run_isPresent (project : Project) (request : ModuleRequest) (s : σ) :
    (project.isPresent (layoutOf project request).rootPath : StateM σ Bool).run s =
      (occupied project request (tree s), s) :=
  hdisk.project_isPresent project _ s

/-- Whether a module is there is what the disk answers. -/
theorem occupied_eq {present : Bool}
    (h : (project.isPresent (layoutOf project request).rootPath : StateM σ Bool).run s =
      (present, s)) : occupied project request (tree s) = present :=
  (Prod.mk.inj ((run_isPresent hdisk project request s).symm.trans h)).1

/-- **Each outcome leaves what it should.** -/
theorem leaves_of_outcome {result : Except Failure CreatedModule}
    (h : Outcome project request s result s₂) : Leaves tree project request s result s₂ := by
  cases h with
  | unplanned plan =>
    refine .refused (.inl (Bool.eq_false_iff.2 fun hname => ?_))
    cases plan.symm.trans (plan_eq_layoutOf project hname)
  | occupied plan present =>
    obtain ⟨-, rfl⟩ := plan_eq_layoutOf_iff.1 plan
    exact .refused (.inr (occupied_eq hdisk present))
  | noProvider plan absent provider =>
    obtain ⟨-, rfl⟩ := plan_eq_layoutOf_iff.1 plan
    exact .noProvider (occupied_eq hdisk absent) provider
      (hdisk.wrote provider).file?_eq_of_error
  | noKeeper plan absent provider keeper =>
    obtain ⟨-, rfl⟩ := plan_eq_layoutOf_iff.1 plan
    have hfirst := hdisk.wrote provider
    have hsecond := hdisk.wrote keeper
    rw [(plan_files plan).1] at hfirst
    refine .noKeeper (occupied_eq hdisk absent) provider keeper ?_ fun hinside => ?_
    · rw [hsecond.file?_eq_of_error, hfirst.file?_eq_put, put_below plan, walk_provider]
      rfl
    · exact occupied_of_named plan hinside (hsecond.extends.named (named_of_wrote plan hfirst))
  | created plan absent provider keeper =>
    obtain ⟨-, rfl⟩ := plan_eq_layoutOf_iff.1 plan
    have hfirst := hdisk.wrote provider
    have hsecond := hdisk.wrote keeper
    rw [(plan_files plan).1] at hfirst
    rw [(plan_files plan).2] at hsecond
    have hmiddle := hfirst.extends.workingDirectory_eq
    have hlast := (hfirst.extends.trans hsecond.extends).workingDirectory_eq
    refine .created (occupied_eq hdisk absent) provider keeper ?_ fun hproper place hplace => ?_
    · rw [hsecond.file?_eq_put, hfirst.file?_eq_put, hmiddle, put_below plan, put_below plan,
        walk_provider, walk_keeper]
      rfl
    · have hprovider := node?_eq_none_of_named plan hproper (occupied_eq hdisk absent)
        hfirst.extends (by decide +kernel) (named_of_wrote plan hfirst)
      have hkeeper := node?_eq_none_of_named plan hproper (occupied_eq hdisk absent)
        (hfirst.extends.trans hsecond.extends) (by decide +kernel) (named_of_wrote plan hsecond)
      rw [hmiddle, walk_provider] at hprovider
      rw [hlast, walk_keeper] at hkeeper
      rcases List.mem_pair.1 hplace with rfl | rfl
      · exact hprovider
      · exact hkeeper

/-- Where the module's directory is there, nothing is tried. -/
theorem run_create_of_occupied (hname : isIdentifier request.name = true)
    (h : occupied context.project request (tree s) = true) :
    (create context request : Action (StateM σ) CreatedModule).run.run s =
      (.error (.fileExists (layoutOf context.project request).rootPath), s) := by
  have hpresent := run_isPresent hdisk context.project request s
  unfold create
  dsimp only
  rw [plan_eq_layoutOf _ hname, run_bind (run_ofExcept _ s), run_bind (run_lift hpresent), h]
  rfl

/-- Where it is not, the two writes are all that it takes. -/
theorem run_create_of_writes (hname : isIdentifier request.name = true)
    (h : occupied context.project request (tree s) = false)
    (hfirst : (writeProvider context.project request : Action (StateM σ) Unit).run.run s =
      (.ok (), s₁))
    (hsecond : (writeKeeper context.project request : Action (StateM σ) Unit).run.run s₁ =
      (.ok (), s₂)) :
    ∃ created, (create context request : Action (StateM σ) CreatedModule).run.run s =
      (.ok created, s₂) := by
  have hpresent := run_isPresent hdisk context.project request s
  rw [h] at hpresent
  unfold create
  dsimp only
  rw [plan_eq_layoutOf _ hname, run_bind (run_ofExcept _ s), run_bind (run_lift hpresent),
    if_neg Bool.false_ne_true]
  exact ⟨_, (run_bind hfirst).trans (run_bind hsecond)⟩

end

/-- **Creating a module leaves both files, or the first, or none.**  The disk may refuse any of the
writes (`hdisk`). What fails before the first write, or in it, has changed no file. What fails in
the second has put the configuration provider and changed no other file, and the module's directory
is there then, if it lies in the project. What succeeds has put the two files and changed no other;
they are new, if besides the path of the directory goes back only from directories that are there.
Asked for again at any time, a module is refused where its directory is there; and where it is not,
it takes no more than that both writes are done. -/
theorem create_leaves {σ : Type} [Disk (StateM σ)] {tree : σ → FileTree}
    (hdisk : Disk.Fallible tree) (context : Context) (request : ModuleRequest) (s : σ) :
    ∃ result s', (create context request : Action (StateM σ) CreatedModule).run.run s =
        (result, s') ∧ Leaves tree context.project request s result s' ∧
      ∀ s₁, isIdentifier request.name = true →
        (occupied context.project request (tree s₁) = true →
          (create context request : Action (StateM σ) CreatedModule).run.run s₁ =
            (.error (.fileExists (layoutOf context.project request).rootPath), s₁)) ∧
        (occupied context.project request (tree s₁) = false → ∀ s₂ s₃,
          (writeProvider context.project request : Action (StateM σ) Unit).run.run s₁ =
            (.ok (), s₂) →
          (writeKeeper context.project request : Action (StateM σ) Unit).run.run s₂ =
            (.ok (), s₃) →
          ∃ created, (create context request : Action (StateM σ) CreatedModule).run.run s₁ =
            (.ok created, s₃)) := by
  obtain ⟨result, s', hrun, houtcome⟩ := run_create context request fun path =>
    ⟨_, hdisk.project_isPresent context.project path s⟩
  refine ⟨result, s', hrun, leaves_of_outcome hdisk houtcome, fun s₁ hname => ⟨?_, ?_⟩⟩
  · exact run_create_of_occupied hdisk hname
  · exact fun habsent s₂ s₃ => run_create_of_writes hdisk hname habsent

/-- Without faults both files are new. Where the first replacement fails no file has changed, but
the directory is there, so the next try is refused. -/
theorem create_leaves_at_fault :
    let context : Context := ⟨⟨"/p".toList⟩, .default, .empty⟩
    let request : ModuleRequest := ⟨"Blog".toList, "src".toList⟩
    let tree : FileTree := ⟨[([['p']], .directory)], []⟩
    let home := [['p'], "src".toList, "Blog".toList]
    Disk.Fallible FaultyTree.tree ∧
      (∃ created s', (create context request : Action (StateM FaultyTree) CreatedModule).run.run
          ⟨tree, []⟩ = (.ok created, s') ∧
        s'.tree.file? = Function.update
          (Function.update tree.file? (home ++ ["src".toList, "ConfigProvider.php".toList])
            (some (.file (providerSource "Blog".toList))))
          (home ++ ["templates".toList, ".gitkeep".toList]) (some (.file [])) ∧
        tree.node? (home ++ ["src".toList, "ConfigProvider.php".toList]) = none ∧
        tree.node? (home ++ ["templates".toList, ".gitkeep".toList]) = none) ∧
      ∃ e s', (create context request : Action (StateM FaultyTree) CreatedModule).run.run
          ⟨tree, [true]⟩ = (.error e, s') ∧ s'.tree.file? = tree.file? ∧
        (create context request : Action (StateM FaultyTree) CreatedModule).run.run s' =
          (.error (.fileExists "/p/src/Blog".toList), s') := by
  intro context request tree home
  have hproper : Proper context.project request tree :=
    ⟨by decide +kernel, by decide +kernel, by decide +kernel⟩
  have habsent : occupied context.project request tree = false := by decide +kernel
  refine ⟨FaultyTree.fallible, ?_, ?_⟩
  · obtain ⟨result, s', hrun, hleaves, -⟩ :=
      create_leaves FaultyTree.fallible context request ⟨tree, []⟩
    have hok : ((create context request : Action (StateM FaultyTree) CreatedModule).run.run
        ⟨tree, []⟩).1.toOption.isSome := by decide +kernel
    rw [hrun] at hok
    cases hleaves with
    | refused => cases hok
    | noProvider => cases hok
    | noKeeper => cases hok
    | created absent first second files fresh =>
      have hhome : CreatedModule.home context.project request [] = home := by decide +kernel
      have hfresh := fresh hproper
      change ∀ place ∈ _, tree.node? (CreatedModule.home context.project request [] ++ place) =
        none at hfresh
      rw [hhome] at hfresh
      refine ⟨_, s', hrun, ?_, hfresh _ List.mem_cons_self,
        hfresh _ (List.mem_cons_of_mem _ List.mem_cons_self)⟩
      rw [files, withKeeper, withProvider]
      change Function.update (Function.update tree.file? (CreatedModule.home context.project
        request [] ++ _) _) (CreatedModule.home context.project request [] ++ _) _ = _
      rw [hhome]
  · obtain ⟨result, s', hrun, hleaves, hagain⟩ :=
      create_leaves FaultyTree.fallible context request ⟨tree, [true]⟩
    have hfailed : ((writeProvider context.project request :
        Action (StateM FaultyTree) Unit).run.run ⟨tree, [true]⟩).1.toOption = none := by
      decide +kernel
    have hoccupied : occupied context.project request
        ((create context request : Action (StateM FaultyTree) CreatedModule).run.run
          ⟨tree, [true]⟩).2.tree = true := by decide +kernel
    rw [hrun] at hoccupied
    have hrefused := (hagain s' (by decide +kernel)).1 hoccupied
    cases hleaves with
    | refused cause => cases cause.elim (absurd · (by decide +kernel)) (habsent.symm.trans ·)
    | noProvider absent first files => exact ⟨_, s', hrun, files, hrefused⟩
    | noKeeper absent first =>
      rw [first] at hfailed
      cases hfailed
    | created absent first =>
      rw [first] at hfailed
      cases hfailed

/-- The second write fails, for a reason of the disk or because it leads out of the project. The
configuration provider is there all the same, and on the first of the two disks the module is there
for the next try. -/
theorem half_created :
    let faulty : FaultyTree := ⟨⟨[([['p']], .directory)], []⟩, [false, true]⟩
    let context : Context := ⟨⟨"/p".toList⟩, .default, .empty⟩
    let place := [['p'], "src".toList, "Blog".toList, "src".toList, "ConfigProvider.php".toList]
    let run := (create context ⟨"Blog".toList, "src".toList⟩ :
      Action (StateM FaultyTree) CreatedModule).run.run faulty
    let again := (create context ⟨"Blog".toList, "src".toList⟩ :
      Action (StateM FaultyTree) CreatedModule).run.run run.2
    let tree : FileTree := ⟨[([['p']], .directory), ([['p'], "Blog".toList], .directory),
      ([['p'], "Blog".toList, "src".toList], .directory)], []⟩
    let inside : Context := ⟨⟨"/p/Blog/src".toList⟩, .default, .empty⟩
    let above := [['p'], "Blog".toList, "src".toList, "ConfigProvider.php".toList]
    let left := (create inside ⟨"Blog".toList, "../..".toList⟩ :
      Action (StateM FileTree) CreatedModule).run.run tree
    (run.1 = .error .disk ∧ faulty.tree.node? place = none ∧ run.2.tree.node? place ≠ none ∧
        again.1 = .error (.fileExists "/p/src/Blog".toList)) ∧
      left.1 = .error (.pathTraversal "/p/Blog/src/../../Blog/templates/.gitkeep".toList) ∧
      tree.node? above = none ∧ left.2.node? above ≠ none := by
  intro faulty context place run again tree inside above left
  exact ⟨⟨by decide +kernel, by decide +kernel, by decide +kernel, by decide +kernel⟩,
    by decide +kernel, by decide +kernel, by decide +kernel⟩

end CreatedModule
end Scaffold
