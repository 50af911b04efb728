/-
# Reading and writing in a project

What the operations of a project do on a file tree. Asking and reading leave the tree as it is
(`run_isPresent`, `run_read`). A write has one of three outcomes (`Wrote`): it is refused; or it
fails, and there may be more directories; or the file that its path names in the tree with more
directories is put there. A disk that fails more often than a file tree knows no other outcome
(`Disk.Fallible.run_write`).
-/

import Scaffold.Proofs.Project.Walk

namespace Scaffold

namespace FileTree

/-- Whatever stands in a tree stands in a directory. -/
def Rooted (tree : FileTree) : Prop :=
  ∀ place name, (tree.node? (place ++ [name])).isSome → tree.node? place = some .directory

variable {tree tree' : FileTree} {path : Path} {place : List Text}

/-- Something stands at a name in a directory just in case the tree lists it. -/
theorem isSome_node?_concat {name : Text} :
    (tree.node? (place ++ [name])).isSome ↔ ∃ entry ∈ tree.nodes, entry.1 = place ++ [name] := by
  have hempty : ¬(place ++ [name]).isEmpty = true := by simp
  rw [node?, if_neg hempty, List.lookup_isSome_iff]
  refine exists_congr fun entry => and_congr_right fun _ => ?_
  rw [beq_iff_eq, eq_comm]

/-- It is enough to look at what is listed. -/
theorem rooted_iff :
    tree.Rooted ↔ ∀ entry ∈ tree.nodes, tree.node? entry.1.dropLast = some .directory := by
  constructor
  · rintro h ⟨place, node⟩ hentry
    rcases List.eq_nil_or_concat place with rfl | ⟨above, name, rfl⟩
    · rfl
    · rw [List.concat_eq_append] at hentry ⊢
      have habove := h above name (isSome_node?_concat.2 ⟨_, hentry, rfl⟩)
      rwa [List.dropLast_concat]
  · intro h place name hsome
    obtain ⟨entry, hentry, hplace⟩ := isSome_node?_concat.1 hsome
    have habove := h entry hentry
    rwa [hplace, List.dropLast_concat] at habove

instance : Decidable tree.Rooted := decidable_of_iff _ rooted_iff.symm

/-- A file that is put at a name leaves the tree rooted. -/
theorem Rooted.setNode (h : tree.Rooted) (hn : Named tree path place)
    (hfree : tree.node? place ≠ some .directory) (node : Node) :
    (tree.setNode place node).Rooted := by
  obtain ⟨above, -, hdirectory, hplace⟩ := hn.above
  have hp := hn.ne_nil
  intro other name hsome
  by_cases hsame : other ++ [name] = place
  · obtain ⟨rfl, -⟩ := List.append_inj' (hsame.trans hplace) rfl
    have hne : other ≠ place := by
      rw [hplace]
      simp
    rwa [node?_setNode_of_ne _ _ hne]
  · rw [node?_setNode_of_ne _ _ hsame] at hsome
    have hother := h other name hsome
    have hne : other ≠ place := fun heq => hfree (heq ▸ hother)
    rwa [node?_setNode_of_ne _ _ hne]

/-- A directory that is created leaves the tree rooted. -/
theorem Rooted.createDirectory (h : tree.Rooted) (hcreate : tree.createDirectory path = .ok tree') :
    tree'.Rooted := by
  unfold FileTree.createDirectory at hcreate
  split at hcreate
  · cases hcreate
  · split at hcreate
    · cases hcreate
    · rename_i place hentry
      split at hcreate
      · cases hcreate
      · rename_i hfree
        cases hcreate
        have hnone : tree.node? place = none := by simpa using hfree
        exact h.setNode (entryOf_eq_ok_iff.1 hentry) (by rw [hnone]; nofun) _

/-- Directories that are created leave the tree rooted. -/
theorem Rooted.createDirectories (h : tree.Rooted) (path : Path) :
    (tree.createDirectories path).1.Rooted :=
  createWithin_of_createDirectory (fun tree tree' => tree.Rooted → tree'.Rooted)
    (fun _ h => h) (fun h h' hrooted => h' (h hrooted)) (fun hcreate h => h.createDirectory hcreate)
    _ tree path h

/-- What a file is found to be is what stands there. -/
theorem node?_of_file? {node : Node} (h : tree.file? place = some node) :
    tree.node? place = some node :=
  (Option.filter_eq_some_iff.1 h).1

/-- A text is read where a file with that text stands. -/
theorem read?_eq_some_iff {text : Text} :
    tree.read? path = some text ↔ tree.nodeAt? path = some (.file text) := by
  unfold read?
  cases tree.nodeAt? path with
  | none => exact iff_of_false nofun nofun
  | some node => cases node <;> simp

/-- A text takes the place of the file that the path names, or nothing changes. -/
theorem replace_cases (tree : FileTree) (path : Path) (text : Text) :
    tree.replace path text = (tree, false) ∨
      ∃ place, Named tree path place ∧ tree.node? place ≠ some .directory ∧
        tree.replace path text = (tree.setNode place (.file text), true) := by
  unfold replace
  cases hentry : tree.entryOf path with
  | error obstacle => exact .inl rfl
  | ok place =>
    by_cases hfree : tree.node? place = some .directory
    · exact .inl (if_pos hfree)
    · exact .inr ⟨place, entryOf_eq_ok_iff.1 hentry, hfree, if_neg hfree⟩

end FileTree

open FileTree (Grown Named)
open Registration (run_bind run_bind_error run_lift run_ofExcept run_ofExcept_error)

/-- A disk that holds a file tree, where creating and replacing may fail for reasons of the disk's
own. Asking leaves the disk as it is, a directory that is created comes with directories only, and a
text is put as in the tree or not at all. `tree s` is the tree in the state `s`. -/
structure Disk.Fallible {σ : Type} [Disk (StateM σ)] (tree : σ → FileTree) : Prop where
  isPresent (s : σ) (path : Path) : (Disk.isPresent path : StateM σ Bool).run s =
    (((tree s).nodeAt? path).isSome, s)
  createDirectories (s : σ) (path : Path) : ∃ done s',
    (Disk.createDirectories path : StateM σ Bool).run s = (done, s') ∧
      Grown (tree s) (tree s') ∧ ((tree s).Rooted → (tree s').Rooted)
  replace (s : σ) (path : Path) (text : Text) : ∃ done s',
    (Disk.replace path text : StateM σ Bool).run s = (done, s') ∧
      if done then (tree s).replace path text = (tree s', true) else tree s' = tree s

/-- A file tree is such a disk. -/
theorem FileTree.fallible : Disk.Fallible fun tree : FileTree => tree where
  isPresent _ _ := rfl
  createDirectories tree path :=
    ⟨(tree.createDirectories path).2, (tree.createDirectories path).1, rfl,
      grown_createWithin _ tree path, fun h => h.createDirectories path⟩
  replace tree path text := by
    refine ⟨(tree.replace path text).2, (tree.replace path text).1, rfl, ?_⟩
    rcases tree.replace_cases path text with h | ⟨place, -, -, h⟩ <;> rw [h] <;> rfl

namespace Project

variable {project : Project} {path full : Path} {text : Text} {tree : FileTree}

/-- A path of the project is the resolved one, where that does not lead out. -/
theorem confine_eq_ok_iff :
    project.confine path = .ok full ↔
      project.confines (project.resolve path) = true ∧ project.resolve path = full := by
  unfold confine
  dsimp only
  split
  · rename_i h
    exact ⟨fun hok => ⟨h, Except.ok.inj hok⟩, fun hok => congrArg Except.ok hok.2⟩
  · rename_i h
    exact iff_of_false nofun fun hok => h hok.1

/-- A path is refused where, resolved, it leads out of the project. -/
theorem confine_eq_error_iff {e : Failure} :
    project.confine path = .error e ↔
      ¬project.confines (project.resolve path) = true ∧
        .pathTraversal (project.resolve path) = e := by
  unfold confine
  dsimp only
  split
  · rename_i h
    exact iff_of_false nofun fun herror => herror.1 h
  · rename_i h
    exact ⟨fun herror => ⟨h, Except.error.inj herror⟩, fun herror => congrArg _ herror.2⟩

/-- Reading a file leaves the tree alone. -/
theorem run_read (project : Project) (path : Path) (tree : FileTree) :
    (project.read path : Action (StateM FileTree) Text).run.run tree =
      (match project.confine path with
        | .ok full =>
          match tree.read? full with
          | some text => .ok text
          | none => .error .disk
        | .error e => .error e, tree) := by
  unfold read
  cases project.confine path with
  | error e => exact run_bind_error (run_ofExcept_error e tree)
  | ok full =>
    have hread : (Disk.read? full : StateM FileTree (Option Text)).run tree =
        (tree.read? full, tree) := rfl
    refine (run_bind (run_ofExcept full tree)).trans ((run_bind (run_lift hread)).trans ?_)
    dsimp only
    cases tree.read? full <;> rfl

/-- What is read stands where the path leads. -/
theorem nodeAt?_of_run_read
    (h : (project.read path : Action (StateM FileTree) Text).run.run tree = (.ok text, tree)) :
    ∃ full, project.confine path = .ok full ∧ tree.nodeAt? full = some (.file text) := by
  rw [run_read] at h
  have hresult := congrArg Prod.fst h
  cases hconfine : project.confine path with
  | error e =>
    rw [hconfine] at hresult
    cases hresult
  | ok full =>
    refine ⟨full, rfl, FileTree.read?_eq_some_iff.1 ?_⟩
    rw [hconfine] at hresult
    dsimp only at hresult
    split at hresult
    · rename_i hread
      rw [hread, Except.ok.inj hresult]
    · cases hresult

/-- How a write comes out. -/
inductive Wrote (project : Project) (path : Path) (text : Text) (tree : FileTree) :
    Except Failure Unit → FileTree → Prop
  | refused {e : Failure} (confine : project.confine path = .error e) :
      Wrote project path text tree (.error e) tree
  | failed {full : Path} {e : Failure} {tree' : FileTree}
      (confine : project.confine path = .ok full)
      (cause : e = .disk ∨ e = .noParentDirectory full) (grown : Grown tree tree')
      (rooted : tree.Rooted → tree'.Rooted) :
      Wrote project path text tree (.error e) tree'
  | written {full : Path} {tree' : FileTree} {place : List Text}
      (confine : project.confine path = .ok full) (grown : Grown tree tree')
      (rooted : tree.Rooted → tree'.Rooted)
      (named : Named tree' full place) (free : tree'.node? place ≠ some .directory) :
      Wrote project path text tree (.ok ()) (tree'.setNode place (.file text))

end Project

namespace Disk.Fallible

variable {σ : Type} [Disk (StateM σ)] {tree : σ → FileTree} (hdisk : Disk.Fallible tree)
include hdisk

/-- Asking for a file answers from the tree and leaves the disk alone. -/
theorem project_isPresent (project : Project) (path : Path) (s : σ) :
    (project.isPresent path : StateM σ Bool).run s =
      (match project.confine path with
        | .ok full => ((tree s).nodeAt? full).isSome
        | .error _ => false, s) := by
  unfold Project.isPresent
  cases project.confine path with
  | error e => rfl
  | ok full => exact hdisk.isPresent s full

/-- **A write has one of its outcomes.** -/
theorem run_write (project : Project) (path : Path) (text : Text) (s : σ) :
    ∃ result s', (project.write path text : Action (StateM σ) Unit).run.run s = (result, s') ∧
      project.Wrote path text (tree s) result (tree s') := by
  have hcreated {directory : Path} {s s' : σ} {made : Bool}
      (create : (Disk.createDirectories directory : StateM σ Bool).run s = (made, s')) :
      Grown (tree s) (tree s') ∧ ((tree s).Rooted → (tree s').Rooted) :=
    (Registration.of_run (hdisk.createDirectories s directory) create :)
  have hreplaced {full : Path} {s s' : σ} {done : Bool}
      (replace : (Disk.replace full text : StateM σ Bool).run s = (done, s')) :
      if done then (tree s).replace full text = (tree s', true) else tree s' = tree s :=
    (Registration.of_run (hdisk.replace s full text) replace :)
  obtain ⟨result, s', hrun, hwrite⟩ := Registration.exists_writeRun project path text s
  refine ⟨result, s', hrun, ?_⟩
  cases hwrite with
  | refused confine => exact .refused confine
  | nowhere confine => exact .failed confine (.inr rfl) (.refl (tree s)) id
  | uncreated confine above create =>
    obtain ⟨hgrown, hrooted⟩ := hcreated create
    exact .failed confine (.inl rfl) hgrown hrooted
  | unput confine above create replace =>
    obtain ⟨hgrown, hrooted⟩ := hcreated create
    have hsame : tree s' = _ := hreplaced replace
    exact .failed confine (.inl rfl) (hsame ▸ hgrown) (hsame ▸ hrooted)
  | @put full directory s₁ _ confine above create replace =>
    obtain ⟨hgrown, hrooted⟩ := hcreated create
    have hput : (tree s₁).replace full text = (tree s', true) := hreplaced replace
    rcases (tree s₁).replace_cases full text with h | ⟨place, hnamed, hfree, h⟩
    · exact absurd (Prod.mk.inj (hput.symm.trans h)).2 Bool.false_ne_true.symm
    · rw [(Prod.mk.inj (hput.symm.trans h)).1]
      exact .written confine hgrown hrooted hnamed hfree

/-- What a write did comes out of it. -/
theorem wrote {project : Project} {path : Path} {text : Text} {result : Except Failure Unit}
    {s s' : σ}
    (h : (project.write path text : Action (StateM σ) Unit).run.run s = (result, s')) :
    project.Wrote path text (tree s) result (tree s') :=
  (Registration.of_run (hdisk.run_write project path text s) h :)

end Disk.Fallible

namespace Project

variable {project : Project} {path : Path} {text : Text} {tree tree' : FileTree}
  {result : Except Failure Unit}

/-- Asking for a file leaves the tree alone. -/
theorem run_isPresent (project : Project) (path : Path) (tree : FileTree) :
    (project.isPresent path : StateM FileTree Bool).run tree =
      (match project.confine path with
        | .ok full => (tree.nodeAt? full).isSome
        | .error _ => false, tree) :=
  FileTree.fallible.project_isPresent project path tree

/-- Writing a file is one of the things that a write may have done. -/
theorem run_write (project : Project) (path : Path) (text : Text) (tree : FileTree) :
    ∃ result tree',
      (project.write path text : Action (StateM FileTree) Unit).run.run tree = (result, tree') ∧
        Wrote project path text tree result tree' :=
  FileTree.fallible.run_write project path text tree

/-- A write leaves what stands in the tree in directories. -/
theorem Wrote.rooted (h : project.Wrote path text tree result tree')
    (hrooted : tree.Rooted) : tree'.Rooted := by
  cases h with
  | refused => exact hrooted
  | failed _ _ _ rooted => exact rooted hrooted
  | written _ _ rooted named free => exact (rooted hrooted).setNode named free _

/-- A write leaves what stands in the tree at all. -/
theorem Wrote.extends (h : project.Wrote path text tree result tree') :
    FileTree.Extends tree tree' := by
  cases h with
  | refused => exact .refl tree
  | failed _ _ grown => exact grown.extend
  | written _ grown _ named free => exact grown.extend.trans (.setNode named.ne_nil free)

/-- A write that fails changes no file. -/
theorem Wrote.file?_eq_of_error {e : Failure} (h : project.Wrote path text tree (.error e) tree') :
    tree'.file? = tree.file? := by
  cases h with
  | refused => rfl
  | failed _ _ grown => exact grown.file?_eq

end Project
end Scaffold
