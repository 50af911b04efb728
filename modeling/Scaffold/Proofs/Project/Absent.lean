/-
# What is not present is not overwritten

Asking for a file follows its path in the tree as it is. Writing first makes the directories above
it, so a path that goes back from a missing directory leads nowhere when it is asked for and
somewhere when it is written. Where two dots are only met in directories that are there (`Direct`),
a location that a write names is also found by asking (`Named.of_node?`), and what is not present
is written over no file (`write_keeps`).
-/

import Mathlib.Data.List.Induction
import Scaffold.Proofs.Project.Inside

namespace Scaffold
namespace FileTree

/-- Walked by their text from a location, the segments have two dots only after a directory that is
there. -/
def DirectFrom (tree : FileTree) (place : List Text) : List Text → Prop
  | [] => True
  | segment :: segments =>
    (segment = ['.', '.'] → tree.node? place = some .directory) ∧
      DirectFrom tree (Location.step place segment) segments

/-- Two dots in the path come after a directory that is there. -/
def Direct (tree : FileTree) (path : Path) : Prop :=
  tree.DirectFrom (tree.start path) (Path.segments path)

instance decidableDirectFrom (tree : FileTree) :
    ∀ place segments, Decidable (tree.DirectFrom place segments)
  | _, [] => .isTrue trivial
  | place, segment :: segments =>
    have : Decidable (tree.DirectFrom (Location.step place segment) segments) :=
      decidableDirectFrom tree _ segments
    inferInstanceAs (Decidable (_ ∧ _))

instance (tree : FileTree) (path : Path) : Decidable (tree.Direct path) :=
  inferInstanceAs (Decidable (tree.DirectFrom _ _))

/-- Every file of the first tree is in the second as it was. -/
def Keeps (tree tree' : FileTree) : Prop :=
  ∀ place, (tree.file? place).isSome → tree'.file? place = tree.file? place

section
variable {tree tree' tree'' : FileTree} {place dest : List Text} {segments : List Text}

/-- Segments are direct if some are and the others are from where those lead. -/
theorem directFrom_append {more : List Text} :
    tree.DirectFrom place (segments ++ more) ↔ tree.DirectFrom place segments ∧
      tree.DirectFrom (segments.foldl Location.step place) more := by
  induction segments generalizing place with
  | nil => exact (and_iff_right trivial).symm
  | cons segment segments ih =>
    rw [List.cons_append, DirectFrom, DirectFrom, ih, List.foldl_cons, and_assoc]

/-- A path that does not go back is direct. -/
theorem directFrom_of_not_mem (h : ['.', '.'] ∉ segments) : tree.DirectFrom place segments := by
  induction segments generalizing place with
  | nil => trivial
  | cons segment segments ih =>
    obtain ⟨hne, hrest⟩ := not_or.1 (mt List.mem_cons.2 h)
    exact ⟨fun heq => absurd heq.symm hne, ih hrest⟩

/-- What is direct stays so where the tree is extended. -/
theorem DirectFrom.extend (h : tree.DirectFrom place segments) (hextends : Extends tree tree') :
    tree'.DirectFrom place segments := by
  induction segments generalizing place with
  | nil => trivial
  | cons segment segments ih => exact ⟨fun hdots => hextends.directory (h.1 hdots), ih h.2⟩

/-- A direct path is direct where there is more. -/
theorem Direct.extend {path : Path} (h : tree.Direct path) (hextends : Extends tree tree') :
    tree'.Direct path := by
  have hstart : tree'.start path = tree.start path := by
    rw [start, start, hextends.workingDirectory_eq]
  rw [Direct, hstart]
  exact DirectFrom.extend h hextends

/-- Segments are followed by following some and then the others. -/
theorem foldlM_enter_append {tree : FileTree} {more : List Text} :
    (segments ++ more).foldlM tree.enter place = .ok dest ↔ ∃ middle,
      segments.foldlM tree.enter place = .ok middle ∧ more.foldlM tree.enter middle = .ok dest := by
  rw [List.foldlM_append]
  cases segments.foldlM tree.enter place with
  | error obstacle => exact iff_of_false nofun (by rintro ⟨_, ⟨⟩, _⟩)
  | ok middle => exact ⟨fun h => ⟨middle, rfl, h⟩, fun ⟨_, h, hmore⟩ => Except.ok.inj h ▸ hmore⟩

/-- One segment is followed in one step. -/
theorem foldlM_enter_singleton {segment : Text} :
    [segment].foldlM tree.enter place = tree.enter place segment := by
  rw [List.foldlM_cons]
  exact bind_pure (tree.enter place segment)

/-- A step to a place that was there before could be taken before. -/
theorem enter_of_enter {segment : Text} (h : tree'.enter place segment = .ok dest)
    (hplace : tree.node? place = some .directory) (hdest : (tree.node? dest).isSome) :
    tree.enter place segment = .ok dest := by
  obtain ⟨rfl, hplace'⟩ := eq_step_of_enter h
  unfold enter at h ⊢
  rw [if_neg (not_not.2 hplace')] at h
  rw [if_neg (not_not.2 hplace)]
  by_cases hidle : Path.isIdle segment = true
  · rwa [if_pos hidle] at h ⊢
  by_cases hdots : segment = ['.', '.']
  · rwa [if_neg hidle, if_pos hdots] at h ⊢
  by_cases hlong : nameLimit < byteLength segment
  · rw [if_neg hidle, if_neg hdots, if_pos hlong] at h
    cases h
  rw [Location.step_name hidle hdots] at hdest ⊢
  rw [if_neg hidle, if_neg hdots, if_neg hlong, if_pos hdest]

/-- **A directory is reached in the tree as it is**, if its path is direct there and leads to it in
some other tree. -/
theorem foldlM_enter_of_directory (hrooted : tree.Rooted) (hdirect : tree.DirectFrom place segments)
    (h : segments.foldlM tree'.enter place = .ok dest)
    (hdest : tree.node? dest = some .directory) :
    segments.foldlM tree.enter place = .ok dest := by
  induction segments using List.reverseRecOn generalizing dest with
  | nil => exact h
  | append_singleton segments segment ih =>
    obtain ⟨middle, hmiddle, hlast⟩ := foldlM_enter_append.1 h
    rw [foldlM_enter_singleton] at hlast
    obtain ⟨hdirect, hdots, -⟩ := directFrom_append.1 hdirect
    rw [← eq_foldl_of_foldlM_enter hmiddle] at hdots
    have hplace : tree.node? middle = some .directory := by
      obtain ⟨rfl, -⟩ := eq_step_of_enter hlast
      by_cases hidle : Path.isIdle segment = true
      · rwa [Location.step_of_isIdle hidle] at hdest
      · by_cases hback : segment = ['.', '.']
        · exact hdots hback
        · rw [Location.step_name hidle hback] at hdest
          exact hrooted middle segment (by rw [hdest]; rfl)
    refine foldlM_enter_append.2 ⟨middle, ih hdirect hmiddle hplace, ?_⟩
    rw [foldlM_enter_singleton]
    exact enter_of_enter hlast hplace (by rw [hdest]; rfl)

end

section
variable {tree tree' : FileTree} {path : Path} {place : List Text}

/-- **A name is a name in the tree as it is**, if its path is direct there, it is one in some other
tree, and something stands at the location. -/
theorem Named.of_node? (hrooted : tree.Rooted) (hdirect : tree.Direct path)
    (hstart : tree'.start path = tree.start path) (h : Named tree' path place)
    (hplace : (tree.node? place).isSome) : Named tree path place := by
  obtain ⟨above, habove, -, rfl⟩ := h.above
  have hdirectory := hrooted above _ hplace
  rw [Direct, Path.segments_eq_concat, directFrom_append] at hdirect
  rw [hstart] at habove
  exact { h with
    above := ⟨above, foldlM_enter_of_directory hrooted hdirect.1 habove hdirectory, hdirectory,
      rfl⟩ }

/-- A way to a directory starts from a directory. -/
theorem directory_of_foldlM_enter {segments dest : List Text}
    (h : segments.foldlM tree.enter place = .ok dest)
    (hdest : tree.node? dest = some .directory) : tree.node? place = some .directory := by
  cases segments with
  | nil => rwa [Except.ok.inj h]
  | cons segment segments =>
    rw [← List.singleton_append, foldlM_enter_append] at h
    obtain ⟨middle, hfirst, -⟩ := h
    rw [foldlM_enter_singleton] at hfirst
    exact (eq_step_of_enter hfirst).2

/-- The bytes of two texts are those of each. -/
theorem byteLength_append (a b : Text) : byteLength (a ++ b) = byteLength a + byteLength b := by
  induction a with
  | nil => exact (Nat.zero_add _).symm
  | cons c a ih =>
    change c.utf8Size + byteLength (a ++ b) = c.utf8Size + byteLength a + byteLength b
    rw [ih, Nat.add_assoc]

/-- A part of a usable path is usable. -/
theorem isUsable_of_append {a b : Text} (h : isUsable (a ++ b) = true) : isUsable a = true := by
  obtain ⟨hlength, hnull⟩ := Bool.and_eq_true_iff.1 h
  refine Bool.and_eq_true_iff.2 ⟨?_, ?_⟩
  · rw [decide_eq_true_eq, byteLength_append] at hlength
    exact decide_eq_true (by omega)
  · simp only [List.contains_eq_mem, List.mem_append, not_or, Bool.not_eq_eq_eq_not, Bool.not_true,
      decide_eq_false_iff_not] at hnull ⊢
    exact hnull.1

/-- A path starts where its first part does. -/
theorem start_append {base : Path} (hbase : base ≠ []) (rest : Path) :
    tree.start (base ++ rest) = tree.start base := by
  rw [start, start, Path.isAbsolute_append_eq hbase]

/-- A name below a path is a name below a directory. -/
theorem Named.nodeAt?_above {base rest : Path} (hbase : base ≠ [])
    (h : Named tree (base ++ '/' :: rest) place) : tree.nodeAt? base = some .directory := by
  obtain ⟨above, habove, hdirectory, -⟩ := h.above
  have hsegments : (Path.segments (base ++ '/' :: rest)).dropLast =
      Path.segments base ++ (Path.segments rest).dropLast := by
    rw [Path.segments, List.splitOn_append_cons_self,
      List.dropLast_append_of_ne_nil (List.splitOn_ne_nil _ _)]
    rfl
  rw [hsegments, start_append hbase] at habove
  obtain ⟨middle, hmiddle, hrest⟩ := foldlM_enter_append.1 habove
  have hfollow : tree.follow base = .ok middle := by
    unfold follow
    rw [if_neg (by simpa using hbase), if_neg (by rw [isUsable_of_append h.usable.2]; decide),
      hmiddle]
  rw [FileTree.nodeAt?, hfollow]
  exact directory_of_foldlM_enter hrest hdirectory

end

section
variable {tree tree' : FileTree}

/-- Every file of a tree is in it as it was. -/
theorem Keeps.refl (tree : FileTree) : Keeps tree tree := fun _ _ => rfl

/-- Directories that are created keep every file that was kept before them. -/
theorem Keeps.grown {tree'' : FileTree} (h : Keeps tree tree') (hgrown : Grown tree' tree'') :
    Keeps tree tree'' := by
  intro place hplace
  rw [hgrown.file?_eq]
  exact h place hplace

/-- A text that is put where nothing was changes no file. -/
theorem Keeps.setNode (h : Keeps tree tree') {place : List Text} (hp : place ≠ [])
    (hfree : tree.node? place = none) (text : Text) :
    Keeps tree (tree'.setNode place (.file text)) := by
  intro other hother
  rw [file?_setNode _ hp, Function.update_of_ne]
  · exact h other hother
  · rintro rfl
    rw [file?, hfree] at hother
    cases hother

end

end FileTree

namespace Project

open FileTree (Keeps Named)

/-- Nothing stands at a location that the path names. -/
def Free (project : Project) (path : Path) (tree : FileTree) : Prop :=
  ∀ full place, project.confine path = .ok full → Named tree full place → tree.node? place = none

variable {project : Project} {path : Path} {tree tree₁ tree₂ : FileTree}

/-- What is not present is free. -/
theorem free_of_not_isPresent
    (h : (project.isPresent path : StateM FileTree Bool).run tree = (false, tree)) :
    project.Free path tree := by
  intro full place hconfine hnamed
  rw [run_isPresent, hconfine] at h
  have habsent : (tree.nodeAt? full).isSome = false := congrArg Prod.fst h
  by_contra hplace
  have hsome : (tree.node? place).isSome := Option.isSome_iff_ne_none.2 hplace
  rw [hnamed.nodeAt? hsome, hsome] at habsent
  cases habsent

/-- A write keeps every file, if nothing stood at what its path names. -/
theorem Wrote.keeps_of_free {text : Text} {result : Except Failure Unit}
    (h : project.Wrote path text tree₁ result tree₂) (hkeeps : Keeps tree tree₁)
    (hfree : ∀ {tree' place}, project.confine path = .ok (project.resolve path) →
      Named tree' (project.resolve path) place → tree.node? place = none) : Keeps tree tree₂ := by
  cases h with
  | refused => exact hkeeps
  | failed _ _ grown => exact hkeeps.grown grown
  | written confine grown _ named =>
    obtain ⟨-, rfl⟩ := confine_eq_ok_iff.1 confine
    exact (hkeeps.grown grown).setNode named.ne_nil (hfree confine named) text

section
variable (hroot : Path.isAbsolute project.root = true) (hrooted : tree.Rooted)
  (hdirect : tree.Direct (project.resolve path)) (hfree : project.Free path tree)
include hroot hrooted hdirect hfree

/-- Nothing stood at a location that the path names later. -/
theorem Free.node?_eq_none {tree' : FileTree} {place : List Text}
    (hconfine : project.confine path = .ok (project.resolve path))
    (h : Named tree' (project.resolve path) place) : tree.node? place = none := by
  have hstart : ∀ tree : FileTree, tree.start (project.resolve path) = [] := fun tree =>
    if_pos (isAbsolute_resolve hroot path)
  by_contra hplace
  refine hplace (hfree _ place hconfine (.of_node? hrooted hdirect ?_ h ?_))
  · rw [hstart, hstart]
  · rwa [Option.isSome_iff_ne_none]

/-- What is written stands where nothing stood. -/
theorem Wrote.node?_target {text : Text} (h : project.Wrote path text tree₁ (.ok ()) tree₂) :
    tree.node? (project.target path) = none := by
  cases h with
  | written confine grown rooted named free =>
    obtain ⟨-, rfl⟩ := confine_eq_ok_iff.1 confine
    rw [← eq_target_of_named hroot named]
    exact hfree.node?_eq_none hroot hrooted hdirect confine named

/-- A write over what is free keeps every file that was kept before it. -/
theorem Wrote.keeps {text : Text} {result : Except Failure Unit}
    (h : project.Wrote path text tree₁ result tree₂) (hkeeps : Keeps tree tree₁) :
    Keeps tree tree₂ :=
  h.keeps_of_free hkeeps (hfree.node?_eq_none hroot hrooted hdirect)

/-- **A write over what is free keeps every file**, whatever has been written before it. -/
theorem write_keeps (hkeeps : Keeps tree tree₁) (text : Text) :
    Keeps tree
      ((project.write path text : Action (StateM FileTree) Unit).run.run tree₁).2 := by
  obtain ⟨result, tree₂, hrun, hwrote⟩ := run_write project path text tree₁
  rw [hrun]
  exact hwrote.keeps hroot hrooted hdirect hfree hkeeps

end

end Project
end Scaffold
