/-
# A disk with the aggregation file

Here the aggregation file is there, whatever its content is, and the disk may fail to write it
(`HoldsFile`). A registration then comes out in one of three ways (`Outcome`): it fails and no file
has changed; or the document it reads is its result already; or the document has another text, and
that has taken the place of the file's.
-/

import Mathlib.Logic.Function.Basic
import Scaffold.FileTree
import Scaffold.Proofs.Document.Settled
import Scaffold.Proofs.Registration.Step

namespace Scaffold

/-- The text of a file. -/
def Node.text? : Node → Option Text
  | .file text => some text
  | .directory => none
  | .binary => none

namespace Registration

open Config (Change Document Literal)

/-! ### Runs that fail -/

section
variable {σ : Type}

/-- An action fails where its first part does. -/
theorem run_bind_error {α β : Type} {x : Action (StateM σ) α} {f : α → Action (StateM σ) β}
    {e : Failure} {s s' : σ} (h : x.run.run s = (.error e, s')) :
    (x >>= f).run.run s = (.error e, s') := by
  rw [ExceptT.run_bind, StateT.run_bind, h]
  rfl

/-- A result that is an error fails and leaves the disk alone. -/
theorem run_ofExcept_error {α : Type} (e : Failure) (s : σ) :
    (Action.ofExcept (.error e) : Action (StateM σ) α).run.run s = (.error e, s) := rfl

/-! ### Disks -/

variable {P : Type} [DecidableEq P] [Disk (StateM σ)]

/-- How a write in a project runs: it is refused before the disk is touched, or the directory above
is created and then the text is put, and each of the two may fail. -/
inductive WriteRun (project : Project) (path : Path) (text : Text) (s : σ) :
    Except Failure Unit → σ → Prop
  | refused {e : Failure} (confine : project.confine path = .error e) :
      WriteRun project path text s (.error e) s
  | nowhere {full : Path} (confine : project.confine path = .ok full)
      (above : Path.parent? full = none) :
      WriteRun project path text s (.error (.noParentDirectory full)) s
  | uncreated {full directory : Path} {s₁ : σ} (confine : project.confine path = .ok full)
      (above : Path.parent? full = some directory)
      (create : (Disk.createDirectories directory : StateM σ Bool).run s = (false, s₁)) :
      WriteRun project path text s (.error .disk) s₁
  | unput {full directory : Path} {s₁ s₂ : σ} (confine : project.confine path = .ok full)
      (above : Path.parent? full = some directory)
      (create : (Disk.createDirectories directory : StateM σ Bool).run s = (true, s₁))
      (replace : (Disk.replace full text : StateM σ Bool).run s₁ = (false, s₂)) :
      WriteRun project path text s (.error .disk) s₂
  | put {full directory : Path} {s₁ s₂ : σ} (confine : project.confine path = .ok full)
      (above : Path.parent? full = some directory)
      (create : (Disk.createDirectories directory : StateM σ Bool).run s = (true, s₁))
      (replace : (Disk.replace full text : StateM σ Bool).run s₁ = (true, s₂)) :
      WriteRun project path text s (.ok ()) s₂

omit [DecidableEq P] in
/-- Every write in a project runs in one of the ways that a write has. -/
theorem exists_writeRun (project : Project) (path : Path) (text : Text) (s : σ) : ∃ result s',
    (project.write path text : Action (StateM σ) Unit).run.run s = (result, s') ∧
      WriteRun project path text s result s' := by
  unfold Project.write
  cases hconfine : project.confine path with
  | error e => exact ⟨_, s, run_bind_error (run_ofExcept_error e s), .refused hconfine⟩
  | ok full =>
    rw [run_bind (run_ofExcept full s)]
    cases hparent : Path.parent? full with
    | none =>
      have habove : Project.directoryOf full = .error (.noParentDirectory full) := by
        rw [Project.directoryOf, hparent]
      rw [habove]
      exact ⟨_, s, run_bind_error (run_ofExcept_error _ s), .nowhere hconfine hparent⟩
    | some directory =>
      have habove : Project.directoryOf full = .ok directory := by
        rw [Project.directoryOf, hparent]
      rw [habove, run_bind (run_ofExcept directory s)]
      cases hcreate : (Disk.createDirectories directory : StateM σ Bool).run s with
      | mk made s₁ =>
        rw [run_bind (run_lift hcreate)]
        cases made with
        | false => exact ⟨_, s₁, rfl, .uncreated hconfine hparent hcreate⟩
        | true =>
          cases hreplace : (Disk.replace full text : StateM σ Bool).run s₁ with
          | mk done s₂ =>
            have hdone := run_bind (f := fun done => if !done then throw .disk else pure ())
              (run_lift hreplace)
            cases done with
            | false => exact ⟨_, s₂, hdone, .unput hconfine hparent hcreate hreplace⟩
            | true => exact ⟨_, s₂, hdone, .put hconfine hparent hcreate hreplace⟩

/-- The path leads to a file, and the disk may be written to. `file? s p` is the file at the place
`p` in the state `s`, and `Holds s` says that the path leads to the file at `place` in that state.
Reading leaves the disk as it is; creating directories changes no file; and the file is either
replaced as a whole, or no file changes. -/
structure HoldsFile (full : Path) (place : P) (file? : σ → P → Option Node) (Holds : σ → Prop) :
    Prop where
  isPresent {s : σ} (h : Holds s) : (Disk.isPresent full : StateM σ Bool).run s = (true, s)
  read {s : σ} (h : Holds s) : (Disk.read? full : StateM σ (Option Text)).run s =
    ((file? s place).bind Node.text?, s)
  createDirectories {s : σ} (h : Holds s) {directory : Path}
    (hdirectory : Path.parent? full = some directory) :
    ∃ done s', (Disk.createDirectories directory : StateM σ Bool).run s = (done, s') ∧ Holds s' ∧
      file? s' = file? s
  replace {s : σ} (h : Holds s) (text : Text) :
    ∃ done s', (Disk.replace full text : StateM σ Bool).run s = (done, s') ∧ Holds s' ∧
      file? s' = if done then Function.update (file? s) place (some (.file text)) else file? s

/-- Writing through the path replaces the file at `place` as a whole, or no file changes. -/
structure Replaces (full : Path) (place : P) (file? : σ → P → Option Node) (Holds : σ → Prop) :
    Prop where
  createDirectories {s : σ} (h : Holds s) {directory : Path}
    (hdirectory : Path.parent? full = some directory) :
    ∃ done s', (Disk.createDirectories directory : StateM σ Bool).run s = (done, s') ∧ Holds s' ∧
      file? s' = file? s
  replace {s : σ} (h : Holds s) (text : Text) :
    ∃ done s', (Disk.replace full text : StateM σ Bool).run s = (done, s') ∧ Holds s' ∧
      file? s' = if done then Function.update (file? s) place (some (.file text)) else file? s

namespace Replaces

variable {project : Project} {path full : Path} {place : P} {file? : σ → P → Option Node}
  {Holds : σ → Prop} (hdisk : Replaces full place file? Holds) {s s' : σ} (h : Holds s)
include hdisk h

/-- Creating the directory above the file changes no file. -/
theorem of_create {directory : Path} {made : Bool} (above : Path.parent? full = some directory)
    (create : (Disk.createDirectories directory : StateM σ Bool).run s = (made, s')) :
    Holds s' ∧ file? s' = file? s :=
  (of_run (hdisk.createDirectories h above) create :)

/-- Putting a text in the place of the file changes that file alone, and only if it is done. -/
theorem of_replace {text : Text} {done : Bool}
    (replace : (Disk.replace full text : StateM σ Bool).run s = (done, s')) :
    Holds s' ∧ file? s' =
      if done then Function.update (file? s) place (some (.file text)) else file? s :=
  (of_run (hdisk.replace h text) replace :)

/-- A file is written, or the write fails and no file has changed. -/
theorem project_write (hpath : project.confine path = .ok full) (text : Text) : ∃ result s',
    (project.write path text : Action (StateM σ) Unit).run.run s = (result, s') ∧ Holds s' ∧
      (result = .ok () ∧ file? s' = Function.update (file? s) place (some (.file text)) ∨
        (∃ e, result = .error e ∧ (e = .disk ∨ e = .noParentDirectory full)) ∧
          file? s' = file? s) := by
  obtain ⟨result, s', hrun, hwrite⟩ := exists_writeRun project path text s
  refine ⟨result, s', hrun, ?_⟩
  cases hwrite with
  | refused confine => cases hpath.symm.trans confine
  | nowhere confine =>
    obtain rfl := Except.ok.inj (hpath.symm.trans confine)
    exact ⟨h, .inr ⟨⟨_, rfl, .inr rfl⟩, rfl⟩⟩
  | uncreated confine above create =>
    obtain rfl := Except.ok.inj (hpath.symm.trans confine)
    obtain ⟨hs₁, hfiles₁⟩ := hdisk.of_create h above create
    exact ⟨hs₁, .inr ⟨⟨_, rfl, .inl rfl⟩, hfiles₁⟩⟩
  | unput confine above create replace =>
    obtain rfl := Except.ok.inj (hpath.symm.trans confine)
    obtain ⟨hs₁, hfiles₁⟩ := hdisk.of_create h above create
    obtain ⟨hs₂, hfiles₂⟩ := hdisk.of_replace hs₁ replace
    exact ⟨hs₂, .inr ⟨⟨_, rfl, .inl rfl⟩, hfiles₂.trans hfiles₁⟩⟩
  | put confine above create replace =>
    obtain rfl := Except.ok.inj (hpath.symm.trans confine)
    obtain ⟨hs₁, hfiles₁⟩ := hdisk.of_create h above create
    obtain ⟨hs₂, hfiles₂⟩ := hdisk.of_replace hs₁ replace
    rw [hfiles₁] at hfiles₂
    exact ⟨hs₂, .inl ⟨rfl, hfiles₂⟩⟩

end Replaces

namespace HoldsFile

variable {project : Project} {path full : Path} {place : P} {file? : σ → P → Option Node}
  {Holds : σ → Prop} (hdisk : HoldsFile full place file? Holds)
include hdisk

/-- A disk that holds the file replaces it as a whole. -/
theorem replaces : Replaces full place file? Holds := ⟨hdisk.createDirectories, hdisk.replace⟩

variable (hpath : project.confine path = .ok full) {s : σ}
include hpath

/-- The file is there. -/
theorem project_isPresent (h : Holds s) :
    (project.isPresent path : StateM σ Bool).run s = (true, s) := by
  rw [Project.isPresent, hpath]
  exact hdisk.isPresent h

/-- Reading gives the text of the file, if it is one. -/
theorem project_read (h : Holds s) :
    (project.read path : Action (StateM σ) Text).run.run s =
      (match (file? s place).bind Node.text? with
        | some text => .ok text
        | none => .error .disk, s) := by
  rw [Project.read, hpath]
  refine (run_bind (run_ofExcept full s)).trans ((run_bind (run_lift (hdisk.read h))).trans ?_)
  cases (file? s place).bind Node.text? with
  | some text => rfl
  | none => rfl

/-- The file is written, or the write fails and no file has changed. -/
theorem project_write (h : Holds s) (text : Text) : ∃ result s',
    (project.write path text : Action (StateM σ) Unit).run.run s = (result, s') ∧ Holds s' ∧
      (result = .ok () ∧ file? s' = Function.update (file? s) place (some (.file text)) ∨
        (∃ e, result = .error e) ∧ file? s' = file? s) := by
  obtain ⟨result, s', hrun, hs', hdone | ⟨⟨e, he, -⟩, hfiles⟩⟩ :=
    hdisk.replaces.project_write h hpath text
  · exact ⟨result, s', hrun, hs', Or.inl hdone⟩
  · exact ⟨result, s', hrun, hs', Or.inr ⟨⟨e, he⟩, hfiles⟩⟩

end HoldsFile

/-! ### One registration -/

/-- The document that a file is read as. -/
def documentIn (path : Path) (node? : Option Node) : Except Failure Document :=
  match node?.bind Node.text? with
  | none => .error .disk
  | some text => (Document.parse text).mapError (.configFile path)

/-- How a registration comes out that starts in the state `s`. -/
inductive Outcome (path : Path) (factory target : ClassName) (place : P)
    (file? : σ → P → Option Node) (s : σ) : Except Failure Registration → σ → Prop
  | failed {e : Failure} {s' : σ} (files : file? s' = file? s) :
      Outcome path factory target place file? s (.error e) s'
  | kept {document document' : Document} (load : documentIn path (file? s place) = .ok document)
      (set : setFactory factory target document = (document', .ok .unchanged)) :
      Outcome path factory target place file? s (.ok ⟨path, .unchanged, false⟩) s
  | written {document document' : Document} {change : Change} {s' : σ}
      (load : documentIn path (file? s place) = .ok document)
      (set : setFactory factory target document = (document', .ok change))
      (changed : change ≠ .unchanged)
      (files : file? s' = Function.update (file? s) place (some (.file document'.render))) :
      Outcome path factory target place file? s (.ok ⟨path, change, false⟩) s'

omit [Disk (StateM σ)] [DecidableEq P] in
/-- A file is read as a document if its text is that of one. -/
theorem documentIn_eq_ok_iff {path : Path} {node? : Option Node} {document : Document} :
    documentIn path node? = .ok document ↔
      node? = some (.file document.source) ∧ document.created = false ∧ document.IsRead := by
  have hparse : ∀ text,
      (Document.parse text).mapError (Failure.configFile path) = .ok document ↔
        document.source = text ∧ document.created = false ∧ document.IsRead := by
    intro text
    rw [← Document.read_eq_ok_iff, ← Document.parse]
    cases Document.parse text with
    | error e => exact iff_of_false nofun nofun
    | ok found => exact ⟨fun h => congrArg Except.ok (Except.ok.inj h), fun h => h ▸ rfl⟩
  cases node? with
  | none => exact iff_of_false nofun nofun
  | some node =>
    cases node with
    | directory => exact iff_of_false nofun nofun
    | binary => exact iff_of_false nofun nofun
    | file text =>
      refine (hparse text).trans (and_congr_left fun _ => ?_)
      rw [Option.some.injEq, Node.file.injEq, eq_comm]

section
variable {project : Project} {settings : InjectorSettings} {path full : Path} {place : P}
  {file? : σ → P → Option Node} {Holds : σ → Prop} (hdisk : HoldsFile full place file? Holds) {s : σ}
include hdisk

/-- Loading the document reads the file. -/
theorem loadDocument_run (hpath : project.confine path = .ok full) (h : Holds s) :
    (loadDocument project path : Action (StateM σ) Document).run.run s =
      (documentIn path (file? s place), s) := by
  have hread := hdisk.project_read hpath h
  unfold loadDocument
  refine (run_bind (run_lift (hdisk.project_isPresent hpath h))).trans ?_
  unfold documentIn
  cases hnode : (file? s place).bind Node.text? with
  | none =>
    rw [hnode] at hread
    exact run_bind_error hread
  | some text =>
    rw [hnode] at hread
    exact (run_bind hread).trans rfl

/-- Opening the document reads the file, which is there. -/
theorem openDocument_run (settings : InjectorSettings) (hpath : project.confine path = .ok full)
    (h : Holds s) :
    (openDocument project settings path : Action (StateM σ) Document).run.run s =
      (documentIn path (file? s place), s) := by
  unfold openDocument
  exact (run_bind (run_lift (hdisk.project_isPresent hpath h))).trans
    (loadDocument_run hdisk hpath h)

/-- **A registration has an outcome.** -/
theorem register_outcome (factory target : ClassName)
    (hpath : project.confine (project.resolve settings.configFile) = .ok full) (h : Holds s) :
    ∃ result s',
      (register project settings factory target :
          Action (StateM σ) Registration).run.run s = (result, s') ∧ Holds s' ∧
      Outcome (project.resolve settings.configFile) factory target place file? s result s' := by
  have hopen := openDocument_run hdisk settings hpath h
  cases hload : documentIn (project.resolve settings.configFile) (file? s place) with
  | error e =>
    rw [hload] at hopen
    exact ⟨_, s, run_bind_error hopen, h, .failed rfl⟩
  | ok document =>
    rw [hload] at hopen
    have hcreated : (setFactory factory target document).1.created = false :=
      (Document.keptBySplice_created false).setEntry (documentIn_eq_ok_iff.1 hload).2.1 _ _ _
    cases hset : setFactory factory target document with
    | mk document' result =>
      rw [hset] at hcreated
      have hcreated : document'.created = false := hcreated
      cases result with
      | error e =>
        unfold register
        rw [run_bind hopen, hset]
        exact ⟨_, s, run_bind_error (run_ofExcept_error _ s), h, .failed rfl⟩
      | ok change =>
        let registration : Registration := ⟨project.resolve settings.configFile, change, false⟩
        rw [run_register registration hopen hset (by rw [hcreated])]
        by_cases hchange : change = .unchanged
        · subst hchange
          exact ⟨_, s, rfl, h, .kept hload hset⟩
        · have hwritten : registration.written = true := by
            simp [registration, Registration.written, hchange]
          obtain ⟨result, s', hrun, hs', ⟨rfl, hfiles⟩ | ⟨⟨e, rfl⟩, hfiles⟩⟩ :=
            hdisk.project_write hpath h document'.render
          · rw [hwritten, if_pos rfl, run_bind hrun]
            exact ⟨_, s', rfl, hs', .written hload hset hchange hfiles⟩
          · rw [hwritten, if_pos rfl, run_bind_error hrun]
            exact ⟨_, s', rfl, hs', .failed hfiles⟩

end

end

end Registration
end Scaffold
