/-
# Registering a factory once more

The aggregation file is there and holds any bytes. A registration that fails has changed no file.
One that succeeds leaves a file in which the class is bound to the factory and to nothing else; the
file has another text just in case the registration says so; and the same registration, made once
more, finds its work done (`register_settles`).
-/

import Scaffold.Proofs.Registration.FileAt

namespace Scaffold
namespace Registration

open Config (Change Document Literal)
open Config.Document (Settling)

/-! ### In a document -/

section
variable {factory target : ClassName} {document document' : Document} {change : Change}

/-- Binding a class to its factory settles the entry. -/
theorem setFactory_settling (hread : document.IsRead) (hfactory : factory.WellFormed)
    (htarget : target.WellFormed) (hnamed : Script.isRelativeClass factory.text = false)
    (h : setFactory factory target document = (document', .ok change)) :
    Settling document document' factoriesSection target.text factory.text change := by
  rw [setFactory, ofClass_eq hfactory, ofClass_eq htarget] at h
  have hkey : (Literal.classRef target.text).WellFormed := htarget
  have hvalue : (Literal.classRef factory.text).WellFormed := hfactory
  have hrelative : ¬(Literal.classRef factory.text).IsRelative := Bool.eq_false_iff.1 hnamed
  exact Document.setEntry_settling hread hkey hvalue hrelative h

/-- Where the entry is settled, binding the class changes nothing. -/
theorem setFactory_of_settled (hfactory : factory.WellFormed) (htarget : target.WellFormed)
    (h : document.Settled factoriesSection target.text factory.text) :
    setFactory factory target document = (document, .ok .unchanged) := by
  rw [setFactory, ofClass_eq hfactory, ofClass_eq htarget]
  exact Document.setEntry_of_settled h

end

/-! ### On a disk -/

section
variable {σ P : Type} [DecidableEq P] [Disk (StateM σ)] {project : Project}
  {settings : InjectorSettings} {factory target : ClassName} {full : Path} {place : P}
  {file? : σ → P → Option Node} {Holds : σ → Prop}

/-- A registration whose work is done writes nothing. -/
theorem register_of_settled (hdisk : HoldsFile full place file? Holds)
    (hinside : project.confine (project.resolve settings.configFile) = .ok full) {s : σ}
    (h : Holds s) {document : Document}
    (hload : documentIn (project.resolve settings.configFile) (file? s place) = .ok document)
    (hset : setFactory factory target document = (document, .ok .unchanged)) :
    (register project settings factory target : Action (StateM σ) Registration).run.run s =
      (.ok ⟨project.resolve settings.configFile, .unchanged, false⟩, s) := by
  have hopen := openDocument_run hdisk settings hinside h
  rw [hload] at hopen
  have hcreated := (documentIn_eq_ok_iff.1 hload).2.1
  exact run_register ⟨_, .unchanged, false⟩ hopen hset (by rw [hcreated])

/-- The document in a file, and the registration made once more, where the entry is settled. -/
theorem settled_twice (hdisk : HoldsFile full place file? Holds)
    (hinside : project.confine (project.resolve settings.configFile) = .ok full)
    (hfactory : factory.WellFormed) (htarget : target.WellFormed) {s : σ} (h : Holds s)
    {document : Document}
    (hload : documentIn (project.resolve settings.configFile) (file? s place) = .ok document)
    (hsettled : document.Settled factoriesSection target.text factory.text) :
    (∃ document found item,
      (loadDocument project (project.resolve settings.configFile) :
        Action (StateM σ) Document).run.run s = (.ok document, s) ∧
      document.sectionAt factoriesSection = .ok found ∧
      document.matching found.literal (.known target.text) = [item] ∧
      document.evaluate item.value = .known factory.text) ∧
    (register project settings factory target : Action (StateM σ) Registration).run.run s =
      (.ok ⟨project.resolve settings.configFile, .unchanged, false⟩, s) := by
  refine ⟨?_, register_of_settled hdisk hinside h hload
    (setFactory_of_settled hfactory htarget hsettled)⟩
  obtain ⟨m, hm, -, item, hitem, hvalue⟩ := hsettled
  have hrun := loadDocument_run hdisk hinside h
  rw [hload] at hrun
  exact ⟨document, ⟨factoriesSection, m⟩, item, hrun, Document.sectionAt_of_leads hm, hitem, hvalue⟩

/-- **Registering a factory settles it.**  The aggregation file is in the project (`hinside`) and is
there (`hdisk`, `h`), whatever it holds; a write may fail, and then no file has changed. If the
registration fails, no file has changed. If it succeeds, no other file has; the file is read as a
document whose section of factories has one key with the class as its value, bound to the factory;
its bytes are others than before just in case the registration has written it; and the registration
made once more reports no change and leaves the state of the disk, a count of its writes included,
as it is. -/
theorem register_settles
    (hinside : project.confine (project.resolve settings.configFile) = .ok full)
    (hdisk : HoldsFile full place file? Holds) {s : σ} (h : Holds s)
    (hfactory : factory.WellFormed) (htarget : target.WellFormed)
    (hnamed : Script.isRelativeClass factory.text = false) :
    ∃ result s',
      (register project settings factory target : Action (StateM σ) Registration).run.run s =
        (result, s') ∧
      (∀ e, result = .error e → file? s' = file? s) ∧
      ∀ registration, result = .ok registration →
        (∀ p, p ≠ place → file? s' p = file? s p) ∧
        (registration.written = true ↔ file? s' place ≠ file? s place) ∧
        (∃ document found item,
          (loadDocument project (project.resolve settings.configFile) :
            Action (StateM σ) Document).run.run s' = (.ok document, s') ∧
          document.sectionAt factoriesSection = .ok found ∧
          document.matching found.literal (.known target.text) = [item] ∧
          document.evaluate item.value = .known factory.text) ∧
        (register project settings factory target : Action (StateM σ) Registration).run.run s' =
          (.ok ⟨project.resolve settings.configFile, .unchanged, false⟩, s') := by
  obtain ⟨result, s', hrun, hs', houtcome⟩ :=
    register_outcome hdisk factory target hinside h
  refine ⟨result, s', hrun, ?_⟩
  cases houtcome with
  | failed files => exact ⟨fun _ _ => files, nofun⟩
  | @kept document document' load set =>
    obtain ⟨-, hcreated, hread⟩ := documentIn_eq_ok_iff.1 load
    have hsettling := setFactory_settling hread hfactory htarget hnamed set
    obtain rfl := hsettling.unchanged rfl
    refine ⟨nofun, fun registration hresult => ?_⟩
    obtain rfl := Except.ok.inj hresult
    refine ⟨fun _ _ => rfl, iff_of_false nofun fun hne => hne rfl, ?_⟩
    exact settled_twice hdisk hinside hfactory htarget hs' load hsettling.settled
  | @written document document' change _ load set changed files =>
    obtain ⟨hfile, hcreated, hread⟩ := documentIn_eq_ok_iff.1 load
    have hsettling := setFactory_settling hread hfactory htarget hnamed set
    have hfile' : file? s' place = some (.file document'.source) := by
      rw [files, Function.update_self]
      rfl
    have hload : documentIn (project.resolve settings.configFile) (file? s' place) =
        .ok document' :=
      documentIn_eq_ok_iff.2 ⟨hfile', hsettling.created_eq.trans hcreated, hsettling.isRead⟩
    refine ⟨nofun, fun registration hresult => ?_⟩
    obtain rfl := Except.ok.inj hresult
    refine ⟨fun p hp => ?_, iff_of_true ?_ ?_, ?_⟩
    · rw [files, Function.update_of_ne hp]
    · simp [Registration.written, changed]
    · rw [hfile', hfile]
      intro hsame
      exact hsettling.source_ne hread changed (Node.file.inj (Option.some.inj hsame))
    · exact settled_twice hdisk hinside hfactory htarget hs' hload hsettling.settled

end

/-- In a file with a namespace and an import, a class gets another factory, whose name the import
would capture. -/
theorem register_settles_on_tree :
    let before := ("<?php\nnamespace A;\nuse B\\Pong;\n" ++
      "return ['dependencies' => ['factories' => [").toList
    let tree : FileTree := ⟨[([['p']], .directory),
      ([['p'], ['c']], .file (before ++ "Ping::class => 1]]];\n".toList))], []⟩
    let run := (register ⟨"/p".toList⟩ ⟨"c".toList, false⟩ ⟨"Pong".toList⟩ ⟨"A\\Ping".toList⟩ :
      Action (StateM FileTree) Registration).run.run
    ∃ tree', run tree = (.ok ⟨"/p/c".toList, .replaced, false⟩, tree') ∧
      tree'.node? [['p'], ['c']] =
        some (.file (before ++ "Ping::class => \\Pong::class]]];\n".toList)) ∧
      run tree' = (.ok ⟨"/p/c".toList, .unchanged, false⟩, tree') := by
  intro before tree run
  let settings : InjectorSettings := ⟨"c".toList, false⟩
  have hinside : Project.confine ⟨"/p".toList⟩ (Project.resolve ⟨"/p".toList⟩ settings.configFile) =
      .ok "/p/c".toList := Script.eq_ok_of_toOption (by decide +kernel)
  have hfile : FileTree.HasFile "/p/c".toList [['p'], ['c']] tree :=
    ⟨Script.eq_ok_of_toOption (by decide +kernel), by decide +kernel⟩
  have hfactory : ClassName.WellFormed ⟨"Pong".toList⟩ := show ∀ part ∈ _, _ by decide +kernel
  have htarget : ClassName.WellFormed ⟨"A\\Ping".toList⟩ := show ∀ part ∈ _, _ by decide +kernel
  have hnamed : Script.isRelativeClass "Pong".toList = false := by decide +kernel
  obtain ⟨result, tree', hrun, -, hdone⟩ := register_settles hinside (FileTree.holdsFile _ _) hfile
    hfactory htarget hnamed
  have hfound : (run tree).1.toOption = some ⟨"/p/c".toList, .replaced, false⟩ ∧
      (run tree).2.node? [['p'], ['c']] =
        some (.file (before ++ "Ping::class => \\Pong::class]]];\n".toList)) := by
    decide +kernel
  have hrun : run tree = (result, tree') := hrun
  rw [hrun] at hfound
  obtain rfl := Script.eq_ok_of_toOption hfound.1
  exact ⟨tree', hrun, hfound.2, (hdone _ rfl).2.2.2⟩

end Registration
end Scaffold
