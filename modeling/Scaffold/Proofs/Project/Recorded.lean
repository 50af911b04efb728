/-
# What creating a factory puts on a disk

A disk that keeps a record of what is put on it (`Disk.Records`); any disk can be given one
(`Recorded.records`). Where a factory has been created, the file of the factory has been put first,
and behind it the aggregation file, if the registration says so, and nothing else
(`Disk.Records.createAt`). Unlike what stands in the files, the record tells a file that was written
with the text that it had from one that was left alone.
-/

import Scaffold.Proofs.Project.Steady

namespace Scaffold

open Registration (of_run run_bind run_bind_error run_lift run_ofExcept run_ofExcept_error)

/-- Asking and reading leave the disk as it is, and `puts s` lists what has been put on it up to the
state `s`: the paths and the texts, in order. -/
structure Disk.Records {σ : Type} [Disk (StateM σ)] (puts : σ → List (Path × Text)) : Prop where
  steady (s : σ) : Disk.Steady s
  createDirectories (s : σ) (directory : Path) : ∃ done s',
    (Disk.createDirectories directory : StateM σ Bool).run s = (done, s') ∧ puts s' = puts s
  replace (s : σ) (full : Path) (text : Text) : ∃ done s',
    (Disk.replace full text : StateM σ Bool).run s = (done, s') ∧
      puts s' = if done then puts s ++ [(full, text)] else puts s

/-- A disk with the list of what has been put on it. -/
structure Recorded (σ : Type) where
  disk : σ
  puts : List (Path × Text)

namespace Recorded

variable {σ : Type}

/-- What is done with the disk alone. -/
def onDisk {α : Type} (x : StateM σ α) : StateM (Recorded σ) α :=
  modifyGet fun s =>
    let (a, disk) := x.run s.disk
    (a, { s with disk })

instance [Disk (StateM σ)] : Disk (StateM (Recorded σ)) where
  workingDirectory := onDisk Disk.workingDirectory
  isPresent path := onDisk (Disk.isPresent path)
  isDirectory path := onDisk (Disk.isDirectory path)
  read? path := onDisk (Disk.read? path)
  createDirectories path := onDisk (Disk.createDirectories path)
  replace path text := do
    let done ← onDisk (Disk.replace path text)
    if done then modify fun s => { s with puts := s.puts ++ [(path, text)] }
    return done

/-- What is done on the disk is recorded as done. -/
theorem run_onDisk {α : Type} {x : StateM σ α} {a : α} {s : Recorded σ} {disk : σ}
    (h : x.run s.disk = (a, disk)) : (onDisk x).run s = (a, { s with disk }) :=
  congrArg (fun run : α × σ => (run.1, (⟨run.2, s.puts⟩ : Recorded σ))) h

/-- Any disk that asking and reading leave as it is can be recorded. -/
theorem records [Disk (StateM σ)] (hsteady : ∀ disk : σ, Disk.Steady disk) :
    Disk.Records (puts : Recorded σ → List (Path × Text)) where
  steady s :=
    { isPresent := fun full => by
        obtain ⟨present, hpresent⟩ := (hsteady s.disk).isPresent full
        exact ⟨present, run_onDisk hpresent⟩
      read := fun full => by
        obtain ⟨found, hread⟩ := (hsteady s.disk).read full
        exact ⟨found, run_onDisk hread⟩ }
  createDirectories s directory := ⟨_, _, rfl, rfl⟩
  replace s full text := by
    cases hreplace : (Disk.replace full text : StateM σ Bool).run s.disk with
    | mk done disk =>
      have hrun : (Disk.replace full text : StateM (Recorded σ) Bool).run s =
          (do
            if done then modify fun s => { s with puts := s.puts ++ [(full, text)] }
            return done : StateM (Recorded σ) Bool).run { s with disk } := by
        refine (StateT.run_bind _ _ _).trans ?_
        rw [run_onDisk hreplace]
        rfl
      rw [hrun]
      cases done with
      | false => exact ⟨false, _, rfl, rfl⟩
      | true => exact ⟨true, _, rfl, rfl⟩

end Recorded

/-- The path at which a project puts a text, and the text. -/
def Project.entry (project : Project) (path : Path) (text : Text) : Path × Text :=
  (project.resolve path, text)

/-- What has been put on the disk behind `before` where a factory was created. -/
inductive Factory.Puts (context : Context) (request : FactoryRequest)
    (before : List (Path × Text)) : CreatedFactory → List (Path × Text) → Prop
  | alone {factory : Factory} (asked : request.noRegister = true) :
      Puts context request before ⟨factory, none⟩
        (before ++ [context.project.entry factory.path factory.text])
  | kept {factory : Factory} {registration : Registration} (asked : request.noRegister = false)
      (path_eq : registration.path = context.project.resolve context.settings.injector.configFile)
      (unwritten : registration.written = false) :
      Puts context request before ⟨factory, some registration⟩
        (before ++ [context.project.entry factory.path factory.text])
  | aggregated {factory : Factory} {registration : Registration} {text : Text}
      (asked : request.noRegister = false)
      (path_eq : registration.path = context.project.resolve context.settings.injector.configFile)
      (written : registration.written = true) :
      Puts context request before ⟨factory, some registration⟩
        (before ++ [context.project.entry factory.path factory.text,
          context.project.entry registration.path text])

section
variable {σ : Type} [Disk (StateM σ)]

namespace Disk.Records

variable {puts : σ → List (Path × Text)} (hdisk : Disk.Records puts) (s : σ)
include hdisk

/-- A write is recorded, or it fails and nothing is. -/
theorem project_write (project : Project) (path : Path) (text : Text) : ∃ result s',
    (project.write path text : Action (StateM σ) Unit).run.run s = (result, s') ∧
      (result = .ok () ∧ puts s' = puts s ++ [project.entry path text] ∨
        (∃ e, result = .error e) ∧ puts s' = puts s) := by
  have hcreated {directory : Path} {s s' : σ} {made : Bool}
      (create : (Disk.createDirectories directory : StateM σ Bool).run s = (made, s')) :
      puts s' = puts s :=
    (of_run (hdisk.createDirectories s directory) create :)
  have hreplaced {full : Path} {s s' : σ} {done : Bool}
      (replace : (Disk.replace full text : StateM σ Bool).run s = (done, s')) :
      puts s' = if done then puts s ++ [(full, text)] else puts s :=
    (of_run (hdisk.replace s full text) replace :)
  obtain ⟨result, s', hrun, hwrite⟩ := Registration.exists_writeRun project path text s
  refine ⟨result, s', hrun, ?_⟩
  cases hwrite with
  | refused => exact .inr ⟨⟨_, rfl⟩, rfl⟩
  | nowhere => exact .inr ⟨⟨_, rfl⟩, rfl⟩
  | uncreated _ _ create => exact .inr ⟨⟨_, rfl⟩, hcreated create⟩
  | unput _ _ create replace => exact .inr ⟨⟨_, rfl⟩, (hreplaced replace).trans (hcreated create)⟩
  | put confine _ create replace =>
    obtain ⟨-, rfl⟩ := Project.confine_eq_ok_iff.1 confine
    exact .inl ⟨rfl, (hreplaced replace).trans (by rw [hcreated create]; rfl)⟩

/-- A factory that is created has been put in its place. -/
theorem generateIn (context : Context) (target : ClassName) (overwrite : Bool) : ∃ result s',
    (Factory.generateIn context target overwrite : Action (StateM σ) Factory).run.run s =
        (result, s') ∧
      ∀ factory, result = .ok factory → factory.target = target ∧
        puts s' = puts s ++ [context.project.entry factory.path factory.text] := by
  rcases (hdisk.steady s).generate context.project context.autoload context.settings.suffix target
    overwrite with ⟨e, -, hrun⟩ | ⟨factory, htarget, -, hrun⟩
  · exact ⟨_, s, hrun, nofun⟩
  · obtain ⟨result, s', hwrite, ⟨rfl, hputs⟩ | ⟨⟨e, rfl⟩, -⟩⟩ :=
      hdisk.project_write s context.project factory.path factory.text
    · refine ⟨_, s', hrun.trans (run_bind hwrite), ?_⟩
      rintro _ ⟨⟩
      exact ⟨htarget, hputs⟩
    · exact ⟨_, s', hrun.trans (run_bind_error hwrite), nofun⟩

/-- A registration that is done has put the aggregation file, if it says so, and nothing else. -/
theorem registerIn (context : Context) (factory : Factory) : ∃ result s',
    (Factory.registerIn context factory : Action (StateM σ) Registration).run.run s =
        (result, s') ∧
      ∀ registration, result = .ok registration →
        registration.path = context.project.resolve context.settings.injector.configFile ∧
        (registration.written = false ∧ puts s' = puts s ∨
          registration.written = true ∧
            ∃ text, puts s' = puts s ++ [context.project.entry registration.path text]) := by
  rcases (hdisk.steady s).register context.project context.settings.injector factory.name
    factory.target with ⟨e, hrun⟩ | ⟨registration, hpath, ⟨hw, hrun⟩ | ⟨hw, text, hrun⟩⟩
  · exact ⟨_, s, Factory.run_registerIn hrun, nofun⟩
  · refine ⟨_, s, Factory.run_registerIn hrun, ?_⟩
    rintro _ ⟨⟩
    exact ⟨hpath, .inl ⟨hw, rfl⟩⟩
  · obtain ⟨result, s', hwrite, ⟨rfl, hputs⟩ | ⟨⟨e, rfl⟩, -⟩⟩ :=
      hdisk.project_write s context.project registration.path text
    · refine ⟨_, s', Factory.run_registerIn (hrun.trans (run_bind hwrite)), ?_⟩
      rintro _ ⟨⟩
      exact ⟨hpath, .inr ⟨hw, text, hputs⟩⟩
    · exact ⟨_, s', Factory.run_registerIn (hrun.trans (run_bind_error hwrite)), nofun⟩

/-- A factory that the library has created, in a project that was loaded from the disk as it was. -/
theorem createAt {root : Path} {request : FactoryRequest} {target : ClassName}
    {created : CreatedFactory} {s' : σ} (hparse : ClassName.parse request.target = .ok target)
    (h : (Factory.createAt root request : Action (StateM σ) CreatedFactory).run.run s =
      (.ok created, s')) :
    created.factory.target = target ∧ ∃ context,
      (Context.load ⟨root⟩ : Action (StateM σ) Context).run.run s = (.ok context, s) ∧
        Factory.Puts context request (puts s) created (puts s') := by
  obtain ⟨loaded, hload⟩ := (hdisk.steady s).load ⟨root⟩
  unfold Factory.createAt at h
  cases loaded with
  | error e =>
    rw [run_bind_error hload] at h
    cases h
  | ok context =>
    obtain ⟨generated, s₁, hgenerate, hfactory⟩ := hdisk.generateIn s context target
      request.overwrite
    rw [run_bind hload, Factory.create, hparse, run_bind (run_ofExcept target s)] at h
    cases generated with
    | error e =>
      rw [run_bind_error hgenerate] at h
      cases h
    | ok factory =>
      obtain ⟨htarget, hputs₁⟩ := hfactory factory rfl
      rw [run_bind hgenerate] at h
      cases hasked : request.noRegister with
      | true =>
        rw [hasked] at h
        cases h
        exact ⟨htarget, context, hload, hputs₁ ▸ .alone hasked⟩
      | false =>
        obtain ⟨registered, s₂, hregister, hregistration⟩ := hdisk.registerIn s₁ context factory
        rw [hasked, if_neg Bool.false_ne_true] at h
        cases registered with
        | error e =>
          rw [run_bind_error hregister] at h
          cases h
        | ok registration =>
          rw [run_bind hregister] at h
          cases h
          refine ⟨htarget, context, hload, ?_⟩
          obtain ⟨hpath, ⟨hwritten, hputs₂⟩ | ⟨hwritten, text, hputs₂⟩⟩ := hregistration _ rfl
          · rw [hputs₂, hputs₁]
            exact .kept hasked hpath hwritten
          · rw [hputs₂, hputs₁, List.append_assoc]
            exact .aggregated hasked hpath hwritten

end Disk.Records
end

end Scaffold
