/-
# Creating a factory from the command line

The command line does not leave the whole work to the library. It reads the name of the class before
it loads the project, the library behind that, and it takes the steps one by one to print what it
does between them. For the name of a class the two do the same in every monad: a run has printed the
lines of the factory that the library has created, or it has the failure of the library
(`result_runCreateFactory`). So both leave one and the same disk, and where the disk records what is
put on it, the last line tells whether the aggregation file was (`createFactory_agrees`). A name
that is refused is refused by both before anything is written.
-/

import Scaffold.CommandLine.Run
import Scaffold.Proofs.Project.Recorded

namespace Scaffold

open Registration (run_bind run_bind_error run_ofExcept run_ofExcept_error)

namespace CommandLine

/-! ### In every monad -/

/-- All that is printed about a factory of a class that was created. -/
def createdLines (target : ClassName) (created : CreatedFactory) : List Text :=
  creatingFactory target ::
    match created.registration with
    | none => factoryLines created.factory
    | some registration =>
      registeringFactory :: factoryLines created.factory ++ [registrationLine registration]

/-- What a run has led to: all that it has printed, or why it failed. -/
def Outcome.result (outcome : Outcome) : Except Failure (List Text) :=
  match outcome.failure with
  | none => .ok outcome.lines
  | some e => .error e

/-- An outcome without a failure has the lines of its result. -/
theorem Outcome.lines_of_result (outcome : Outcome) {lines : List Text}
    (h : outcome.result = .ok lines) : outcome.lines = lines := by
  unfold result at h
  split at h
  · exact Except.ok.inj h
  · cases h

/-- **What the command line prints is what the library creates**, for the name of a class. -/
theorem result_runCreateFactory {m : Type → Type} [Monad m] [LawfulMonad m] [Disk m] (root : Path)
    (request : FactoryRequest) {target : ClassName}
    (hparse : ClassName.parse request.target = .ok target) :
    Outcome.result <$> (runCreateFactory root request : m Outcome) =
      Except.map (createdLines target) <$>
        (Factory.createAt root request : Action m CreatedFactory).run := by
  unfold runCreateFactory prepare Factory.createAt Factory.create
  rw [hparse]
  -- reading the name of a class is no step, so it does not matter when it is read
  have hok : (Action.ofExcept (.ok target) : Action m ClassName) = pure target := rfl
  simp only [hok, pure_bind]
  rw [ExceptT.run_bind, ExceptT.run_bind, bind_assoc, map_bind, map_bind]
  refine bind_congr fun loaded => ?_
  cases loaded with
  | error e =>
    simp only [pure_bind, map_pure]
    rfl
  | ok context =>
    simp only [ExceptT.run_pure, pure_bind]
    rw [ExceptT.run_bind, map_bind, map_bind]
    refine bind_congr fun generated => ?_
    cases generated with
    | error e =>
      simp only [map_pure]
      rfl
    | ok factory =>
      cases request.noRegister with
      | true =>
        simp only [if_true, map_pure, ExceptT.run_pure]
        rfl
      | false =>
        simp only [Bool.false_eq_true, if_false, map_bind, ExceptT.run_bind]
        refine bind_congr fun registered => ?_
        cases registered with
        | error e =>
          simp only [map_pure]
          rfl
        | ok registration =>
          simp only [map_pure, ExceptT.run_pure]
          rfl

/-! ### What the lines say -/

/-- One of the lines starts with the words. -/
def Prints (lines : List Text) (words : String) : Prop := ∃ line ∈ lines, words.toList <+: line

/-- A line that starts otherwise does not start with the words. -/
theorem not_prefix_append {words start : Text} (h : ¬words <+: start ∧ ¬start <+: words)
    (rest : Text) : ¬words <+: start ++ rest := fun hwords =>
  (List.prefix_or_prefix_of_prefix hwords (List.prefix_append start rest)).elim h.1 h.2

/-- The words in which a line speaks of a registration. -/
def registrationWords : List String := ["- Registered factory", "- Factory was already registered"]

/-- The lines about the factory itself say nothing of a registration. -/
theorem not_prefix_factoryLines {words : String} (hwords : words ∈ registrationWords)
    (target : ClassName) (factory : Factory) :
    ∀ line ∈ creatingFactory target :: registeringFactory :: factoryLines factory,
      ¬words.toList <+: line := by
  have hstarts : ∀ words ∈ registrationWords,
      ∀ start ∈ ["Creating factory for class ", "Registering factory with container", "Success!",
        "- Created factory class "],
        ¬words.toList <+: start.toList ∧ ¬start.toList <+: words.toList := by
    decide +kernel
  have hline (start : String) (rest : Text) (hstart) :=
    not_prefix_append (hstarts words hwords start hstart) rest
  unfold creatingFactory registeringFactory factoryLines
  simp only [List.forall_mem_cons, List.append_assoc]
  refine ⟨hline "Creating factory for class " _ ?_, ?_, ?_, hline "- Created factory class " _ ?_,
    fun _ h => absurd h List.not_mem_nil⟩
  · simp
  · exact (hstarts words hwords "Registering factory with container" (by simp)).1
  · exact (hstarts words hwords "Success!" (by simp)).1
  · simp

/-- What is said of a registration is said by its line. -/
theorem prints_createdLines_iff {words : String} (hwords : words ∈ registrationWords)
    (target : ClassName) (created : CreatedFactory) :
    Prints (createdLines target created) words ↔
      ∃ registration, created.registration = some registration ∧
        words.toList <+: registrationLine registration := by
  obtain ⟨factory, registration⟩ := created
  have hnone := not_prefix_factoryLines hwords target factory
  simp only [List.forall_mem_cons] at hnone
  obtain ⟨hcreating, hregistering, hfactory⟩ := hnone
  cases registration with
  | none =>
    refine iff_of_false ?_ nofun
    rintro ⟨line, hline, hsays⟩
    rcases List.mem_cons.1 hline with rfl | hline
    · exact hcreating hsays
    · exact hfactory line hline hsays
  | some registration =>
    constructor
    · rintro ⟨line, hline, hsays⟩
      rcases List.mem_cons.1 hline with rfl | hline
      · exact absurd hsays hcreating
      · rcases List.mem_cons.1 hline with rfl | hline
        · exact absurd hsays hregistering
        · rcases List.mem_append.1 hline with hline | hline
          · exact absurd hsays (hfactory line hline)
          · exact ⟨registration, rfl, List.mem_singleton.1 hline ▸ hsays⟩
    · rintro ⟨_, ⟨⟩, hsays⟩
      exact ⟨_, by simp [createdLines], hsays⟩

/-- The line of a registration tells whether the aggregation file was written. -/
theorem prefix_registrationLine_iff (registration : Registration) :
    ("- Registered factory".toList <+: registrationLine registration ↔
        registration.written = true) ∧
      ("- Factory was already registered".toList <+: registrationLine registration ↔
        registration.written = false) := by
  unfold registrationLine
  cases registration.written with
  | true =>
    refine ⟨iff_of_true ?_ rfl, iff_of_false (not_prefix_append (by decide +kernel) _) nofun⟩
    exact List.IsPrefix.trans (by decide +kernel) (List.prefix_append _ _)
  | false =>
    refine ⟨iff_of_false (not_prefix_append (by decide +kernel) _) nofun, iff_of_true ?_ rfl⟩
    exact List.IsPrefix.trans (by decide +kernel) (List.prefix_append _ _)

/-- The lines say that a factory was registered just in case a registration was written. -/
theorem prints_registered_iff (target : ClassName) (created : CreatedFactory) :
    Prints (createdLines target created) "- Registered factory" ↔
      ∃ registration, created.registration = some registration ∧ registration.written = true :=
  (prints_createdLines_iff (by decide) target created).trans
    (exists_congr fun registration => and_congr_right fun _ =>
      (prefix_registrationLine_iff registration).1)

/-- The lines say that a factory had been registered just in case a registration was not written. -/
theorem prints_already_iff (target : ClassName) (created : CreatedFactory) :
    Prints (createdLines target created) "- Factory was already registered" ↔
      ∃ registration, created.registration = some registration ∧ registration.written = false :=
  (prints_createdLines_iff (by decide) target created).trans
    (exists_congr fun registration => and_congr_right fun _ =>
      (prefix_registrationLine_iff registration).2)

/-! ### On a disk that records -/

/-- What is printed where a factory was created tells what was done to the aggregation file:
`before` and `after` are what had been put on the disk before the run and behind it. -/
structure Reported (context : Context) (request : FactoryRequest) (created : CreatedFactory)
    (before after : List (Path × Text)) (lines : List Text) : Prop where
  lines_eq : lines = createdLines created.factory.target created
  registered_iff : Prints lines "- Registered factory" ↔ ∃ text, after = before ++
    [context.project.entry created.factory.path created.factory.text,
      context.project.entry (context.project.resolve context.settings.injector.configFile) text]
  already_iff : Prints lines "- Factory was already registered" ↔ request.noRegister = false ∧
    after = before ++ [context.project.entry created.factory.path created.factory.text]
  silent : request.noRegister = true →
    ¬Prints lines "- Registered factory" ∧ ¬Prints lines "- Factory was already registered"

/-- What a command has put on the disk is what its lines report. -/
theorem Reported.of_puts {context : Context} {request : FactoryRequest} {created : CreatedFactory}
    {before after : List (Path × Text)}
    (h : Factory.Puts context request before created after) :
    Reported context request created before after
      (createdLines created.factory.target created) := by
  have hlonger {first second : Path × Text} : before ++ [first] ≠ before ++ [first, second] := by
    simp
  refine ⟨rfl, ?_, ?_, fun hasked => ?_⟩
  · rw [prints_registered_iff]
    cases h with
    | alone => exact iff_of_false nofun fun ⟨_, hputs⟩ => hlonger hputs
    | kept _ _ unwritten =>
      refine iff_of_false ?_ fun ⟨_, hputs⟩ => hlonger hputs
      rintro ⟨_, ⟨⟩, written⟩
      exact Bool.false_ne_true (unwritten.symm.trans written)
    | @aggregated factory registration text asked path_eq written =>
      exact iff_of_true ⟨registration, rfl, written⟩ ⟨text, by rw [path_eq]⟩
  · rw [prints_already_iff]
    cases h with
    | alone asked =>
      exact iff_of_false nofun fun hkept => Bool.false_ne_true (hkept.1.symm.trans asked)
    | @kept factory registration asked _ unwritten =>
      exact iff_of_true ⟨registration, rfl, unwritten⟩ ⟨asked, rfl⟩
    | aggregated asked _ written =>
      refine iff_of_false ?_ fun hkept => hlonger hkept.2.symm
      rintro ⟨_, ⟨⟩, unwritten⟩
      exact Bool.false_ne_true (unwritten.symm.trans written)
  · rw [prints_registered_iff, prints_already_iff]
    cases h with
    | alone => exact ⟨nofun, nofun⟩
    | kept asked => exact absurd (asked.symm.trans hasked) Bool.false_ne_true
    | aggregated asked => exact absurd (asked.symm.trans hasked) Bool.false_ne_true

section
variable {σ : Type} [Disk (StateM σ)] {puts : σ → List (Path × Text)}

/-- A name that is refused is refused by the command line and by the library, and nothing has been
written. -/
theorem createFactory_refused {s : σ} (h : Disk.Steady s) (root : Path) {request : FactoryRequest}
    {e : Failure} (hparse : ClassName.parse request.target = .error e) :
    (runCreateFactory root request : StateM σ Outcome).run s = (.failed [] e, s) ∧ ∃ e',
      (Factory.createAt root request : Action (StateM σ) CreatedFactory).run.run s =
        (.error e', s) := by
  refine ⟨?_, ?_⟩
  · unfold runCreateFactory prepare
    rw [hparse]
    rfl
  · obtain ⟨loaded, hload⟩ := h.load ⟨root⟩
    unfold Factory.createAt
    cases loaded with
    | error e' => exact ⟨e', run_bind_error hload⟩
    | ok context =>
      rw [run_bind hload, Factory.create, hparse]
      exact ⟨e, run_bind_error (run_ofExcept_error e s)⟩

/-- **The command line and the library do the same work.**  On any disk that records what is put on
it (`hdisk`), from any state, the two create a factory of a class with the same end: the disk is
left in the same state, and the command line has the failure of the library or has printed the lines
of what the library has created. These say "Registered factory" just in case the aggregation file
was put behind the factory, "already registered" just in case it was to be registered and nothing
was put behind the factory, and neither where it was not to be registered. A name that is refused
makes both fail, and the disk is as it was. -/
theorem createFactory_agrees (hdisk : Disk.Records puts) (root : Path) (request : FactoryRequest)
    (s : σ) : ∃ outcome result s₁ s₂,
      (runCreateFactory root request : StateM σ Outcome).run s = (outcome, s₁) ∧
      (Factory.createAt root request : Action (StateM σ) CreatedFactory).run.run s =
        (result, s₂) ∧
      (∀ e, ClassName.parse request.target = .error e →
        outcome.failure = some e ∧ (∃ e', result = .error e') ∧ s₁ = s ∧ s₂ = s) ∧
      ∀ target, ClassName.parse request.target = .ok target →
        s₁ = s₂ ∧ outcome.result = result.map (createdLines target) ∧
        ∀ created, result = .ok created → created.factory.target = target ∧ ∃ context,
          (Context.load ⟨root⟩ : Action (StateM σ) Context).run.run s = (.ok context, s) ∧
          Reported context request created (puts s) (puts s₂) outcome.lines := by
  cases hparse : ClassName.parse request.target with
  | error e =>
    obtain ⟨hrun, e', hcreate⟩ := createFactory_refused (hdisk.steady s) root hparse
    refine ⟨_, _, s, s, hrun, hcreate, ?_, nofun⟩
    rintro _ ⟨⟩
    exact ⟨rfl, ⟨e', rfl⟩, rfl, rfl⟩
  | ok target =>
    cases hrun : (runCreateFactory root request : StateM σ Outcome).run s with
    | mk outcome s₁ =>
      cases hcreate :
          (Factory.createAt root request : Action (StateM σ) CreatedFactory).run.run s with
      | mk result s₂ =>
        have hsame := congrArg (·.run s)
          (result_runCreateFactory (m := StateM σ) root request hparse)
        simp only [StateT.run_map, hrun, hcreate] at hsame
        obtain ⟨hresult, rfl⟩ := Prod.mk.inj hsame
        refine ⟨outcome, result, s₁, s₁, rfl, rfl, nofun, ?_⟩
        rintro _ ⟨⟩
        refine ⟨rfl, hresult, ?_⟩
        rintro created rfl
        obtain ⟨htarget, context, hload, hputs⟩ := hdisk.createAt s hparse hcreate
        refine ⟨htarget, context, hload, ?_⟩
        rw [outcome.lines_of_result hresult, ← htarget]
        exact .of_puts hputs

end

/-- A factory in a project without an aggregation file, on a file tree. -/
theorem createFactory_agrees_on_tree :
    let tree : FileTree := ⟨[([['p']], .directory), ([['p'], "composer.json".toList],
      .file "\x7b\"autoload\":\x7b\"psr-4\":\x7b\"A\\\\\":\"src\"\x7d\x7d\x7d".toList)], []⟩
    ∃ outcome result s', (runCreateFactory "/p".toList ⟨"A\\B".toList, false, false⟩ :
        StateM (Recorded FileTree) Outcome).run ⟨tree, []⟩ = (outcome, s') ∧
      (Factory.createAt "/p".toList ⟨"A\\B".toList, false, false⟩ :
        Action (StateM (Recorded FileTree)) CreatedFactory).run.run ⟨tree, []⟩ = (result, s') ∧
      Prints outcome.lines "- Registered factory" ∧
      s'.puts.map Prod.fst = ["/p/src/BFactory.php".toList,
        "/p/config/autoload/dependencies.global.php".toList] := by
  intro tree
  let request : FactoryRequest := ⟨"A\\B".toList, false, false⟩
  obtain ⟨outcome, result, s₁, s₂, hrun, hcreate, -, hagrees⟩ := createFactory_agrees
    (Recorded.records fun tree : FileTree => ⟨fun _ => ⟨_, rfl⟩, fun _ => ⟨_, rfl⟩⟩)
    "/p".toList request ⟨tree, []⟩
  obtain ⟨rfl, -, hreported⟩ :=
    hagrees ⟨"A\\B".toList⟩ (Script.eq_ok_of_toOption (by decide +kernel))
  have hlibrary : let run := (Factory.createAt "/p".toList request :
      Action (StateM (Recorded FileTree)) CreatedFactory).run.run ⟨tree, []⟩
      (run.1.toOption.bind (·.registration)).map Registration.written = some true ∧
        run.2.puts.map Prod.fst =
          ["/p/src/BFactory.php".toList, "/p/config/autoload/dependencies.global.php".toList] := by
    decide +kernel
  rw [hcreate] at hlibrary
  obtain ⟨hwritten, hputs⟩ := hlibrary
  cases result with
  | error e => cases hwritten
  | ok created =>
    obtain ⟨registration, hregistration, hwritten⟩ := Option.map_eq_some_iff.1 hwritten
    obtain ⟨-, context, -, hlines⟩ := hreported created rfl
    refine ⟨outcome, .ok created, s₁, hrun, hcreate, ?_, hputs⟩
    rw [hlines.lines_eq, prints_registered_iff]
    exact ⟨registration, hregistration, hwritten⟩

end CommandLine
end Scaffold
