/-
# One registration

A registration reads the aggregation file, binds a class in it and writes it back if its text has
changed. On a disk that keeps the file (`KeepsFile`) it does not fail: it reports the change that
the calls before it make expected, and leaves a file that reflects one call more (`register_step`).
-/

import Scaffold.Proofs.Document.Blocked
import Scaffold.Proofs.Registration.Calls
import Scaffold.Registration

namespace Scaffold
namespace Registration

open Config (Change Document Literal)
open Config.Document (Blocked Leads)

/-- The names of the call are accepted as class names and stand for one class everywhere. -/
structure Call.Accepted (call : Call) : Prop where
  factory : ∃ written, ClassName.parse written = .ok call.factory
  target : ∃ written, ClassName.parse written = .ok call.target
  factory_named : Script.isRelativeClass call.factory.text = false
  target_named : Script.isRelativeClass call.target.text = false

/-! ### In a document -/

/-- The document has the section of the factories, and the section reflects the calls. -/
def Registered (document : Document) (calls : List Call) : Prop :=
  ∃ m, Leads document document.file.root factoriesSection.keys m ∧
    (document.keyValues m).Nodup ∧ Reflects calls (document.bindings m)

/-- The literal of a class name is a reference to the class. -/
theorem ofClass_eq {name : ClassName} (h : name.WellFormed) :
    Literal.ofClass name.text = .classRef name.text := by
  obtain ⟨c, more, htext, hc, -⟩ := h.chars
  rw [Literal.ofClass, htext, List.dropWhile_cons_of_neg (by simpa using hc)]

/-- A class name that is read, and no keyword, can be represented. -/
theorem ofClass_representable {written : Text} {name : ClassName}
    (h : ClassName.parse written = .ok name) (hn : Script.isRelativeClass name.text = false) :
    (Literal.ofClass name.text).Representable := by
  rw [ofClass_eq (ClassName.wellFormed_of_parse h)]
  exact ⟨⟨written, h⟩, hn⟩

/-- Nothing matches in the empty document. -/
theorem matching_empty (wanted : Script.Value) :
    Document.empty.matching Document.empty.file.root wanted = [] :=
  Document.matching_of_empty rfl wanted

/-- Nothing is in the way in the empty document. -/
theorem not_blocked_of_empty (e : Config.DocumentError) :
    ¬Blocked .empty Document.empty.file.root [] factoriesSection.keys e := by
  intro h
  cases h with
  | ambiguous several =>
    rw [matching_empty] at several
    exact absurd several (by decide)
  | malformed unique => rw [matching_empty] at unique; cases unique
  | notAnArray unique => rw [matching_empty] at unique; cases unique
  | deeper unique => rw [matching_empty] at unique; cases unique

/-- The empty document has no section of factories. -/
theorem not_leads_of_empty (m : Script.ArrayLiteral) :
    ¬Leads .empty Document.empty.file.root factoriesSection.keys m := by
  intro h
  cases h with
  | step unique => rw [matching_empty] at unique; cases unique

/-- Where factories are registered, the section is not blocked. -/
theorem Registered.not_blocked {document : Document} {calls : List Call}
    (h : Registered document calls) (e : Config.DocumentError) :
    ¬Blocked document document.file.root [] factoriesSection.keys e := by
  obtain ⟨m, hm, hnodup, -⟩ := h
  intro hblocked
  rcases Document.blocked_iff.1 hblocked with hwalk | ⟨m', hwalk, hunique⟩
  · rw [Document.walk_eq_found_iff.2 hm] at hwalk
    cases hwalk
  · obtain rfl := hm.unique (Document.walk_eq_found_iff.1 hwalk)
    rw [Document.checkUnique_eq_ok_iff.2 hnodup] at hunique
    cases hunique

/-- **Binding a class in a document.** -/
theorem setFactory_step {document : Document} (hread : document.IsRead) {calls : List Call}
    (h : calls = [] ∧ document = .empty ∨ Registered document calls) {call : Call}
    (hcall : call.Accepted) : ∃ document',
      setFactory call.factory call.target document = (document', .ok (changeAfter calls call)) ∧
      document'.IsRead ∧ document'.created = document.created ∧
      (changeAfter calls call = .unchanged → document' = document) ∧
      Registered document' (calls ++ [call]) := by
  obtain ⟨factory, hfactory⟩ := hcall.factory
  obtain ⟨target, htarget⟩ := hcall.target
  have hk := ofClass_representable htarget hcall.target_named
  have hv := ofClass_representable hfactory hcall.factory_named
  have hfree : ∀ e, ¬Blocked document document.file.root [] factoriesSection.keys e := by
    rcases h with ⟨-, rfl⟩ | h
    · exact not_blocked_of_empty
    · exact h.not_blocked
  obtain ⟨document', change, hset⟩ := Document.setEntry_eq_ok_of_not_blocked hread hk hv hfree
  obtain ⟨document₁, m, hensured, hnodup, hsetAs⟩ := Document.setEntry_cases hread hk hv hset
  have hreflects : Reflects calls (document₁.bindings m) := by
    rcases hensured.found_or_created with rfl | ⟨hempty, hnone⟩
    · rcases h with ⟨-, rfl⟩ | ⟨m₀, hm₀, -, hr⟩
      · exact absurd hensured.leads (not_leads_of_empty m)
      · rwa [hensured.leads.unique hm₀]
    · rcases h with ⟨rfl, -⟩ | ⟨m₀, hm₀, -, -⟩
      · rw [Document.bindings, hempty]
        exact .nil
      · exact absurd hm₀ (hnone m₀)
  obtain ⟨m', hm', hnodup', hrebinds⟩ := hsetAs.exists_rebinds hensured.leads hnodup
  rw [ofClass_eq (ClassName.wellFormed_of_parse htarget),
    ofClass_eq (ClassName.wellFormed_of_parse hfactory)] at hrebinds
  obtain ⟨rfl, hreflects'⟩ := hreflects.concat hrebinds
  refine ⟨document', hset, hsetAs.isRead hensured.isRead, ?_, fun hchange => ?_, m', hm', hnodup',
    hreflects'⟩
  · rw [(hsetAs.framed hensured.leads).created_eq, hensured.framed.created_eq]
  · rw [hchange] at hsetAs
    rw [← hensured.eq_of_setAs hsetAs (by decide)]
    cases hsetAs
    rfl

/-- Whether a document was read or started does not tell where its paths lead. -/
theorem leads_congr {document : Document} {created : Bool} {l m : Script.ArrayLiteral}
    {keys : List Text} (h : Leads document l keys m) :
    Leads { document with created } l keys m := by
  induction h with
  | here => exact .here _
  | step unique nested _ ih => exact .step unique nested ih

/-- **What is written is read back.** -/
theorem Registered.parse {document : Document} (hread : document.IsRead) {calls : List Call}
    (h : Registered document calls) : ∃ document',
      Document.parse document.render = .ok document' ∧ document'.created = false ∧
      Registered document' calls := by
  obtain ⟨m, hm, hnodup, hreflects⟩ := h
  have hparse : Document.parse document.render = .ok { document with created := false } :=
    Document.read_eq_ok_iff.2 ⟨rfl, rfl, hread⟩
  exact ⟨_, hparse, rfl, m, leads_congr hm, hnodup, hreflects⟩

/-! ### On a disk -/

section
variable {σ : Type}

/-- An action goes on where its first part ends. -/
theorem run_bind {α β : Type} {x : Action (StateM σ) α} {f : α → Action (StateM σ) β} {a : α}
    {s s' : σ} (h : x.run.run s = (.ok a, s')) : (x >>= f).run.run s = (f a).run.run s' := by
  rw [ExceptT.run_bind, StateT.run_bind, h]
  rfl

/-- A step of the disk is a step of an action. -/
theorem run_lift {α : Type} {x : StateM σ α} {a : α} {s s' : σ} (h : x.run s = (a, s')) :
    (ExceptT.lift x : Action (StateM σ) α).run.run s = (.ok a, s') := by
  rw [ExceptT.run_lift, StateT.run_map, h]
  rfl

/-- A result succeeds and leaves the disk alone. -/
theorem run_ofExcept {α : Type} (a : α) (s : σ) :
    (Action.ofExcept (.ok a) : Action (StateM σ) α).run.run s = (.ok a, s) := rfl

/-- A run comes out in one way, so what is said of how it does holds of the known result. -/
theorem of_run {α : Type} {x : StateM σ α} {s s' : σ} {a : α} {P : α → σ → Prop}
    (h : ∃ a s', x.run s = (a, s') ∧ P a s') (hrun : x.run s = (a, s')) : P a s' := by
  obtain ⟨_, _, hsome, hP⟩ := h
  obtain ⟨rfl, rfl⟩ := Prod.mk.inj (hrun.symm.trans hsome)
  exact hP

variable [Disk (StateM σ)]

/-- A registration in a document that has been opened. -/
theorem run_register {project : Project} {settings : InjectorSettings} {factory target : ClassName}
    {document document' : Document} {change : Change} {s s₁ : σ} (registration : Registration)
    (hopen : (openDocument project settings (project.resolve settings.configFile) :
      Action (StateM σ) Document).run.run s = (.ok document, s₁))
    (hset : setFactory factory target document = (document', .ok change))
    (hregistration :
      registration = ⟨project.resolve settings.configFile, change, document'.created⟩) :
    (register project settings factory target : Action (StateM σ) Registration).run.run s =
      (if registration.written then do
        project.write (project.resolve settings.configFile) document'.render
        return registration
      else return registration : Action (StateM σ) Registration).run.run s₁ := by
  subst hregistration
  unfold register
  refine (run_bind hopen).trans ?_
  rw [hset]
  exact run_bind (run_ofExcept _ s₁)

/-- The disk keeps what is written to the file at a path. `Written texts s` says that in the state
`s` the given texts have been written, the last one first: the file is there once one has been,
and it reads as the last. -/
structure KeepsFile (full : Path) (Written : List Text → σ → Prop) : Prop where
  isPresent {texts : List Text} {s : σ} (h : Written texts s) :
    ∃ s', (Disk.isPresent full : StateM σ Bool).run s = (!texts.isEmpty, s') ∧ Written texts s'
  read {text : Text} {texts : List Text} {s : σ} (h : Written (text :: texts) s) :
    ∃ s', (Disk.read? full : StateM σ (Option Text)).run s = (some text, s') ∧
      Written (text :: texts) s'
  write {texts : List Text} {s : σ} (h : Written texts s) (text : Text) {directory : Path}
    (hdirectory : Path.parent? full = some directory) :
    ∃ s₁ s₂, (Disk.createDirectories directory : StateM σ Bool).run s = (true, s₁) ∧
      (Disk.replace full text : StateM σ Bool).run s₁ = (true, s₂) ∧ Written (text :: texts) s₂

namespace KeepsFile

variable {project : Project} {path full : Path} {Written : List Text → σ → Prop}
  (hdisk : KeepsFile full Written) (hpath : project.confine path = .ok full)
  {texts : List Text} {s : σ}
include hdisk hpath

/-- The file is there once a text has been written. -/
theorem project_isPresent (h : Written texts s) :
    ∃ s', (project.isPresent path : StateM σ Bool).run s = (!texts.isEmpty, s') ∧
      Written texts s' := by
  rw [Project.isPresent, hpath]
  exact hdisk.isPresent h

/-- Reading gives the text that was written last. -/
theorem project_read {text : Text} (h : Written (text :: texts) s) :
    ∃ s', (project.read path : Action (StateM σ) Text).run.run s = (.ok text, s') ∧
      Written (text :: texts) s' := by
  obtain ⟨s', hread, hs'⟩ := hdisk.read h
  refine ⟨s', ?_, hs'⟩
  rw [Project.read, hpath]
  refine (run_bind (run_ofExcept full s)).trans ((run_bind (run_lift hread)).trans ?_)
  rfl

/-- Writing adds a text to those that have been written. -/
theorem project_write (h : Written texts s) (text : Text) {directory : Path}
    (hdirectory : Path.parent? full = some directory) :
    ∃ s', (project.write path text : Action (StateM σ) Unit).run.run s = (.ok (), s') ∧
      Written (text :: texts) s' := by
  obtain ⟨s₁, s₂, hcreate, hreplace, hs₂⟩ := hdisk.write h text hdirectory
  have habove : Project.directoryOf full = .ok directory := by
    rw [Project.directoryOf, hdirectory]
  refine ⟨s₂, ?_, hs₂⟩
  rw [Project.write, hpath]
  refine (run_bind (run_ofExcept full s)).trans ?_
  rw [habove]
  refine (run_bind (run_ofExcept directory s)).trans ((run_bind (run_lift hcreate)).trans ?_)
  exact run_bind (run_lift hreplace)

end KeepsFile

/-- The texts that the aggregation file has had, the last one first, after some calls: none at the
start, and then the last one is a document that reflects the calls. -/
inductive Kept : List Call → List Text → Prop
  | start : Kept [] []
  | kept {calls : List Call} {text : Text} {texts : List Text} {document : Document}
      (called : calls ≠ []) (parse : Document.parse text = .ok document)
      (registered : Registered document calls) : Kept calls (text :: texts)

variable {project : Project} {settings : InjectorSettings} {full : Path}
  {Written : List Text → σ → Prop} (hdisk : KeepsFile full Written)
  {calls : List Call} {texts : List Text} {s : σ}
include hdisk

/-- Opening the aggregation file gives the document of the calls so far. -/
theorem openDocument_step {path : Path} (hpath : project.confine path = .ok full)
    (hcreate : settings.createMissing = true) (hkept : Kept calls texts) (h : Written texts s) :
    ∃ document s',
      (openDocument project settings path : Action (StateM σ) Document).run.run s =
        (.ok document, s') ∧
      Written texts s' ∧ document.IsRead ∧ document.created = calls.isEmpty ∧
      (calls = [] ∧ document = .empty ∨ Registered document calls) ∧
      ∀ text ∈ texts.head?, Document.parse text = .ok document := by
  obtain ⟨s₁, hpresent, hs₁⟩ := hdisk.project_isPresent hpath h
  unfold openDocument
  cases hkept with
  | start =>
    refine ⟨.empty, s₁, (run_bind (run_lift hpresent)).trans ?_, hs₁, Document.empty_isRead, rfl,
      Or.inl ⟨rfl, rfl⟩, nofun⟩
    rw [hcreate]
    rfl
  | @kept _ text texts document called parse registered =>
    obtain ⟨s₂, hpresent', hs₂⟩ := hdisk.project_isPresent hpath hs₁
    obtain ⟨s₃, hread, hs₃⟩ := hdisk.project_read hpath hs₂
    obtain ⟨-, hcreated, hfile⟩ := Document.read_eq_ok_iff.1 parse
    have hempty : calls.isEmpty = false := by rwa [List.isEmpty_eq_false_iff]
    refine ⟨document, s₃, (run_bind (run_lift hpresent)).trans ?_, hs₃, hfile,
      hcreated.trans hempty.symm, Or.inr registered, ?_⟩
    · change (loadDocument project path : Action (StateM σ) Document).run.run s₁ = _
      unfold loadDocument
      refine (run_bind (run_lift hpresent')).trans ((run_bind hread).trans ?_)
      rw [parse]
      rfl
    · intro text' htext
      obtain rfl : text = text' := by simpa using htext
      exact parse

/-- **One registration.** It reports the expected change, and the file is written just in case
there is one. -/
theorem register_step (hpath : project.confine (project.resolve settings.configFile) = .ok full)
    {directory : Path} (hdirectory : Path.parent? full = some directory)
    (hcreate : settings.createMissing = true) (hkept : Kept calls texts) (h : Written texts s)
    {call : Call} (hcall : call.Accepted) :
    ∃ s' texts',
      (register project settings call.factory call.target :
          Action (StateM σ) Registration).run.run s =
        (.ok ⟨project.resolve settings.configFile, changeAfter calls call, calls.isEmpty⟩, s') ∧
      Written texts' s' ∧ Kept (calls ++ [call]) texts' ∧
      texts'.length = texts.length + if changeAfter calls call = .unchanged then 0 else 1 := by
  obtain ⟨document, s₁, hopen, hs₁, hread, hcreated, hcalls, hparse⟩ :=
    openDocument_step hdisk hpath hcreate hkept h
  obtain ⟨document', hset, hread', hcreated', hsame, hregistered⟩ :=
    setFactory_step hread hcalls hcall
  rw [hcreated] at hcreated'
  let path := project.resolve settings.configFile
  let registration : Registration := ⟨path, changeAfter calls call, calls.isEmpty⟩
  have hregister := run_register registration hopen hset (by rw [hcreated'])
  rw [hregister]
  by_cases hchange : changeAfter calls call = .unchanged
  · cases hkept with
    | start => cases hchange
    | kept called =>
      have hempty : calls.isEmpty = false := by rwa [List.isEmpty_eq_false_iff]
      have hwritten : registration.written = false := by
        simp only [registration, Registration.written, hempty, hchange]
        rfl
      obtain rfl := hsame hchange
      rw [hwritten, if_pos hchange]
      exact ⟨s₁, _, rfl, hs₁, .kept (by simp) (hparse _ rfl) hregistered, rfl⟩
  · have hwritten : registration.written = true := by
      simp [registration, Registration.written, hchange]
    obtain ⟨s₂, hwrite, hs₂⟩ := hdisk.project_write hpath hs₁ document'.render hdirectory
    obtain ⟨document₂, hparse₂, -, hregistered₂⟩ := hregistered.parse hread'
    rw [hwritten, if_neg hchange]
    exact ⟨s₂, _, (run_bind hwrite).trans rfl, hs₂, .kept (by simp) hparse₂ hregistered₂, rfl⟩

end

end Registration
end Scaffold
