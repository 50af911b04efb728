/-
# What a run of registrations stands for

A run of registrations stands for a map from classes to factories that keeps the order of the first
registrations: the targets are the classes that were registered, in that order, and each has the
factory of its last registration (`Reflects`). One call more rebinds its target or adds it at the
end, and the change it reports is known from the calls before it (`Reflects.concat`).
-/

import Scaffold.ClassName
import Scaffold.Proofs.Document.Bindings

namespace Scaffold
namespace Registration

open Config (Change)
open Config.Document (Binding Rebinds rebind)

/-- One registration: a class and its factory. -/
structure Call where
  factory : ClassName
  target : ClassName

/-- The classes that some calls register, in the order of their first registrations. -/
def targets (calls : List Call) : List ClassName := (calls.map Call.target).eraseDups

/-- The factory that the last call for a class registers. -/
def lastFactory? (calls : List Call) (target : ClassName) : Option ClassName :=
  ((calls.filter fun call => call.target = target).getLast?).map Call.factory

/-- The change that a call after some others is to report. -/
def changeAfter (before : List Call) (call : Call) : Change :=
  match lastFactory? before call.target with
  | none => .inserted
  | some factory => if factory = call.factory then .unchanged else .replaced

/-- The bindings are those of the targets, in order, to their last factories. -/
def Reflects (calls : List Call) (bindings : List Binding) : Prop :=
  List.Forall₂ (fun target binding => ∃ factory, lastFactory? calls target = some factory ∧
    binding = (some (.known target.text), .known factory.text)) (targets calls) bindings

/-! ### One call more -/

/-- The targets of calls are the classes that they register. -/
theorem mem_targets {calls : List Call} {target : ClassName} :
    target ∈ targets calls ↔ target ∈ calls.map Call.target := List.mem_eraseDups

/-- A call for a target that had been registered adds none. -/
theorem targets_concat_of_mem {calls : List Call} {call : Call} (h : call.target ∈ targets calls) :
    targets (calls ++ [call]) = targets calls := by
  have hremove : [call.target].removeAll (calls.map Call.target) = [] := by
    rw [List.removeAll, List.filter_cons_of_neg (by simpa using mem_targets.1 h), List.filter_nil]
  rw [targets, List.map_append, List.eraseDups_append, List.map_singleton, hremove,
    List.eraseDups_nil, List.append_nil, targets]

/-- A call for another target adds it behind the others. -/
theorem targets_concat_of_not_mem {calls : List Call} {call : Call}
    (h : call.target ∉ targets calls) :
    targets (calls ++ [call]) = targets calls ++ [call.target] := by
  have hfresh : call.target ∉ calls.map Call.target := fun hmem => h (mem_targets.2 hmem)
  have hremove : [call.target].removeAll (calls.map Call.target) = [call.target] := by
    rw [List.removeAll, List.filter_cons_of_pos (by simpa using hfresh), List.filter_nil]
  rw [targets, List.map_append, List.eraseDups_append, List.map_singleton, hremove, targets]
  rfl

/-- The last factory of a target is that of the last call for it. -/
theorem lastFactory?_concat_self (calls : List Call) (call : Call) :
    lastFactory? (calls ++ [call]) call.target = some call.factory := by
  simp [lastFactory?, List.filter_append]

/-- A call for another target leaves the last factory as it is. -/
theorem lastFactory?_concat_of_ne (calls : List Call) {call : Call} {target : ClassName}
    (h : target ≠ call.target) :
    lastFactory? (calls ++ [call]) target = lastFactory? calls target := by
  simp [lastFactory?, List.filter_append, h.symm]

/-- A class has a last factory just in case it is a target. -/
theorem exists_lastFactory?_iff {calls : List Call} {target : ClassName} :
    (∃ factory, lastFactory? calls target = some factory) ↔ target ∈ targets calls := by
  rw [← Option.isSome_iff_exists, mem_targets, lastFactory?, Option.isSome_map]
  simp

/-- A class that is no target has no last factory. -/
theorem lastFactory?_eq_none {calls : List Call} {target : ClassName} (h : target ∉ targets calls) :
    lastFactory? calls target = none := by
  cases hlast : lastFactory? calls target with
  | none => rfl
  | some factory => exact absurd (exists_lastFactory?_iff.1 ⟨factory, hlast⟩) h

/-- Where lists are related element by element, each element has one that it is related to. -/
theorem exists_related {α β : Type} {r : α → β → Prop} {as : List α} {bs : List β}
    (h : List.Forall₂ r as bs) {b : β} (hb : b ∈ bs) : ∃ a ∈ as, r a b := by
  induction h with
  | nil => exact absurd hb List.not_mem_nil
  | @cons a c as bs hr _ ih =>
    rcases List.mem_cons.1 hb with rfl | hb
    · exact ⟨a, List.mem_cons_self, hr⟩
    · obtain ⟨a', ha', hr'⟩ := ih hb
      exact ⟨a', List.mem_cons_of_mem _ ha', hr'⟩

section
variable {calls : List Call} {bindings bindings' : List Binding}

/-- No calls are reflected by no bindings. -/
theorem Reflects.nil : Reflects [] [] := List.Forall₂.nil

/-- A class is bound to the factory of its last registration, and to nothing else. -/
theorem Reflects.mem_iff (h : Reflects calls bindings) {target : ClassName} {value : Script.Value} :
    (some (.known target.text), value) ∈ bindings ↔
      ∃ factory, lastFactory? calls target = some factory ∧ value = .known factory.text := by
  constructor
  · intro hmem
    obtain ⟨⟨text⟩, -, factory, hlast, hbinding⟩ := exists_related h hmem
    simp only [Prod.mk.injEq, Option.some.injEq, Script.Value.known.injEq] at hbinding
    obtain ⟨rfl, rfl⟩ := hbinding
    exact ⟨factory, hlast, rfl⟩
  · rintro ⟨factory, hlast, rfl⟩
    obtain ⟨binding, hmem, factory', hlast', rfl⟩ :=
      exists_related h.flip (exists_lastFactory?_iff.1 ⟨factory, hlast⟩)
    rw [hlast] at hlast'
    cases hlast'
    exact hmem

/-- A call for a class that is registered gives it another factory and leaves the others. -/
theorem Reflects.map_rebind (h : Reflects calls bindings) {call : Call}
    (hmem : call.target ∈ targets calls) :
    Reflects (calls ++ [call]) (bindings.map (rebind call.target.text call.factory.text)) := by
  rw [Reflects, targets_concat_of_mem hmem, List.forall₂_map_right_iff]
  refine List.Forall₂.imp (fun target binding hbinding => ?_) h
  obtain ⟨factory, hlast, rfl⟩ := hbinding
  by_cases htarget : target = call.target
  · rw [htarget]
    exact ⟨call.factory, lastFactory?_concat_self _ _, if_pos rfl⟩
  · refine ⟨factory, (lastFactory?_concat_of_ne _ htarget).trans hlast, if_neg fun hkey => ?_⟩
    obtain ⟨text⟩ := target
    simp only [Option.some.injEq, Script.Value.known.injEq] at hkey
    exact htarget (by rw [hkey])

/-- A call for another class puts it after the others. -/
theorem Reflects.append (h : Reflects calls bindings) {call : Call}
    (hmem : call.target ∉ targets calls) :
    Reflects (calls ++ [call])
      (bindings ++ [(some (.known call.target.text), .known call.factory.text)]) := by
  rw [Reflects, targets_concat_of_not_mem hmem]
  refine List.rel_append (List.Forall₂.imp (fun target binding hbinding => ?_) h)
    (.cons ⟨call.factory, lastFactory?_concat_self _ _, rfl⟩ .nil)
  obtain ⟨factory, hlast, rfl⟩ := hbinding
  have htarget : target ≠ call.target := by
    rintro rfl
    exact hmem (exists_lastFactory?_iff.1 ⟨factory, hlast⟩)
  exact ⟨factory, (lastFactory?_concat_of_ne _ htarget).trans hlast, rfl⟩

/-- **One call more rebinds its target, and the change is the expected one.** -/
theorem Reflects.concat (h : Reflects calls bindings) {call : Call} {change : Change}
    (hr : Rebinds call.target.text call.factory.text bindings change bindings') :
    change = changeAfter calls call ∧ Reflects (calls ++ [call]) bindings' := by
  cases hr with
  | unchanged same =>
    obtain ⟨⟨text⟩, hlast, hvalue⟩ := h.mem_iff.1 same
    refine ⟨?_, h.map_rebind (exists_lastFactory?_iff.1 ⟨_, hlast⟩)⟩
    rw [changeAfter, hlast]
    simp only [Script.Value.known.injEq] at hvalue
    exact (if_pos (by rw [← hvalue])).symm
  | replaced other ne =>
    obtain ⟨factory, hlast, rfl⟩ := h.mem_iff.1 other
    refine ⟨?_, h.map_rebind (exists_lastFactory?_iff.1 ⟨_, hlast⟩)⟩
    rw [changeAfter, hlast]
    exact (if_neg fun hsame => ne (by rw [hsame])).symm
  | inserted fresh =>
    have hmem : call.target ∉ targets calls := fun hmem => by
      obtain ⟨factory, hlast⟩ := exists_lastFactory?_iff.2 hmem
      exact fresh _ (h.mem_iff.2 ⟨factory, hlast, rfl⟩)
    refine ⟨?_, h.append hmem⟩
    rw [changeAfter, lastFactory?_eq_none hmem]

end

end Registration
end Scaffold
