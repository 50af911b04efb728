/-
# Runs of registrations

A run of registrations starts without the aggregation file. Each call reads the text that the calls
before it have left. However many there are, all of them succeed, and together they refine a map
that keeps the order of the first registrations (`registerAll_refines`).
-/

import Scaffold.Proofs.Registration.Tree

namespace Scaffold

namespace Path

/-- A path as seen from another one ends with its own segments. -/
theorem exists_segments_join (base other : Path) :
    ∃ before, segments (join base other) = before ++ segments other := by
  unfold join
  split
  · exact ⟨[], rfl⟩
  · split
    · rename_i hbase
      rcases List.eq_nil_or_concat base with rfl | ⟨above, c, rfl⟩
      · exact ⟨[], rfl⟩
      · have hc : c = '/' := by simpa using hbase
        refine ⟨segments above, ?_⟩
        rw [hc, List.concat_eq_append, List.append_assoc]
        exact List.splitOn_append_cons_self above other
    · exact ⟨segments base, List.splitOn_append_cons_self base other⟩

/-- What has a name has something above it. -/
theorem exists_parent?_eq_some {path : Path} (h : ¬(segments path).all isIdle) :
    ∃ above, parent? path = some above := by
  unfold parent?
  split
  · rename_i hnone
    rw [List.dropWhile_eq_nil_iff] at hnone
    refine absurd (List.all_eq_true.2 fun segment hsegment => ?_) h
    exact hnone segment (List.mem_reverse.2 hsegment)
  · split
    · split
      · exact ⟨_, rfl⟩
      · split
        · exact ⟨_, rfl⟩
        · exact ⟨_, rfl⟩
    · exact ⟨_, rfl⟩

end Path

namespace Registration

open Config (Change Document)

/-- Some registrations, one after another. The first failure ends them. -/
def registerAll {m : Type → Type} [Monad m] [Disk m] (project : Project)
    (settings : InjectorSettings) (calls : List Call) : Action m (List Registration) :=
  calls.mapM fun call => register project settings call.factory call.target

/-- What some calls after others are to report. -/
def reports (path : Path) (before : List Call) : List Call → List Registration
  | [] => []
  | call :: calls =>
    ⟨path, changeAfter before call, before.isEmpty⟩ :: reports path (before ++ [call]) calls

/-- The reports of calls, each by the calls before it. -/
theorem reports_eq_mapIdx (path : Path) (before calls : List Call) :
    reports path before calls = calls.mapIdx fun i call =>
      ⟨path, changeAfter (before ++ calls.take i) call, (before ++ calls.take i).isEmpty⟩ := by
  induction calls generalizing before with
  | nil => rfl
  | cons call calls ih =>
    rw [reports, ih, List.mapIdx_cons, List.take_zero, List.append_nil]
    simp only [List.take_succ_cons, List.append_assoc, List.singleton_append]

/-- The file is written just in case the change is one. -/
theorem reports_written (path : Path) (before calls : List Call) :
    ∀ registration ∈ reports path before calls,
      registration.written = (registration.change != .unchanged) := by
  induction calls generalizing before with
  | nil => exact fun registration hmem => absurd hmem List.not_mem_nil
  | cons call calls ih =>
    refine List.forall_mem_cons.2 ⟨?_, ih (before ++ [call])⟩
    cases before with
    | nil => rfl
    | cons other before => rfl

section
variable {σ : Type} [Disk (StateM σ)] {project : Project} {settings : InjectorSettings}
  {full : Path} {Written : List Text → σ → Prop}

/-- **The calls of a run, from any of them on.** -/
theorem registerAll_run (hdisk : KeepsFile full Written)
    (hpath : project.confine (project.resolve settings.configFile) = .ok full) {directory : Path}
    (hdirectory : Path.parent? full = some directory) (hcreate : settings.createMissing = true)
    {before calls : List Call} (hcalls : ∀ call ∈ calls, call.Accepted) {texts : List Text} {s : σ}
    (hkept : Kept before texts) (h : Written texts s) :
    ∃ s' texts',
      (registerAll project settings calls : Action (StateM σ) (List Registration)).run.run s =
        (.ok (reports (project.resolve settings.configFile) before calls), s') ∧
      Written texts' s' ∧ Kept (before ++ calls) texts' ∧
      texts'.length = texts.length + (reports (project.resolve settings.configFile) before
        calls).countP (·.change != .unchanged) := by
  induction calls generalizing before texts s with
  | nil => exact ⟨s, texts, rfl, h, by rwa [List.append_nil], rfl⟩
  | cons call calls ih =>
    obtain ⟨hcall, hcalls⟩ := List.forall_mem_cons.1 hcalls
    obtain ⟨s₁, texts₁, hregister, hs₁, hkept₁, hlength₁⟩ :=
      register_step hdisk hpath hdirectory hcreate hkept h hcall
    obtain ⟨s₂, texts₂, hrun, hs₂, hkept₂, hlength₂⟩ := ih hcalls hkept₁ hs₁
    refine ⟨s₂, texts₂, ?_, hs₂, ?_, ?_⟩
    · rw [registerAll, List.mapM_cons]
      exact (run_bind hregister).trans ((run_bind hrun).trans rfl)
    · rwa [List.append_assoc, List.singleton_append] at hkept₂
    · rw [hlength₂, hlength₁, reports, List.countP_cons]
      by_cases hchange : changeAfter before call = .unchanged
      · simp [hchange]
      · simp [hchange]
        omega

omit [Disk (StateM σ)] in
/-- The file is in a directory. -/
theorem exists_directory
    (hinside : project.confine (project.resolve settings.configFile) = .ok full)
    (hname : ¬(Path.segments settings.configFile).all Path.isIdle) :
    ∃ directory, Path.parent? full = some directory := by
  have hfull : full = project.resolve (project.resolve settings.configFile) := by
    unfold Project.confine at hinside
    simp only at hinside
    split at hinside
    · cases hinside
      rfl
    · cases hinside
  obtain ⟨above, habove⟩ := Path.exists_segments_join project.root settings.configFile
  obtain ⟨above', habove'⟩ :=
    Path.exists_segments_join project.root (project.resolve settings.configFile)
  refine Path.exists_parent?_eq_some ?_
  rw [hfull, Project.resolve, habove', Project.resolve, habove, List.all_append, List.all_append]
  simp only [Bool.and_eq_true, not_and]
  exact fun _ _ => hname

/-- **Runs of registrations refine a map.** At the start the aggregation file is not there
(`Written [] s`); it is a file inside the project (`hinside`, `hname`) on a disk that keeps it. All
calls succeed. Each reports the change that the calls before it make expected, only the first one
has created the file, and the file has been written once for each change. What was written last is
a document whose factories are those that the calls stand for. -/
theorem registerAll_refines
    (hinside : project.confine (project.resolve settings.configFile) = .ok full)
    (hname : ¬(Path.segments settings.configFile).all Path.isIdle)
    (hcreate : settings.createMissing = true) (hdisk : KeepsFile full Written) {s : σ}
    (h : Written [] s) {calls : List Call} (hcalls : ∀ call ∈ calls, call.Accepted) :
    ∃ s' texts registrations,
      (registerAll project settings calls : Action (StateM σ) (List Registration)).run.run s =
        (.ok registrations, s') ∧
      Written texts s' ∧
      registrations = (calls.mapIdx fun i call =>
        ⟨project.resolve settings.configFile, changeAfter (calls.take i) call, i == 0⟩) ∧
      (∀ registration ∈ registrations,
        registration.written = (registration.change != .unchanged)) ∧
      texts.length = registrations.countP Registration.written ∧
      (calls ≠ [] → ∃ text document place, texts.head? = some text ∧
        Document.parse text = .ok document ∧ document.sectionAt factoriesSection = .ok place ∧
        Reflects calls (document.bindings place.literal)) := by
  obtain ⟨directory, hdirectory⟩ := exists_directory hinside hname
  obtain ⟨s', texts, hrun, hs', hkept, hlength⟩ :=
    registerAll_run hdisk hinside hdirectory hcreate hcalls .start h
  refine ⟨s', texts, _, hrun, hs', ?_, reports_written _ _ _, ?_, fun hne => ?_⟩
  · rw [reports_eq_mapIdx, List.mapIdx_eq_mapIdx_iff]
    intro i hi
    cases i with
    | zero => rfl
    | succ i =>
      have hempty : ([] ++ calls.take (i + 1)).isEmpty = false := by
        rw [List.nil_append, List.isEmpty_eq_false_iff, ← List.length_pos_iff, List.length_take]
        omega
      rw [hempty]
      rfl
  · rw [hlength, List.length_nil, Nat.zero_add]
    exact List.countP_congr fun registration hmem => by
      rw [reports_written _ _ _ registration hmem]
  · rw [List.nil_append] at hkept
    cases hkept with
    | start => exact absurd rfl hne
    | @kept _ text texts document _ hparse hregistered =>
      obtain ⟨m, hm, -, hreflects⟩ := hregistered
      exact ⟨text, document, ⟨factoriesSection, m⟩, rfl, hparse, Document.sectionAt_of_leads hm,
        hreflects⟩

end

/-- Three calls for two classes, on a file tree. -/
theorem registerAll_refines_on_tree :
    let ping : ClassName := ⟨"App\\Ping".toList⟩
    let pong : ClassName := ⟨"App\\Pong".toList⟩
    let calls : List Call := [⟨⟨"App\\F".toList⟩, ping⟩, ⟨⟨"App\\G".toList⟩, pong⟩,
      ⟨⟨"App\\H".toList⟩, ping⟩]
    let tree : FileTree := ⟨[([['p']], .directory)], []⟩
    ∃ (tree' : FileTree) (texts : List Text) (registrations : List Registration),
      (registerAll ⟨"/p".toList⟩ ⟨"c".toList, true⟩ calls :
          Action (StateM FileTree) (List Registration)).run.run tree = (.ok registrations, tree') ∧
      registrations.map change = [.inserted, .inserted, .replaced] ∧ texts.length = 3 ∧
      tree'.node? [['p'], ['c']] = texts.head?.map Node.file := by
  intro ping pong calls tree
  have hparse : ∀ call ∈ calls, ClassName.parse call.factory.text = .ok call.factory ∧
      ClassName.parse call.target.text = .ok call.target := by
    intro call hcall
    refine ⟨Script.eq_ok_of_toOption ?_, Script.eq_ok_of_toOption ?_⟩
    all_goals
      revert call
      decide +kernel
  have hnamed : ∀ call ∈ calls, Script.isRelativeClass call.factory.text = false ∧
      Script.isRelativeClass call.target.text = false := by
    decide +kernel
  have hcalls : ∀ call ∈ calls, call.Accepted := fun call hcall =>
    ⟨⟨_, (hparse call hcall).1⟩, ⟨_, (hparse call hcall).2⟩, (hnamed call hcall).1,
      (hnamed call hcall).2⟩
  have hpath : Project.confine ⟨"/p".toList⟩ (Project.resolve ⟨"/p".toList⟩ "c".toList) =
      .ok "/p/c".toList := Script.eq_ok_of_toOption (by decide +kernel)
  have hname : ¬(Path.segments "c".toList).all Path.isIdle := by decide
  obtain ⟨tree', texts, registrations, hrun, htexts, rfl, -, hwritten, -⟩ :=
    @registerAll_refines FileTree _ ⟨"/p".toList⟩ ⟨"c".toList, true⟩ _ _ hpath hname rfl
      FileTree.keepsFile tree ⟨rfl, rfl⟩ calls hcalls
  refine ⟨tree', texts, _, hrun, ?_, hwritten.trans ?_, htexts.2⟩
  · decide +kernel
  · decide +kernel

end Registration
end Scaffold
