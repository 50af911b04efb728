/-
# The longest namespace

Binding a namespace changes what that namespace is bound to and nothing else (`find?_insert`), and
no namespace is ever bound twice (`Single.insert`). So what has been bound last to each namespace
says all about the map: which mapping covers a class (`covering?_eq_some_iff`), and so where the
class lies. The path goes on from the directory by one name for each segment that the namespace
leaves of the class name (`file_eq`). The whole statement is `bindAll_resolve`.
-/

import Mathlib.Data.List.MinMax
import Scaffold.Proofs.Project.Provider

namespace Scaffold

/-! ### Paths of several names -/

namespace Path

variable {name other : Path}

/-- A path that starts with a name is relative. -/
theorem isAbsolute_name_append (hname : isIdentifier name = true) (more : Path) :
    isAbsolute (name ++ more) = false := by
  cases name with
  | nil => cases hname
  | cons c name =>
    rw [List.cons_append, isAbsolute_cons, beq_eq_false_iff_ne]
    exact fun hc => not_mem_of_isIdentifier hname (c := '/') rfl (hc ▸ List.mem_cons_self)

/-- A relative path behind a name is joined along with the name. -/
theorem join_join (base : Path) (hname : isIdentifier name = true)
    (hother : isAbsolute other = false) :
    join (join base name) other = join base (name ++ '/' :: other) := by
  obtain ⟨hne, hlast⟩ := CreatedModule.ne_nil_of_suffix hname (suffix_join base name)
  have hfirst : isAbsolute name = false := List.append_nil name ▸ isAbsolute_name_append hname []
  rw [join_eq_append hother hne hlast]
  simp only [join, isAbsolute_name_append hname, hfirst, Bool.false_eq_true, if_false]
  split <;> simp only [List.append_assoc, List.cons_append]

/-- Names that are joined one after the other. -/
theorem foldl_join {names : List Text} {last : Text}
    (hnames : ∀ name ∈ names, isIdentifier name = true) (hlast : isAbsolute last = false)
    (base : Path) :
    (names ++ [last]).foldl join base = join base (['/'].intercalate (names ++ [last])) := by
  induction names generalizing base with
  | nil => rw [List.nil_append, List.intercalate_singleton, List.foldl_cons, List.foldl_nil]
  | cons name names ih =>
    obtain ⟨hname, hnames⟩ := List.forall_mem_cons.1 hnames
    have hrest : isAbsolute (['/'].intercalate (names ++ [last])) = false := by
      cases names with
      | nil => rwa [List.nil_append, List.intercalate_singleton]
      | cons next names =>
        rw [List.cons_append, List.intercalate_cons_of_ne_nil (List.concat_ne_nil _ _),
          List.append_assoc]
        exact isAbsolute_name_append (hnames next List.mem_cons_self) _
    rw [List.cons_append, List.foldl_cons, ih hnames, join_join base hname hrest,
      List.intercalate_cons_of_ne_nil (List.concat_ne_nil _ _), List.append_assoc]
    rfl

end Path

namespace Autoload

variable {autoload : Autoload} {mapping : Mapping} {name : ClassName} {space : Text}
variable {directory : Path} {bindings : List (Text × Path)}

/-! ### One namespace more -/

/-- Inserting a namespace binds it and no other. -/
theorem find?_insert (autoload : Autoload) (written : Text) (directory : Path) (space : Text) :
    (autoload.insert written directory).find? space =
      if normalize written = space then some directory else autoload.find? space := by
  obtain ⟨mappings⟩ := autoload
  unfold insert find?
  dsimp only
  induction mappings with
  | nil =>
    unfold bind
    by_cases h : normalize written = space <;> simp [h]
  | cons first mappings ih =>
    unfold bind
    by_cases hfirst : first.space = normalize written
    · rw [if_pos hfirst]
      by_cases h : normalize written = space
      · simp [h]
      · have hfirst' : ¬first.space = space := hfirst ▸ h
        simp [h, hfirst']
    · rw [if_neg hfirst]
      by_cases h : first.space = space
      · have hne : ¬normalize written = space := fun heq => hfirst (h.trans heq.symm)
        simp [h, hne]
      · have hskip : (first.space == space) = false := beq_eq_false_iff_ne.2 h
        rw [List.find?_cons, List.find?_cons, hskip]
        exact ih

/-- No namespace is bound twice. -/
def Single (autoload : Autoload) : Prop := (autoload.mappings.map Mapping.space).Nodup

/-- Inserting a namespace leaves each namespace with one mapping. -/
theorem Single.insert (h : autoload.Single) (space : Text) (directory : Path) :
    (autoload.insert space directory).Single := by
  unfold Single Autoload.insert
  dsimp only
  rw [map_space_bind]
  split
  · exact h
  · rename_i hnew
    exact List.nodup_append.2 ⟨h, List.nodup_singleton _, fun other hother last hlast heq =>
      hnew (List.mem_singleton.1 hlast ▸ heq ▸ hother)⟩

/-- The mappings are those that are found. -/
theorem Single.mem_iff (h : autoload.Single) :
    mapping ∈ autoload.mappings ↔ autoload.find? mapping.space = some mapping.directory := by
  obtain ⟨mappings⟩ := autoload
  unfold Single at h
  unfold find?
  dsimp only at h ⊢
  induction mappings with
  | nil => exact iff_of_false List.not_mem_nil nofun
  | cons first mappings ih =>
    rw [List.map_cons, List.nodup_cons] at h
    rw [List.mem_cons, List.find?_cons]
    by_cases hfirst : first.space = mapping.space
    · have hout : mapping ∉ mappings := fun hmem => h.1 (hfirst ▸ List.mem_map_of_mem hmem)
      obtain ⟨space, directory⟩ := mapping
      obtain ⟨other, found⟩ := first
      obtain rfl : other = space := hfirst
      simp [hout, eq_comm]
    · have hne : mapping ≠ first := fun heq => hfirst (heq ▸ rfl)
      rw [beq_eq_false_iff_ne.2 hfirst]
      exact (or_iff_right hne).trans (ih h.2)

/-! ### The mapping that covers a class -/

/-- The mapping has the longest of the namespaces that are bound and cover the class. -/
structure Longest (bound : Text → Option Path) (name : ClassName) (mapping : Mapping) : Prop where
  bound_eq : bound mapping.space = some mapping.directory
  covers : mapping.space <+: name.text
  length_le {space : Text} (hbound : (bound space).isSome) (hcovers : space <+: name.text) :
    space.length ≤ mapping.space.length

/-- There is only one such mapping. -/
theorem Longest.unique {bound : Text → Option Path} {other : Mapping}
    (h : Longest bound name mapping) (ho : Longest bound name other) : other = mapping := by
  have hlength : other.space.length = mapping.space.length :=
    Nat.le_antisymm (h.length_le (Option.isSome_of_eq_some ho.bound_eq) ho.covers)
      (ho.length_le (Option.isSome_of_eq_some h.bound_eq) h.covers)
  have hspace : other.space = mapping.space :=
    (List.prefix_of_prefix_length_le ho.covers h.covers hlength.le).eq_of_length hlength
  have hdirectory : some other.directory = some mapping.directory :=
    ho.bound_eq.symm.trans ((congrArg bound hspace).trans h.bound_eq)
  obtain ⟨space, directory⟩ := other
  exact congrArg₂ Mapping.mk hspace (Option.some.inj hdirectory)

/-- A mapping covers the classes whose names start with its namespace. -/
theorem covers_iff : Mapping.covers mapping name = true ↔ mapping.space <+: name.text :=
  List.isPrefixOf_iff_prefix

/-- The longest mapping is the one that covers a class. -/
theorem Single.covering?_of_longest (h : autoload.Single)
    (hlongest : Longest autoload.find? name mapping) :
    autoload.covering? name = some mapping := by
  refine covering?_eq_some (h.mem_iff.2 hlongest.bound_eq) (covers_iff.2 hlongest.covers)
    fun other hother hcovers => ?_
  have hbound := h.mem_iff.1 hother
  have hle := hlongest.length_le (Option.isSome_of_eq_some hbound) (covers_iff.1 hcovers)
  refine (Nat.lt_or_eq_of_le hle).symm.imp (fun heq => ?_) id
  refine hlongest.unique ⟨hbound, covers_iff.1 hcovers, fun hsome hspace => ?_⟩
  rw [heq]
  exact hlongest.length_le hsome hspace

/-- Where a namespace covers the class, there is a longest one. -/
theorem Single.exists_longest (h : autoload.Single) (hbound : (autoload.find? space).isSome)
    (hcovers : space <+: name.text) : ∃ mapping, Longest autoload.find? name mapping := by
  have hmem : ∀ {space}, (autoload.find? space).isSome → space <+: name.text →
      ∃ mapping ∈ autoload.mappings.filter (Mapping.covers · name), mapping.space = space := by
    intro space hbound hcovers
    obtain ⟨directory, hdirectory⟩ := Option.isSome_iff_exists.1 hbound
    exact ⟨⟨space, directory⟩,
      List.mem_filter.2 ⟨h.mem_iff.2 hdirectory, covers_iff.2 hcovers⟩, rfl⟩
  cases hmax : (autoload.mappings.filter (Mapping.covers · name)).argmax
      (·.space.length) with
  | none =>
    obtain ⟨mapping, hmapping, -⟩ := hmem hbound hcovers
    rw [List.argmax_eq_none.1 hmax] at hmapping
    cases hmapping
  | some found =>
    obtain ⟨hfound, hname⟩ := List.mem_filter.1 (List.argmax_mem hmax)
    refine ⟨found, h.mem_iff.1 hfound, covers_iff.1 hname, fun hbound hcovers => ?_⟩
    obtain ⟨other, hother, rfl⟩ := hmem hbound hcovers
    exact List.le_of_mem_argmax (f := (·.space.length)) hother hmax

/-- **The mapping that is found is the longest one.** -/
theorem Single.covering?_eq_some_iff (h : autoload.Single) :
    autoload.covering? name = some mapping ↔ Longest autoload.find? name mapping := by
  refine ⟨fun hcovering => ?_, h.covering?_of_longest⟩
  cases hcovers : autoload.mappings.filter (Mapping.covers · name) with
  | nil =>
    rw [covering?, hcovers] at hcovering
    cases hcovering
  | cons first more =>
    obtain ⟨hfirst, hname⟩ := List.mem_filter.1 (hcovers ▸ List.mem_cons_self)
    obtain ⟨longest, hlongest⟩ := h.exists_longest
      (Option.isSome_of_eq_some (h.mem_iff.1 hfirst)) (covers_iff.1 hname)
    rw [h.covering?_of_longest hlongest] at hcovering
    exact Option.some.inj hcovering ▸ hlongest

/-! ### The file of a class -/

/-- The segments that a namespace leaves of the name of a class. -/
theorem exists_segments (hname : name.WellFormed) {written : Text}
    (hcovers : normalize written <+: name.text) :
    ∃ segments last, name.text = normalize written ++ ['\\'].intercalate (segments ++ [last]) ∧
      ∀ segment ∈ segments ++ [last], isIdentifier segment = true := by
  obtain ⟨rest, hrest⟩ := hcovers
  have hparts : ∀ part ∈ rest.splitOn '\\', isIdentifier part = true := by
    intro part hpart
    refine hname part ?_
    rcases normalize_eq_nil_or_concat written with hnil | ⟨space, hspace⟩
    · rwa [← hrest, hnil]
    · rw [← hrest, hspace, List.append_assoc, List.singleton_append,
        List.splitOn_append_cons_self]
      exact List.mem_append_right _ hpart
  have hne : rest.splitOn '\\' ≠ [] := List.splitOn_ne_nil _ _
  have hcut := List.dropLast_concat_getLast hne
  refine ⟨_, _, ?_, fun segment h => hparts segment (hcut ▸ h)⟩
  rw [hcut, List.intercalate_splitOn, hrest]

/-- **The path of the file goes on from the directory by one name a segment.** -/
theorem file_eq {segments : List Text} {last : Text}
    (htext : name.text = mapping.space ++ ['\\'].intercalate (segments ++ [last]))
    (hsegments : ∀ segment ∈ segments ++ [last], isIdentifier segment = true) :
    Mapping.file mapping name = Path.join mapping.directory
      (['/'].intercalate (segments ++ [last ++ '.' :: "php".toList])) := by
  have hsplit : (name.text.drop mapping.space.length).splitOn '\\' = segments ++ [last] := by
    rw [htext, List.drop_left]
    exact List.splitOn_intercalate _
      (fun segment h => not_mem_of_isIdentifier (hsegments segment h) rfl) (List.concat_ne_nil _ _)
  have hlast : isIdentifier last = true := hsegments last List.mem_concat_self
  have hslash : '/' ∉ last ++ '.' :: "php".toList := by
    rw [List.mem_append, not_or]
    exact ⟨not_mem_of_isIdentifier hlast rfl, by decide⟩
  have hne : last ≠ [] := by
    rintro rfl
    cases hlast
  rw [Mapping.file, hsplit, List.foldl_append, List.foldl_cons, List.foldl_nil,
    Path.withExtension_join _ hslash (not_mem_of_isIdentifier hlast rfl) hne,
    ← Path.foldl_join (fun segment h => hsegments segment (List.mem_append_left _ h))
      (Path.isAbsolute_name_append hlast _), List.foldl_append]
  rfl

/-! ### Namespaces bound one after the other -/

/-- The map after these namespaces have been bound, the first one first. -/
def bindAll (bindings : List (Text × Path)) : Autoload :=
  bindings.foldl (fun autoload binding => (autoload.getThenInsert? binding.1 binding.2).2) .empty

/-- The directory that a normalized namespace is bound to last. -/
def lastBound? (bindings : List (Text × Path)) (space : Text) : Option Path :=
  (bindings.reverse.find? (normalize ·.1 == space)).map Prod.snd

/-- One more binding is inserted last. -/
theorem bindAll_concat (bindings : List (Text × Path)) (binding : Text × Path) :
    bindAll (bindings ++ [binding]) = (bindAll bindings).insert binding.1 binding.2 :=
  List.foldl_concat ..

/-- The last of the bindings counts, if it is for the namespace. -/
theorem lastBound?_concat (bindings : List (Text × Path)) (binding : Text × Path) (space : Text) :
    lastBound? (bindings ++ [binding]) space =
      if normalize binding.1 = space then some binding.2 else lastBound? bindings space := by
  unfold lastBound?
  rw [List.reverse_concat, List.find?_cons]
  split
  · rename_i h
    rw [if_pos (beq_iff_eq.1 h)]
    rfl
  · rename_i h
    rw [if_neg (beq_eq_false_iff_ne.1 h)]

/-- A namespace is bound if one of the bindings is for it. -/
theorem isSome_lastBound?_iff : (lastBound? bindings space).isSome ↔
    ∃ binding ∈ bindings, normalize binding.1 = space := by
  unfold lastBound?
  rw [Option.isSome_map, List.find?_isSome]
  simp only [List.mem_reverse, beq_iff_eq]

/-- A namespace without a binding is not bound. -/
theorem lastBound?_eq_none (h : ∀ binding ∈ bindings, normalize binding.1 ≠ space) :
    lastBound? bindings space = none := by
  refine Option.not_isSome_iff_eq_none.1 fun hsome => ?_
  obtain ⟨binding, hmem, hspace⟩ := isSome_lastBound?_iff.1 hsome
  exact h binding hmem hspace

/-- **What was bound last is what is found.** -/
theorem find?_bindAll (bindings : List (Text × Path)) :
    (bindAll bindings).find? = lastBound? bindings := by
  induction bindings using List.reverseRecOn with
  | nil => rfl
  | append_singleton bindings binding ih =>
    funext space
    rw [bindAll_concat, find?_insert, lastBound?_concat, ih]

/-- Bindings leave each namespace with one mapping. -/
theorem single_bindAll (bindings : List (Text × Path)) : (bindAll bindings).Single := by
  induction bindings using List.reverseRecOn with
  | nil => exact List.nodup_nil
  | append_singleton bindings binding ih =>
    rw [bindAll_concat]
    exact ih.insert _ _

/-- The mapping that covers a class is the longest of the last ones bound. -/
theorem covering?_bindAll : (bindAll bindings).covering? name = some mapping ↔
    Longest (lastBound? bindings) name mapping := by
  rw [(single_bindAll bindings).covering?_eq_some_iff, find?_bindAll]

/-- Where the same is bound last, every class lies in the same file. -/
theorem covering?_bindAll_congr {others : List (Text × Path)}
    (h : ∀ written, lastBound? others (normalize written) =
      lastBound? bindings (normalize written)) (name : ClassName) :
    (bindAll others).covering? name = (bindAll bindings).covering? name := by
  have hlast : lastBound? others = lastBound? bindings := by
    funext space
    by_cases hspace : ∃ written, normalize written = space
    · obtain ⟨written, rfl⟩ := hspace
      exact h written
    · have hne : ∀ binding : Text × Path, normalize binding.1 ≠ space := fun binding heq =>
        hspace ⟨_, heq⟩
      rw [lastBound?_eq_none fun binding _ => hne binding,
        lastBound?_eq_none fun binding _ => hne binding]
  refine Option.ext fun mapping => ?_
  rw [covering?_bindAll, covering?_bindAll, hlast]

/-- **The longest namespace decides, and the order of binding does not matter.** Whatever has been
bound before, binding a namespace gives the directory it was bound to last. A class that no
namespace covers lies nowhere. Any other lies in the directory that the longest namespace covering
it was bound to last, below it one name for each segment that is left of the class name. So two
sequences that bind each namespace to the same directory last lead to the same file. -/
theorem bindAll_resolve (hname : name.WellFormed) (bindings : List (Text × Path)) :
    (∀ space directory, (bindAll bindings).getThenInsert? space directory =
      (lastBound? bindings (normalize space), bindAll (bindings ++ [(space, directory)]))) ∧
    ((¬∃ binding ∈ bindings, normalize binding.1 <+: name.text) →
      (bindAll bindings).resolve name = .error (.unresolvablePath name.text)) ∧
    ((∃ binding ∈ bindings, normalize binding.1 <+: name.text) →
      ∃ mapping segments last, Longest (lastBound? bindings) name mapping ∧
        name.text = mapping.space ++ ['\\'].intercalate (segments ++ [last]) ∧
        (∀ segment ∈ segments ++ [last], isIdentifier segment = true) ∧
        (bindAll bindings).resolve name = .ok (Path.join mapping.directory
          (['/'].intercalate (segments ++ [last ++ ".php".toList])))) ∧
    ∀ others, (∀ space, lastBound? others (normalize space) =
        lastBound? bindings (normalize space)) →
      (bindAll others).resolve name = (bindAll bindings).resolve name := by
  refine ⟨fun space directory => ?_, fun hnone => ?_, fun hsome => ?_, fun others hothers => ?_⟩
  · rw [bindAll_concat, ← find?_bindAll]
    rfl
  · cases hcovering : (bindAll bindings).covering? name with
    | none =>
      rw [resolve, hcovering]
    | some mapping =>
      have hlongest := covering?_bindAll.1 hcovering
      obtain ⟨binding, hmem, hspace⟩ :=
        isSome_lastBound?_iff.1 (Option.isSome_of_eq_some hlongest.bound_eq)
      exact absurd ⟨binding, hmem, hspace ▸ hlongest.covers⟩ hnone
  · obtain ⟨binding, hmem, hcovers⟩ := hsome
    have hbound : ((bindAll bindings).find? (normalize binding.1)).isSome := by
      rw [find?_bindAll]
      exact isSome_lastBound?_iff.2 ⟨binding, hmem, rfl⟩
    obtain ⟨mapping, hmapping⟩ := (single_bindAll bindings).exists_longest hbound hcovers
    have hcovering := (single_bindAll bindings).covering?_of_longest hmapping
    rw [find?_bindAll] at hmapping
    obtain ⟨other, -, hspace⟩ :=
      isSome_lastBound?_iff.1 (Option.isSome_of_eq_some hmapping.bound_eq)
    obtain ⟨segments, last, htext, hsegments⟩ :=
      exists_segments hname (hspace ▸ hmapping.covers)
    rw [hspace] at htext
    refine ⟨mapping, segments, last, hmapping, htext, hsegments, ?_⟩
    rw [resolve, hcovering]
    exact congrArg Except.ok (file_eq htext hsegments)
  · rw [resolve, resolve, covering?_bindAll_congr hothers]

/-- Of two namespaces the longer one decides, and the one that is bound again is where it was bound
last, as if it had been bound only then. -/
theorem bindAll_resolve_login :
    let name : ClassName := ⟨"App\\Admin\\Form\\Login".toList⟩
    let bindings := [("\\App".toList, "/old".toList),
      ("App\\Admin\\".toList, "modules/Admin/".toList), ("App\\".toList, "/src/App".toList)]
    let others := [("App".toList, "/src/App".toList),
      ("App\\Admin".toList, "modules/Admin/".toList)]
    name.WellFormed ∧
      (bindAll bindings).getThenInsert? "App".toList "/new".toList =
        (some "/src/App".toList, bindAll (bindings ++ [("App".toList, "/new".toList)])) ∧
      (∃ mapping, Longest (lastBound? bindings) name mapping ∧
        mapping.space = "App\\Admin\\".toList) ∧
      (bindAll bindings).resolve name = .ok "modules/Admin/Form/Login.php".toList ∧
      (bindAll others).resolve name = (bindAll bindings).resolve name := by
  intro name bindings others
  have hname : name.WellFormed := by
    have hparse : ClassName.parse name.text = .ok name := by decide +kernel
    exact ClassName.wellFormed_of_parse hparse
  have hspaces : ∀ binding ∈ bindings ++ others,
      normalize binding.1 ∈ ["App\\".toList, "App\\Admin\\".toList] := by decide +kernel
  have hsame : ∀ space ∈ ["App\\".toList, "App\\Admin\\".toList],
      lastBound? others space = lastBound? bindings space := by decide +kernel
  have hothers : ∀ written, lastBound? others (normalize written) =
      lastBound? bindings (normalize written) := by
    intro written
    by_cases hmem : normalize written ∈ ["App\\".toList, "App\\Admin\\".toList]
    · exact hsame _ hmem
    · have hne : ∀ binding ∈ bindings ++ others, normalize binding.1 ≠ normalize written :=
        fun binding hbinding heq => hmem (heq ▸ hspaces binding hbinding)
      rw [lastBound?_eq_none fun binding h => hne binding (List.mem_append_right _ h),
        lastBound?_eq_none fun binding h => hne binding (List.mem_append_left _ h)]
  obtain ⟨hinsert, -, hlongest, hcongr⟩ := bindAll_resolve hname bindings
  have hcovers : ∃ binding ∈ bindings, normalize binding.1 <+: name.text :=
    ⟨_, List.mem_cons_self, by decide +kernel⟩
  obtain ⟨mapping, segments, last, hmapping, -, -, -⟩ := hlongest hcovers
  have hfound : (bindAll bindings).covering? name =
      some ⟨"App\\Admin\\".toList, "modules/Admin/".toList⟩ := by decide +kernel
  refine ⟨hname, (hinsert _ _).trans (congrArg (·, _) (by decide +kernel)),
    ⟨mapping, hmapping, ?_⟩, by decide +kernel, hcongr others hothers⟩
  rw [(covering?_bindAll.1 hfound).unique hmapping]

end Autoload
end Scaffold
