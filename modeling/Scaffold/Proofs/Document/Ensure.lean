/-
# Creating a section

A section is created key by key: each round appends an empty literal under the first missing key
(`exists_created`). The literal is read back where it was put, so the next round goes one key
further, and the rounds that the path has keys for are enough (`exists_rounds`). They leave one new
entry in the first literal and one in each new one (`Created`). Nothing fails once the path can be
walked, and the documents differ on the way to the section alone (`exists_ensured`).
-/

import Scaffold.Proofs.Document.Append
import Scaffold.Proofs.Document.Frame

namespace Scaffold
namespace Config

open Script (ArrayLiteral ArrayStyle)

namespace Document

/-- The keys lead to the literal `m` of the second document, which is the first one if they lead to
a literal of that, and otherwise the first one with `m` as a new, empty section. -/
structure Ensured (document document' : Document) (keys : List Text) (m : ArrayLiteral) :
    Prop where
  isRead : document'.IsRead
  leads : Leads document' document'.file.root keys m
  framed : Framed document document' (fun q => ¬q <+: keys) keys
  found_or_created : document' = document ∨
    m.items = [] ∧ ∀ n, ¬Leads document document.file.root keys n

variable {document : Document}

/-- The frame of a key that is missing on a path, seen from the path. -/
theorem Framed.of_missing {document' : Document} {shared keys : List Text} {key : Text}
    {parent : ArrayLiteral}
    (h : Framed document document' (fun q => ¬q <+: shared ∧ ¬shared ++ [key] <+: q)
      (shared ++ [key]))
    (hparent : Leads document document.file.root shared parent)
    (hmissing : document.matching parent (.known key) = []) (hkeys : shared ++ [key] <+: keys) :
    Framed document document' (fun q => ¬q <+: keys) keys := by
  refine { h with same := fun hq hm => ?_, way := fun hq hm => ?_ }
  · have hshared : shared <+: keys := (List.prefix_append shared [key]).trans hkeys
    exact h.same ⟨fun hp => hq (hp.trans hshared),
      fun hp => hparent.not_of_missing hmissing hp hm⟩ hm
  · refine h.way ?_ hm
    rcases List.prefix_or_prefix_of_prefix hq hkeys with hp | hp
    · exact hp
    · rcases List.prefix_concat_iff.1 hp with hp | hp
      · exact hp ▸ List.prefix_refl _
      · exact absurd hm (hparent.not_of_missing hmissing hp)

/-! ### What a round adds -/

/-- The literal `l'` is the literal `l` with one more entry, which comes last and has the key. -/
def Extended (document document' : Document) (key : Text) (l l' : ArrayLiteral) : Prop :=
  l'.style = l.style ∧ document'.outline l' key =
    document.outline l key ++ [(some (document.written (.string key)), none)]

/-- From the literal `l` on, each of the keys has the only entry of its literal, and the literal `m`
that they lead to is empty. All these literals are written in one style. -/
inductive Chained (document : Document) (style : ArrayStyle) :
    ArrayLiteral → List Text → ArrayLiteral → Prop
  | last {l : ArrayLiteral} (style_eq : l.style = style) (empty : l.items = []) :
      Chained document style l [] l
  | next {l n m : ArrayLiteral} {key : Text} {keys : List Text} (style_eq : l.style = style)
      (only : document.outline l key = [(some (document.written (.string key)), none)])
      (leads : Leads document l [key] n) (later : Chained document style n keys m) :
      Chained document style l (key :: keys) m

/-- The second document is the first one with a new entry for the key `key` in the literal `parent`
that the keys `shared` lead to. The keys `deeper` lead on from there to the new, empty literal `m`,
and nothing has changed beside the way. -/
structure Created (document document' : Document) (shared : List Text) (key : Text)
    (deeper : List Text) (parent m : ArrayLiteral) : Prop where
  isRead : document'.IsRead
  framed : Framed document document' (fun q => ¬q <+: shared ++ key :: deeper)
    (shared ++ key :: deeper)
  extended : ∃ parent' n, Leads document' document'.file.root shared parent' ∧
    Extended document document' key parent parent' ∧ Leads document' parent' [key] n ∧
    Chained document' document.style n deeper m

/-- An empty literal has no outline. -/
theorem outline_of_empty {l : ArrayLiteral} (h : l.items = []) (key : Text) :
    document.outline l key = [] := by
  rw [outline, h, List.map_nil]

/-- A chain of literals leads along its keys. -/
theorem Chained.leads {style : ArrayStyle} {l m : ArrayLiteral} {keys : List Text}
    (h : Chained document style l keys m) : Leads document l keys m := by
  induction h with
  | last => exact .here _
  | next _ _ leads _ ih => exact leads.append ih

/-- A chain of literals ends in one without items. -/
theorem Chained.items_eq_nil {style : ArrayStyle} {l m : ArrayLiteral} {keys : List Text}
    (h : Chained document style l keys m) : m.items = [] := by
  induction h with
  | last _ empty => exact empty
  | next _ _ _ _ ih => exact ih

/-- A created section is where its path leads. -/
theorem Created.leads {document' : Document} {shared deeper : List Text} {key : Text}
    {parent m : ArrayLiteral} (h : Created document document' shared key deeper parent m) :
    Leads document' document'.file.root (shared ++ key :: deeper) m := by
  obtain ⟨parent', n, hparent, -, hn, hchained⟩ := h.extended
  exact hparent.append (hn.append hchained.leads)

/-- A created section is empty. -/
theorem Created.items_eq_nil {document' : Document} {shared deeper : List Text} {key : Text}
    {parent m : ArrayLiteral} (h : Created document document' shared key deeper parent m) :
    m.items = [] := by
  obtain ⟨_, _, -, -, -, hchained⟩ := h.extended
  exact hchained.items_eq_nil

/-- An appended item with the key extends its literal. -/
theorem Appended.extended {document' : Document} {key : Text} {l l' : ArrayLiteral}
    {item' : Script.Item} (h : Appended document document' key l l' item')
    (hn : document'.file.names = document.file.names)
    (hwritten : item'.key.map (·.written document'.source) =
      some (document.written (.string key))) : Extended document document' key l l' := by
  refine ⟨h.style_eq, ?_⟩
  obtain ⟨before', hl', hb⟩ := h.items_eq
  unfold outline
  rw [hl', List.map_append, outline_twin hn key hb, List.map_singleton, h.hasKey, hwritten]
  rfl

/-- What has been extended by a key stays so while the value of the key changes. -/
theorem Extended.trans {document₁ document₂ : Document} {key : Text} {l l₁ l₂ : ArrayLiteral}
    (h : Extended document document₁ key l l₁) (hpresent : document₁.matching l₁ (.known key) ≠ [])
    (hone : OneEntry document₁ document₂ key l₁ l₂) : Extended document document₂ key l l₂ := by
  rcases hone.outline_eq with ⟨-, houtline⟩ | ⟨hmissing, -⟩
  · exact ⟨hone.style_eq.trans h.1, houtline.trans h.2⟩
  · exact absurd hmissing hpresent

/-- An edit of a section changes the style of no literal on the way. -/
theorem Framed.style_eq {document' : Document} {kept : List Text → Prop} {key : Text}
    {keys : List Text} (h : Framed document document' kept (key :: keys)) :
    document'.style = document.style := by
  obtain ⟨root', hroot', hone⟩ := h.way (q := []) (List.prefix_append [key] keys) (.here _)
  cases hroot'
  exact hone.style_eq

/-- **One round creates one section.** -/
theorem exists_created (hread : document.IsRead) {shared : List Text} {parent : ArrayLiteral}
    (hparent : Leads document document.file.root shared parent) {key : Text}
    (hmissing : document.matching parent (.known key) = []) :
    ∃ document' n,
      document.splice (insertItem document.source parent
        (document.writtenItem (.string key) document.style.emptyLiteral)) = .ok document' ∧
      Created document document' shared key [] parent n ∧
      Framed document document' (fun q => ¬q <+: shared ∧ ¬shared ++ [key] <+: q)
        (shared ++ [key]) := by
  have hrepresentable : Literal.Representable (.string key) := trivial
  obtain ⟨kps, hk, hkey⟩ := Literal.exists_fragment hrepresentable document.file.names
  obtain ⟨vps, hv, hnested⟩ := emptyLiteral_fragment document.style
  obtain ⟨document', m', key', value, comma, offset, hsplice, hedited, happended, hkw, -, hvalue⟩ :=
    exists_appended hread hparent hmissing hk hv hkey
  obtain ⟨n, hn, hempty, hstyle⟩ := hnested offset
  have hstep : Leads document' m' [key] n :=
    .step (happended.matching hedited.names_eq) (by rw [hvalue, hn]) (.here n)
  have hframed := hedited.framed (Or.inr ⟨_, happended⟩)
  have hextended : Extended document document' key parent m' :=
    happended.extended hedited.names_eq (by rw [Option.map_some, hkw, written])
  exact ⟨document', n, hsplice,
    ⟨hedited.isRead, hframed.of_missing hparent hmissing (List.prefix_refl _), m', n,
      hedited.leads hparent, hextended, hstep, .last hstyle hempty⟩, hframed⟩

/-- The empty literal has no item for a key. -/
theorem matching_of_empty {l : ArrayLiteral} (h : l.items = []) (wanted : Script.Value) :
    document.matching l wanted = [] := by
  rw [matching_eq, h, List.filter_nil]

/-- A section that is created in one that has just been created. -/
theorem Created.trans {document₁ document₂ : Document} {shared deeper : List Text}
    {key next : Text} {parent n m : ArrayLiteral}
    (h : Created document document₁ shared key [] parent n)
    (hframed : Framed document document₁ (fun q => ¬q <+: shared ++ key :: next :: deeper)
      (shared ++ key :: next :: deeper))
    (h' : Created document₁ document₂ (shared ++ [key]) next deeper n m) :
    Created document document₂ shared key (next :: deeper) parent m := by
  have hkeys : shared ++ [key] ++ next :: deeper = shared ++ key :: next :: deeper := by
    rw [List.append_assoc, List.singleton_append]
  have hframed₂ := h'.framed
  rw [hkeys] at hframed₂
  refine ⟨h'.isRead, hframed.trans hframed₂, ?_⟩
  obtain ⟨parent₁, n₁, hparent₁, hextended₁, hn₁, hlast⟩ := h.extended
  cases hlast with
  | last hstyle hempty =>
    obtain ⟨n₂, o, hn₂, hextended₂, ho, hchained⟩ := h'.extended
    -- the parent was extended in the first round, and the second one changes a value in it
    obtain ⟨parent₂, hparent₂, hone⟩ := hframed₂.way
      ((List.prefix_append_right_inj shared).2 (List.prefix_append [key] (next :: deeper))) hparent₁
    obtain ⟨item, hitem⟩ := hn₁.present (q := []) (List.prefix_refl _) (.here _)
    have hextended := hextended₁.trans (by rw [hitem]; exact List.cons_ne_nil _ _) hone
    obtain ⟨parent', hparent', hstep⟩ := hn₂.split
    obtain rfl := hparent₂.unique hparent'
    have hdocument : document₁.style = document.style := by
      cases shared with
      | nil => exact Framed.style_eq hframed
      | cons => exact Framed.style_eq hframed
    have hnames : document₂.file.names = document₁.file.names := hframed₂.names_eq
    refine ⟨parent₂, n₂, hparent₂, hextended, hstep,
      .next (hextended₂.1.trans hstyle) ?_ ho (hdocument ▸ hchained)⟩
    rw [hextended₂.2, outline_of_empty hempty, List.nil_append, written, written, hnames]

/-! ### The rounds -/

/-- The rounds of `ensureWithin`: the document after each of them, and how they end. -/
def rounds (limit : Nat) (path : SectionPath) (document : Document) :
    List Document × Except DocumentError ArrayLiteral :=
  match document.locate path with
  | .error e => ([], .error e)
  | .ok (.found literal) => ([], .ok literal)
  | .ok (.missing parent reached key deeper) =>
    if deeper.length < limit then
      let item := document.writtenItem (.string key) document.style.emptyLiteral
      match document.splice (insertItem document.source parent item) with
      | .error e => ([], .error e)
      | .ok changed => (rounds deeper.length path changed).map (changed :: ·) id
    else
      let problem : Problem := .sectionNotCreated ⟨reached ++ [key]⟩
      ([], .error (.malformedAt document.source parent.start problem))
termination_by limit

/-- What the rounds leave is the document after the last of them. -/
theorem ensureWithin_eq_rounds (limit : Nat) (path : SectionPath) (document : Document) :
    document.ensureWithin limit path =
      ((document.rounds limit path).1.getLastD document, (document.rounds limit path).2) := by
  fun_induction ensureWithin limit path document with
  | case1 limit document e hlocate => rw [rounds, hlocate]; rfl
  | case2 limit document literal hlocate => rw [rounds, hlocate]; rfl
  | case3 limit document parent reached key deeper hlocate hlimit item e hsplice =>
    rw [rounds, hlocate]
    simp only [hlimit, if_true, hsplice, item]
    rfl
  | case4 limit document parent reached key deeper hlocate hlimit item changed hsplice ih =>
    rw [rounds, hlocate, ih]
    simp only [hlimit, if_true, item] at hsplice ⊢
    simp only [hsplice, Prod.map, List.getLastD_cons, id_eq]
  | case5 limit document parent reached key deeper hlocate hlimit problem =>
    rw [rounds, hlocate]
    simp only [hlimit, if_false, problem]
    rfl

/-- A round creates the first key that is missing on the path. -/
theorem exists_round (hread : document.IsRead) {path : SectionPath} {limit : Nat}
    {shared deeper : List Text} {key : Text} {parent : ArrayLiteral}
    (hkeys : path.keys = shared ++ key :: deeper)
    (hparent : Leads document document.file.root shared parent)
    (hmissing : document.matching parent (.known key) = []) (hlimit : deeper.length < limit) :
    ∃ document₁ n, document.rounds limit path =
        (document₁.rounds deeper.length path).map (document₁ :: ·) id ∧
      Created document document₁ shared key [] parent n ∧
      Framed document document₁ (fun q => ¬q <+: path.keys) path.keys := by
  have hlocate : document.locate path = .ok (.missing parent shared key deeper) :=
    walk_eq_missing_iff.2 ⟨shared, hkeys, rfl, hparent, hmissing⟩
  obtain ⟨document₁, n, hsplice, hcreated, hframed⟩ := exists_created hread hparent hmissing
  refine ⟨document₁, n, ?_, hcreated, hframed.of_missing hparent hmissing ?_⟩
  · rw [rounds, hlocate]
    simp only [hlimit, if_true, hsplice]
  · rw [hkeys]
    exact (List.prefix_append_right_inj shared).2 (List.prefix_append [key] deeper)

/-- **The rounds that are left create the keys that are left**, one key in each round. -/
theorem exists_rounds (hread : document.IsRead) {path : SectionPath} {limit : Nat}
    {shared deeper : List Text} {key : Text} {parent : ArrayLiteral}
    (hkeys : path.keys = shared ++ key :: deeper)
    (hparent : Leads document document.file.root shared parent)
    (hmissing : document.matching parent (.known key) = []) (hlimit : deeper.length < limit) :
    ∃ documents m, document.rounds limit path = (documents, .ok m) ∧
      documents.length = deeper.length + 1 ∧
      Created document (documents.getLastD document) shared key deeper parent m := by
  induction deeper generalizing document limit shared key parent with
  | nil =>
    obtain ⟨document₁, n, hround, hcreated, -⟩ :=
      exists_round hread hkeys hparent hmissing hlimit
    have hn := hcreated.leads
    rw [← hkeys] at hn
    have hlocate₁ : document₁.locate path = .ok (.found n) := walk_eq_found_iff.2 hn
    refine ⟨[document₁], n, ?_, rfl, hcreated⟩
    rw [hround, rounds, hlocate₁]
    rfl
  | cons next deeper ih =>
    obtain ⟨document₁, n, hround, hcreated, hframed⟩ :=
      exists_round hread hkeys hparent hmissing hlimit
    have hkeys₁ : path.keys = shared ++ [key] ++ next :: deeper := by
      rw [hkeys, List.append_assoc, List.singleton_append]
    obtain ⟨documents, m, hrounds, hlength, hrest⟩ := ih hcreated.isRead hkeys₁ hcreated.leads
      (matching_of_empty hcreated.items_eq_nil _) (Nat.lt_succ_self _)
    refine ⟨document₁ :: documents, m, ?_, by rw [List.length_cons, hlength, List.length_cons], ?_⟩
    · rw [hround, List.length_cons, hrounds]
      rfl
    · rw [List.getLastD_cons]
      exact hcreated.trans (hkeys ▸ hframed) hrest

/-- Where the walk along a path fails, nothing is created. -/
theorem ensure_of_error {path : SectionPath} {e : DocumentError}
    (h : document.locate path = .error e) : document.ensure path = (document, .error e) := by
  rw [ensure, ensureWithin, h]

/-- A section that is there is found, and nothing is created. -/
theorem ensure_of_leads {path : SectionPath} {m : ArrayLiteral}
    (h : Leads document document.file.root path.keys m) :
    document.ensure path = (document, .ok m) := by
  have hlocate : document.locate path = .ok (.found m) := walk_eq_found_iff.2 h
  rw [ensure, ensureWithin, hlocate]

/-- **A section whose path can be walked is there or is created.** -/
theorem exists_ensured (hread : document.IsRead) {path : SectionPath}
    (h : ∀ e, document.locate path ≠ .error e) :
    ∃ document' m, document.ensure path = (document', .ok m) ∧
      Ensured document document' path.keys m := by
  cases hlocate : document.locate path with
  | error e => exact absurd hlocate (h e)
  | ok located =>
    cases located with
    | found m =>
      have hm : Leads document document.file.root path.keys m := walk_eq_found_iff.1 hlocate
      exact ⟨document, m, ensure_of_leads hm, hread, hm, .refl hm.present, Or.inl rfl⟩
    | missing parent reached key deeper =>
      obtain ⟨shared, hkeys, -, hparent, hmissing⟩ := walk_eq_missing_iff.1 hlocate
      have hlimit : deeper.length < path.keys.length := by
        rw [hkeys, List.length_append, List.length_cons]
        omega
      obtain ⟨documents, m, hrounds, -, hcreated⟩ :=
        exists_rounds hread hkeys hparent hmissing hlimit
      have hprefix : shared ++ [key] <+: path.keys := by
        rw [hkeys]
        exact List.prefix_append_right_inj shared |>.2 (List.prefix_append [key] deeper)
      refine ⟨documents.getLastD document, m, ?_, hcreated.isRead, hkeys ▸ hcreated.leads,
        hkeys ▸ hcreated.framed,
        Or.inr ⟨hcreated.items_eq_nil, fun n => hparent.not_of_missing hmissing hprefix⟩⟩
      rw [ensure, ensureWithin_eq_rounds, hrounds]

end Document
end Config
end Scaffold
