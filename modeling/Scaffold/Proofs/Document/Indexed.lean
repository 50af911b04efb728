/-
# The literals of a document, told by indexes

Reading the returned array matches the brackets inside a value without looking into it, and a nested
literal is read when a walk comes to its value. `Indexed document l` says that `l` is the returned
array or is read, in this way, at the first token of a value of another such literal; these are all
the literals that walks come to (`Indexed.of_leads`).

A document is what its text is read as, so the tokens of the returned array stand in a row among
its tokens. From there on the rows of the items are nested in the rows of the literals, however
deep (`Indexed.exists_rows`): reading a nested literal finds no bracket out of place, and what it
reads stays within the value (`nested_within`).
-/

import Scaffold.Proofs.Document.Lookup
import Scaffold.Proofs.Document.Reachable
import Scaffold.Proofs.Literal.Ranges

namespace Scaffold
namespace Config

open Script (ArrayLiteral FaultAt InOrder Item LiteralAt NestedAt Occupies RowsAt Spans Token)

/-- The literal that a path leads to, or the last one on the way. -/
def Located.literal : Located → ArrayLiteral
  | .found literal => literal
  | .missing parent _ _ _ => parent

namespace Document

variable {document : Document}

/-- The literals of a document: the one that is returned, and those that are read at the first token
of a value. -/
inductive Indexed (document : Document) : ArrayLiteral → Prop
  | root : Indexed document document.file.root
  | nested {l n : ArrayLiteral} {item : Item} {first last : Nat} {rest : List Token}
      (parent : Indexed document l) (mem : item ∈ l.items)
      (value : Occupies document.file.tokens item.value.tokens first last)
      (read : ArrayLiteral.read? (document.file.tokens.drop first) = .ok (some (n, rest))) :
      Indexed document n

/-- The tokens of a document that was read are in order. -/
theorem IsRead.inOrder (h : document.IsRead) : InOrder document.source document.file.tokens := by
  obtain ⟨P, r, op, I, c, E, htokenize, htokens, -⟩ := Script.SourceFile.read_eq_ok_iff.1 h
  rw [htokens]
  exact Script.inOrder_of_tokenize htokenize

/-- The tokens of a literal stand in a row among those of the document. -/
theorem Indexed.exists_spans (h : document.IsRead) {l : ArrayLiteral}
    (hl : Indexed document l) : ∃ us op I c rest,
      document.file.tokens = us ++ (op ++ (I ++ c :: rest)) ∧ Spans op I c l := by
  cases hl with
  | root =>
    obtain ⟨P, r, op, I, c, E, -, htokens, -, hspans, -⟩ := Script.SourceFile.read_eq_ok_iff.1 h
    exact ⟨P ++ [r], op, I, c, E, by rw [htokens, List.append_assoc, List.singleton_append], hspans⟩
  | @nested _ _ _ first _ rest _ _ _ read =>
    obtain ⟨op, I, c, hdrop, hspans⟩ := Script.read?_eq_some_iff.1 read
    exact ⟨document.file.tokens.take first, op, I, c, rest,
      by rw [← hdrop, List.take_append_drop], hspans⟩

/-- The literals and items of a document by their indexes. -/
theorem Indexed.exists_rows (h : document.IsRead) {l : ArrayLiteral} (hl : Indexed document l) :
    ∃ first last, RowsAt document.source document.file.tokens l first last := by
  obtain ⟨us, op, I, c, rest, htokens, hspans⟩ := hl.exists_spans h
  exact ⟨_, _, hspans.rowsAt h.inOrder htokens⟩

/-! ### Walks -/

/-- The item that matches is one of the items. -/
theorem mem_of_matching {l : ArrayLiteral} {wanted : Script.Value} {item : Item}
    (h : document.matching l wanted = [item]) : item ∈ l.items := by
  rw [matching_eq] at h
  exact List.mem_of_mem_filter (h ▸ List.mem_singleton_self item)

section
variable (h : document.IsRead) {l m : ArrayLiteral}
include h

/-- What is read from the tokens of a value alone is read at its first token. -/
theorem Indexed.exists_nestedAt (hl : Indexed document l) {item : Item} (hi : item ∈ l.items) :
    ∃ valueFirst valueLast,
      Occupies document.file.tokens item.value.tokens valueFirst valueLast ∧
      NestedAt document.source document.file.tokens l item valueFirst valueLast := by
  obtain ⟨first, last, hrows⟩ := hl.exists_rows h
  obtain ⟨valueFirst, valueLast, hvalue⟩ := hrows.exists_value item hi
  exact ⟨valueFirst, valueLast, hvalue, hrows.nested item hi valueFirst valueLast hvalue⟩

/-- A literal that is read from the value of an item is one of the document's. -/
theorem Indexed.of_read? (hl : Indexed document l) {item : Item} (hi : item ∈ l.items)
    {n : ArrayLiteral} {rest : List Token}
    (hread : ArrayLiteral.read? item.value.tokens = .ok (some (n, rest))) :
    Indexed document n := by
  obtain ⟨valueFirst, valueLast, hvalue, hnested⟩ := hl.exists_nestedAt h hi
  have halone := hnested.alone
  rw [hread] at halone
  exact .nested hl hi hvalue halone

/-- No fault of brackets is found in the value of an item. -/
theorem Indexed.not_ofBrackets (hl : Indexed document l) {item : Item} (hi : item ∈ l.items)
    {found : FaultAt} (hread : ArrayLiteral.read? item.value.tokens = .error found) :
    ¬found.fault.OfBrackets := by
  obtain ⟨valueFirst, valueLast, -, hnested⟩ := hl.exists_nestedAt h hi
  have halone := hnested.alone
  rw [hread] at halone
  exact hnested.fault found halone

/-- Keys lead from a literal of the document to a literal of the document. -/
theorem Indexed.of_leads {keys : List Text} (hl : Indexed document l)
    (hlead : Leads document l keys m) : Indexed document m := by
  induction hlead with
  | here => exact hl
  | step unique nested _ ih => exact ih (hl.of_read? h (mem_of_matching unique) nested)

/-- A walk ends at a literal of the document. -/
theorem Indexed.of_walk (hl : Indexed document l) {reached keys : List Text} {place : Located}
    (hwalk : document.walk l reached keys = .ok place) : Indexed document place.literal := by
  cases place with
  | found m => exact hl.of_leads h (walk_eq_found_iff.1 hwalk)
  | missing parent before key deeper =>
    obtain ⟨shared, -, -, hlead, -⟩ := walk_eq_missing_iff.1 hwalk
    exact hl.of_leads h hlead

/-- No walk comes to a bracket that is out of place. -/
theorem Indexed.walk_not_ofBrackets (hl : Indexed document l) {reached keys : List Text}
    {place : Position} {fault : Script.Fault}
    (hwalk : document.walk l reached keys = .error (.malformed place (.fault fault))) :
    ¬fault.OfBrackets := by
  induction keys generalizing l reached with
  | nil => cases hwalk
  | cons key keys ih =>
    rw [walk] at hwalk
    split at hwalk
    · rename_i e hfind
      cases hwalk
      unfold find? at hfind
      split at hfind <;> cases hfind
    · cases hwalk
    · rename_i item hfind
      have hi := mem_of_matching (find?_eq_ok_iff.1 hfind)
      split at hwalk
      · rename_i found hread
        cases hwalk
        exact hl.not_ofBrackets h hi hread
      · rename_i n hread
        exact ih (hl.of_read? h hi hread) hwalk
      · cases hwalk

end

/-- **Reading nested literals late is safe.**  Whatever a walk comes to in a document is one of its
literals, and no walk fails at a bracket. Each literal has a row of tokens of the document, and
each of its items a row of them between the brackets, the key before the value and the comma
behind it; their positions are parts of the source in the same order. What is read at the first
token of a value, without looking where the value ends, has no fault of brackets, and a literal that
is read there is closed by a token of the value and stands strictly inside the outer one. -/
theorem nested_within (h : Reachable document) :
    (∀ path, (∀ place, document.locate path = .ok place → Indexed document place.literal) ∧
      ∀ place fault, document.locate path = .error (.malformed place (.fault fault)) →
        ¬fault.OfBrackets) ∧
    ∀ l, Indexed document l →
      ∃ first last, RowsAt document.source document.file.tokens l first last := by
  refine ⟨fun path => ⟨fun place hlocate => ?_, fun place fault hlocate => ?_⟩, fun l hl => ?_⟩
  · exact Indexed.root.of_walk h.isRead hlocate
  · exact Indexed.root.walk_not_ofBrackets h.isRead hlocate
  · exact hl.exists_rows h.isRead

/-- The first value starts with a literal that has a fault, and is more than a literal; the second
one holds a literal in a literal. -/
theorem nested_within_at_fault :
    let document := ofText "<?php return ['a' => [1,, (2)] + $x, 'b' => array('c' => [0])];".toList
    document.Reachable ∧
      (∃ item, document.file.root.items.head? = some item ∧
        Occupies document.file.tokens item.value.tokens 5 14 ∧
        ArrayLiteral.read? (document.file.tokens.drop 5) = .error ⟨.emptyElement, 24⟩ ∧
        NestedAt document.source document.file.tokens document.file.root item 5 14) ∧
      ∃ place, document.locate ⟨["b".toList, "c".toList]⟩ = .ok place ∧
        Indexed document place.literal ∧ place.literal.start = 57 ∧
        ∃ first last, LiteralAt document.source document.file.tokens place.literal first last := by
  intro document
  have h : document.Reachable := ofText_reachable _
  obtain ⟨hpaths, hliterals⟩ := nested_within h
  obtain ⟨first, last, hrows⟩ := hliterals document.file.root .root
  refine ⟨h, ?_, ?_⟩
  · obtain ⟨item, hitem⟩ : ∃ item, document.file.root.items.head? = some item :=
      Option.isSome_iff_exists.1 (by decide +kernel)
    have htokens : document.file.root.items.head?.map (·.value.tokens) =
        some ((document.file.tokens.drop 5).take 10) := by decide +kernel
    rw [hitem] at htokens
    have hvalue : Occupies document.file.tokens item.value.tokens 5 14 :=
      ⟨by decide, by decide +kernel, Option.some.inj htokens⟩
    refine ⟨item, hitem, hvalue, by decide +kernel, ?_⟩
    exact hrows.nested item (List.mem_of_head? hitem) 5 14 hvalue
  · have hstart : (document.locate ⟨["b".toList, "c".toList]⟩).toOption.map (·.literal.start) =
        some 57 := by decide +kernel
    obtain ⟨place, hplace, hstart⟩ := Option.map_eq_some_iff.1 hstart
    have hlocate := Script.eq_ok_of_toOption hplace
    have hindexed := (hpaths _).1 place hlocate
    obtain ⟨first, last, hrows⟩ := hliterals _ hindexed
    exact ⟨place, hlocate, hindexed, hstart, first, last, hrows.literal⟩

end Document
end Config
end Scaffold
