/-
# The same expressions in another source text

After an edit the untouched parts of a source text stand elsewhere. Two expressions are twins if
the tokens of one are those of the other, moved, and the text between them is the same. Twins are
written alike and evaluate alike, and the literals nested in them are twins too
(`ExpressionTwin.read?`).
-/

import Scaffold.Script.Value
import Scaffold.Proofs.Literal.Spans
import Mathlib.Data.List.Forall2

namespace Scaffold
namespace Script

/-- Between any two of the tokens the first source text holds what the second one holds between
the moved tokens. -/
def Carried (source source' : Text) (origin target : Nat) (ts : List Token) : Prop :=
  ∀ t ∈ ts, ∀ u ∈ ts, source'.slice (t.move origin target).start (u.move origin target).stop =
    source.slice t.start u.stop

/-- Some of the tokens that are carried are carried. -/
theorem Carried.mono {source source' : Text} {origin target : Nat} {ts us : List Token}
    (h : Carried source source' origin target ts) (hs : us ⊆ ts) :
    Carried source source' origin target us :=
  fun t ht u hu => h t (hs ht) u (hs hu)

/-- A slice within the first of two texts does not see the second. -/
theorem slice_append_left {a : Text} {start stop : Nat} (h : stop ≤ a.length) (b : Text) :
    (a ++ b).slice start stop = a.slice start stop := by
  unfold Text.slice
  by_cases hs : start ≤ a.length
  · rw [List.drop_append_of_le_length hs, List.take_append_of_le_length]
    rw [List.length_drop]
    omega
  · rw [show stop - start = 0 by omega, List.take_zero, List.take_zero]

/-- A slice within the second of two texts does not see the first. -/
theorem slice_append_right {a b : Text} {start stop : Nat} (h : a.length ≤ start) :
    (a ++ b).slice start stop = b.slice (start - a.length) (stop - a.length) := by
  unfold Text.slice
  rw [List.drop_append, List.drop_eq_nil_of_le h, List.nil_append]
  congr 1
  omega

/-- Tokens before an edit stay where they are. -/
theorem Carried.before {a : Text} {ts : List Token} (h : ∀ t ∈ ts, t.stop ≤ a.length)
    (b b' : Text) : Carried (a ++ b) (a ++ b') 0 0 ts := by
  intro t _ u hu
  rw [Token.move_self, Token.move_self, slice_append_left (h u hu), slice_append_left (h u hu)]

/-- Tokens after an edit move with their text. -/
theorem Carried.after {a : Text} {ts : List Token} (h : ∀ t ∈ ts, a.length ≤ t.start)
    (a' b : Text) :
    Carried (a ++ b) (a' ++ b) a.length a'.length ts := by
  intro t ht u hu
  have htstart := h t ht
  have hustart := h u hu
  rw [slice_append_right htstart, slice_append_right (by simp [Token.move])]
  have hstart : (t.move a.length a'.length).start - a'.length = t.start - a.length := by
    simp [Token.move]
  have hstop : (u.move a.length a'.length).stop - a'.length = u.stop - a.length := by
    simp only [Token.move, Token.stop]
    omega
  rw [hstart, hstop]

/-- The expression `e'` of the second source text is the expression `e` of the first one. -/
def ExpressionTwin (source source' : Text) (e e' : Expression) : Prop :=
  ∃ origin target, e' = e.move origin target ∧ Carried source source' origin target e.tokens

/-- Key and value are twins; the comma does not count. -/
def ItemTwin (source source' : Text) (i i' : Item) : Prop :=
  Option.Rel (ExpressionTwin source source') i.key i'.key ∧
    ExpressionTwin source source' i.value i'.value

/-- The literals are written alike and list twins. -/
def LiteralTwin (source source' : Text) (l l' : ArrayLiteral) : Prop :=
  l'.style = l.style ∧ List.Forall₂ (ItemTwin source source') l.items l'.items

section
variable {source source' : Text}

/-- An item that is carried is a twin of the moved item. -/
theorem Item.move_twin {i : Item} {origin target : Nat}
    (h : Carried source source' origin target i.tokens) :
    ItemTwin source source' i (i.move origin target) := by
  obtain ⟨key, value, comma⟩ := i
  refine ⟨?_, origin, target, rfl, h.mono (List.subset_append_right _ _)⟩
  cases key with
  | none => exact .none
  | some key => exact .some ⟨origin, target, rfl, h.mono (List.subset_append_left _ _)⟩

/-- Items before an edit are their own twins, whatever their commas. -/
theorem ItemTwin.of_before {i i' : Item} (h : Carried source source' 0 0 i.tokens)
    (hk : i'.key = i.key) (hv : i'.value = i.value) : ItemTwin source source' i i' := by
  have := Item.move_twin h
  obtain ⟨key, value, comma⟩ := i
  obtain ⟨key', value', comma'⟩ := i'
  obtain rfl := hk
  obtain rfl := hv
  refine ⟨?_, ?_⟩
  · have hkey := this.1
    cases key' with
    | none => exact .none
    | some key => simpa [Item.move] using hkey
  · simpa [Item.move] using this.2

/-- Twins are written alike. -/
theorem ExpressionTwin.written_eq {e e' : Expression} (h : ExpressionTwin source source' e e') :
    e'.written source' = e.written source := by
  obtain ⟨origin, target, rfl, hc⟩ := h
  have := hc _ (List.head_mem e.nonempty) _ (List.getLast_mem e.nonempty)
  unfold Expression.written Expression.start Expression.stop
  simpa [List.head_map, List.getLast_map] using this

/-- Twins evaluate alike. -/
theorem ExpressionTwin.evaluate_eq {e e' : Expression} (h : ExpressionTwin source source' e e')
    (names : Names) : e'.evaluate source' names = e.evaluate source names := by
  have hw := h.written_eq
  obtain ⟨origin, target, rfl, -⟩ := h
  unfold Expression.evaluate
  rw [hw]
  obtain ⟨ts, hne⟩ := e
  rcases ts with _ | ⟨a, _ | ⟨b, _ | ⟨c, _ | ⟨d, ts⟩⟩⟩⟩ <;> rfl

/-- A literal nested in an expression is nested in its twin. -/
theorem ExpressionTwin.read? {e e' : Expression} (h : ExpressionTwin source source' e e')
    {l : ArrayLiteral} (hr : ArrayLiteral.read? e.tokens = .ok (some (l, []))) :
    ∃ l', ArrayLiteral.read? e'.tokens = .ok (some (l', [])) ∧ LiteralTwin source source' l l' := by
  obtain ⟨origin, target, rfl, hc⟩ := h
  obtain ⟨op, I, c, he, hspans⟩ := read?_eq_some_iff.1 hr
  obtain ⟨l', hspans', hstyle, hitems⟩ := hspans.move origin target
  refine ⟨l', read?_eq_some_iff.2 ⟨_, _, _, ?_, hspans'⟩, hstyle, ?_⟩
  · rw [Expression.move_tokens, he]
    simp
  · rw [hitems, List.forall₂_map_right_iff]
    refine List.forall₂_same.2 fun i hi => Item.move_twin (hc.mono fun t ht => ?_)
    rw [he]
    exact List.mem_append_right _ (List.mem_append_left _ (hspans.listing.tokens_subset i hi ht))

end

end Script
end Scaffold
