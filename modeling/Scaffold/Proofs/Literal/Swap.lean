/-
# One part of a source text in the place of another

A swap puts a new text in the place of one part of a source text. What stands behind that part
moves with its text, so a swap relocates the tokens (`Swap.relocation`); if the part is a string,
that token gets the new text. Between two places outside the part the two source texts hold the
same, up to the part itself (`Swap.slice_alike`). Main statement: from corresponding tokens
corresponding array literals are read, with the same items up to the part (`Swap.read?_alike`).
-/

import Scaffold.Proofs.Literal.Relocation
import Scaffold.Proofs.Literal.Twin

namespace Scaffold
namespace Script

/-! ### Parts of a text -/

/-- A slice that would end before its start is empty. -/
theorem slice_of_le {text : Text} {start stop : Nat} (h : stop ≤ start) :
    text.slice start stop = [] := by
  rw [Text.slice, Nat.sub_eq_zero_of_le h, List.take_zero]

/-- A slice across the second of three texts holds all of it. -/
theorem slice_across (a b c : Text) {start stop : Nat} (hstart : start ≤ a.length)
    (hstop : a.length + b.length ≤ stop) :
    (a ++ (b ++ c)).slice start stop =
      a.drop start ++ (b ++ c.take (stop - a.length - b.length)) := by
  have ha : (a.drop start).length = a.length - start := List.length_drop
  rw [Text.slice, List.drop_append_of_le_length hstart, List.take_append, List.take_append,
    List.take_of_length_le (by omega), List.take_of_length_le (by omega), ha]
  congr 3
  omega

/-! ### Swaps -/

/-- A source text in four parts, of which `new` is to stand in the place of `old`. -/
structure Swap where
  before : Text
  old : Text
  new : Text
  after : Text
  ne_nil : old ≠ []

namespace Swap

variable (s : Swap)

/-- The text before the swap. -/
def source : Text := s.before ++ (s.old ++ s.after)

/-- The text after the swap. -/
def result : Text := s.before ++ (s.new ++ s.after)

/-- Where a position of the source is in the result. -/
def position (place : Nat) : Nat :=
  if place ≤ s.before.length then place else place - s.old.length + s.new.length

/-- The string that the old text may be. -/
def oldToken : Token := ⟨.string, s.before.length, s.old⟩

/-- The token of the result for a token of the source. -/
def token (t : Token) : Token :=
  ⟨t.kind, s.position t.start, if t = s.oldToken then s.new else t.text⟩

/-- A swap relocates the tokens. -/
def relocation : Relocation where
  position := s.position
  token := s.token
  kind_eq _ := rfl
  start_eq _ := rfl
  word_eq t hk := if_neg fun h => by
    rw [h] at hk
    cases hk

/-! ### What corresponds -/

/-- The second text is the first one, up to the old text, which may stand in it once. -/
def TextAlike (text text' : Text) : Prop :=
  text' = text ∨ ∃ x y, text = x ++ (s.old ++ y) ∧ text' = x ++ (s.new ++ y)

/-- The tokens are of one kind and have the same text, unless it is the old one. -/
structure TokenAlike (t t' : Token) : Prop where
  kind_eq : t'.kind = t.kind
  start_eq : t'.start = s.position t.start
  text : t'.text = t.text ∨ t = s.oldToken ∧ t'.text = s.new

/-- The expressions have corresponding tokens and are written alike. -/
structure ExpressionAlike (e e' : Expression) : Prop where
  tokens : List.Forall₂ s.TokenAlike e.tokens e'.tokens
  written : s.TextAlike (e.written s.source) (e'.written s.result)

/-- The items have corresponding keys, if any, and corresponding values. -/
structure ItemAlike (i i' : Item) : Prop where
  key : Option.Rel s.ExpressionAlike i.key i'.key
  value : s.ExpressionAlike i.value i'.value

/-- The literals are written in one style and list corresponding items. -/
structure LiteralAlike (l l' : ArrayLiteral) : Prop where
  style_eq : l'.style = l.style
  items : List.Forall₂ s.ItemAlike l.items l'.items

/-- Reading a literal comes to the same: to one fault, to nothing, or to corresponding literals
with corresponding tokens behind them. -/
inductive ReadAlike : Except FaultAt (Option (ArrayLiteral × List Token)) →
    Except FaultAt (Option (ArrayLiteral × List Token)) → Prop
  | fault (fault : Fault) (offset : Nat) :
      ReadAlike (.error ⟨fault, offset⟩) (.error ⟨fault, s.position offset⟩)
  | nothing : ReadAlike (.ok none) (.ok none)
  | literal {l l' : ArrayLiteral} {rest rest' : List Token} (literal : s.LiteralAlike l l')
      (later : List.Forall₂ s.TokenAlike rest rest') :
      ReadAlike (.ok (some (l, rest))) (.ok (some (l', rest')))

/-! ### Positions -/

/-- The place is not within the old text. -/
def Clear (place : Nat) : Prop :=
  place ≤ s.before.length ∨ s.before.length + s.old.length ≤ place

/-- The text that is swapped out is not empty. -/
theorem old_pos : 0 < s.old.length := List.length_pos_iff.2 s.ne_nil

/-- A position before the swap stays. -/
theorem position_of_le {place : Nat} (h : place ≤ s.before.length) : s.position place = place :=
  if_pos h

/-- A position behind the swap moves by the difference of the two texts. -/
theorem position_of_ge {place : Nat} (h : s.before.length + s.old.length ≤ place) :
    s.position place = place - s.old.length + s.new.length :=
  if_neg (by have := s.old_pos; omega)

/-- The length of the result is where the end of the source moves to. -/
theorem length_result : s.result.length = s.position s.source.length := by
  have hsource : s.source.length = s.before.length + (s.old.length + s.after.length) := by
    rw [source, List.length_append, List.length_append]
  rw [s.position_of_ge (by omega), hsource, result, List.length_append, List.length_append]
  omega

/-- **Between clear places the two source texts are alike.** -/
theorem slice_alike {start stop : Nat} (hstart : s.Clear start) (hstop : s.Clear stop) :
    s.TextAlike (s.source.slice start stop)
      (s.result.slice (s.position start) (s.position stop)) := by
  have hold := s.old_pos
  rcases hstop with hstop | hstop <;> rcases hstart with hstart | hstart
  · left
    rw [s.position_of_le hstart, s.position_of_le hstop, source, result,
      slice_append_left hstop, slice_append_left hstop]
  · left
    have hle : s.position stop ≤ s.position start := by
      rw [s.position_of_le hstop, s.position_of_ge hstart]
      omega
    rw [slice_of_le hle, slice_of_le (by omega)]
  · right
    have hle : s.before.length + s.new.length ≤ s.position stop := by
      rw [s.position_of_ge hstop]
      omega
    have hrest : s.position stop - s.before.length - s.new.length =
        stop - s.before.length - s.old.length := by
      rw [s.position_of_ge hstop]
      omega
    refine ⟨s.before.drop start, s.after.take (stop - s.before.length - s.old.length), ?_, ?_⟩
    · exact slice_across s.before s.old s.after hstart hstop
    · rw [s.position_of_le hstart, result, slice_across _ _ _ hstart hle, hrest]
  · left
    have hle : (s.before ++ s.new).length ≤ s.position start := by
      rw [s.position_of_ge hstart, List.length_append]
      omega
    have hshift : ∀ {place : Nat}, s.before.length + s.old.length ≤ place →
        s.position place - (s.before ++ s.new).length =
          place - (s.before ++ s.old).length := by
      intro place h
      rw [s.position_of_ge h, List.length_append, List.length_append]
      omega
    rw [source, result, ← List.append_assoc, ← List.append_assoc, slice_append_right hle,
      slice_append_right (by rwa [List.length_append]), hshift hstart, hshift hstop]

/-! ### Tokens -/

/-- A token and its swapped token are alike. -/
theorem token_alike (t : Token) : s.TokenAlike t (s.token t) := by
  refine ⟨rfl, rfl, ?_⟩
  by_cases h : t = s.oldToken
  · exact Or.inr ⟨h, if_pos h⟩
  · exact Or.inl (if_neg h)

/-- Tokens and their swapped tokens are alike. -/
theorem tokens_alike (ts : List Token) : List.Forall₂ s.TokenAlike ts (ts.map s.token) :=
  List.forall₂_map_right_iff.2 (List.forall₂_same.2 fun t _ => s.token_alike t)

/-- The token is the old one or does not overlap with the old text. -/
structure Whole (t : Token) : Prop where
  start_clear : s.Clear t.start
  stop_clear : s.Clear t.stop
  fits : s.relocation.Fits t

variable {s} {t : Token}

/-- A token before the swap stays. -/
theorem token_of_le (h : t.stop ≤ s.before.length) : s.token t = t := by
  have hstart : t.start ≤ s.before.length := by
    unfold Token.stop at h
    omega
  have hne : t ≠ s.oldToken := by
    rintro rfl
    have := s.old_pos
    simp only [Token.stop, oldToken] at h
    omega
  rw [token, s.position_of_le hstart, if_neg hne]

/-- A token before the swap is whole. -/
theorem Whole.of_le (h : t.stop ≤ s.before.length) : s.Whole t := by
  refine ⟨Or.inl ?_, Or.inl h, ?_⟩
  · unfold Token.stop at h
    omega
  · show (s.token t).stop = s.position t.stop
    rw [token_of_le h, s.position_of_le h]

/-- A token behind the swap moves. -/
theorem token_of_ge (h : s.before.length + s.old.length ≤ t.start) :
    s.token t =
      t.move (s.before.length + s.old.length) (s.before.length + s.new.length) := by
  have hne : t ≠ s.oldToken := by
    rintro rfl
    have := s.old_pos
    simp only [oldToken] at h
    omega
  rw [token, s.position_of_ge h, if_neg hne, Token.move]
  congr 1
  omega

/-- A token behind the swap is whole. -/
theorem Whole.of_ge (h : s.before.length + s.old.length ≤ t.start) : s.Whole t := by
  have hstop : s.before.length + s.old.length ≤ t.stop := by
    unfold Token.stop
    omega
  refine ⟨Or.inr h, Or.inr hstop, ?_⟩
  show (s.token t).stop = s.position t.stop
  rw [token_of_ge h, s.position_of_ge hstop]
  simp only [Token.stop, Token.move]
  omega

/-- The string that is swapped out becomes the new one. -/
theorem token_oldToken : s.token s.oldToken = ⟨.string, s.before.length, s.new⟩ := by
  rw [token, if_pos rfl]
  simp only [oldToken, s.position_of_le (Nat.le_refl _)]

/-- The string that is swapped out is whole. -/
theorem Whole.oldToken : s.Whole s.oldToken := by
  refine ⟨Or.inl (Nat.le_refl _), Or.inr (Nat.le_refl _), ?_⟩
  show (s.token s.oldToken).stop = s.position (s.before.length + s.old.length)
  rw [token_oldToken, s.position_of_ge (Nat.le_refl _)]
  simp only [Token.stop]
  omega

/-! ### Literals -/

/-- An expression of whole tokens is alike after the swap. -/
theorem expression_alike {e : Expression} (h : ∀ t ∈ e.tokens, s.Whole t) :
    s.ExpressionAlike e (s.relocation.expression e) := by
  refine ⟨s.tokens_alike e.tokens, ?_⟩
  have hfirst := h _ (List.head_mem e.nonempty)
  have hlast := h _ (List.getLast_mem e.nonempty)
  have hstart : (s.relocation.expression e).start = s.position e.start := by
    simp only [Expression.start, Relocation.expression, List.head_map]
    rfl
  have hstop : (s.relocation.expression e).stop = s.position e.stop := by
    simp only [Expression.stop, Relocation.expression, List.getLast_map]
    exact hlast.fits
  rw [Expression.written, Expression.written, hstart, hstop]
  exact s.slice_alike hfirst.start_clear hlast.stop_clear

/-- An item of whole tokens is alike after the swap. -/
theorem item_alike {i : Item} (h : ∀ t ∈ i.tokens, s.Whole t) :
    s.ItemAlike i (s.relocation.item i) := by
  obtain ⟨key, value, comma⟩ := i
  refine ⟨?_, expression_alike fun t ht => h t (List.mem_append_right _ ht)⟩
  cases key with
  | none => exact .none
  | some key => exact .some (expression_alike fun t ht => h t (List.mem_append_left _ ht))

/-- A literal of whole tokens is alike after the swap. -/
theorem literal_alike {op I : List Token} {c : Token} {l : ArrayLiteral} (hl : Spans op I c l)
    (h : ∀ t ∈ I, s.Whole t) : s.LiteralAlike l (s.relocation.literal l) := by
  refine ⟨rfl, List.forall₂_map_right_iff.2 (List.forall₂_same.2 fun i hi => ?_)⟩
  exact item_alike fun t ht => h t (hl.listing.tokens_subset i hi ht)

/-- **Corresponding tokens hold corresponding literals.** -/
theorem read?_alike {ts : List Token} (h : ∀ t ∈ ts, s.Whole t) :
    s.ReadAlike (ArrayLiteral.read? ts) (ArrayLiteral.read? (ts.map s.token)) := by
  have hread : ArrayLiteral.read? (ts.map s.token) =
      s.relocation.outcome s.relocation.literalRead (ArrayLiteral.read? ts) :=
    s.relocation.read?_relocate fun t ht => (h t ht).fits
  rw [hread]
  cases hts : ArrayLiteral.read? ts with
  | error found => exact .fault found.fault found.offset
  | ok found =>
    cases found with
    | none => exact .nothing
    | some found =>
      obtain ⟨l, rest⟩ := found
      obtain ⟨op, I, c, rfl, hspans⟩ := read?_eq_some_iff.1 hts
      refine .literal (literal_alike hspans fun t ht => h t ?_) (s.tokens_alike rest)
      exact List.mem_append_right _ (List.mem_append_left _ ht)

end Swap
end Script
end Scaffold
