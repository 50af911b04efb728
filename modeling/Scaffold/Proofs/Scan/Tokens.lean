/-
# Tokens of pieces

The tokens of a list of pieces, told by where the pieces stand: the tokens of two lists together,
the tokens of the same pieces elsewhere (`Token.move`), and the pieces around a given token.
-/

import Scaffold.Proofs.Scan.Cut

namespace Scaffold
namespace Script

/-- The tokens of a program text that starts at position `offset`. -/
def tokensFrom (offset : Nat) (text : Text) : Except FaultAt (List Token) :=
  (pieces offset text).map (Token.ofPieces offset)

namespace Token

/-- The token as part of a text that starts at `target` instead of `origin`. -/
def move (origin target : Nat) (token : Token) : Token :=
  { token with start := token.start - origin + target }

/-- A moved token has its kind. -/
@[simp] theorem move_kind (origin target : Nat) (token : Token) :
    (token.move origin target).kind = token.kind := rfl

/-- A token that is moved to where it is stays. -/
@[simp] theorem move_self (token : Token) : token.move 0 0 = token := rfl

/-- The token as a piece. -/
def piece (token : Token) : Piece := ⟨.token token.kind, token.text⟩

/-- The tokens among pieces that follow others start where those end. -/
theorem ofPieces_append (offset : Nat) (ps qs : List Piece) :
    ofPieces offset (ps ++ qs) =
      ofPieces offset ps ++ ofPieces (offset + (textOf ps).length) qs := by
  induction ps generalizing offset with
  | nil => rfl
  | cons p ps ih =>
    rw [List.cons_append, ofPieces, ofPieces, ih, textOf_cons, List.length_append, Nat.add_assoc]
    cases p.kind <;> rfl

/-- A piece that is a token is the first of the tokens. -/
theorem ofPieces_cons_token (offset : Nat) (kind : TokenKind) (text : Text) (ps : List Piece) :
    ofPieces offset (⟨.token kind, text⟩ :: ps) =
      ⟨kind, offset, text⟩ :: ofPieces (offset + text.length) ps := rfl

/-- Moving the tokens of some pieces gives the tokens of these pieces elsewhere. -/
theorem map_move_ofPieces (origin target : Nat) (ps : List Piece) :
    (ofPieces origin ps).map (move origin target) = ofPieces target ps := by
  suffices h : ∀ n, (ofPieces (origin + n) ps).map (move origin target) =
      ofPieces (target + n) ps from h 0
  induction ps with
  | nil => exact fun _ => rfl
  | cons p ps ih =>
    intro n
    have hmove : ∀ k, move origin target ⟨k, origin + n, p.text⟩ = ⟨k, target + n, p.text⟩ := by
      intro k
      simp only [move, Token.mk.injEq, true_and, and_true]
      omega
    rw [ofPieces, ofPieces, Nat.add_assoc, Nat.add_assoc]
    cases p.kind <;> simp only [List.map_cons, ih, hmove]

/-- The tokens of some pieces stand within their text. -/
theorem bounds_of_mem_ofPieces {offset : Nat} {ps : List Piece} {token : Token}
    (h : token ∈ ofPieces offset ps) :
    offset ≤ token.start ∧ token.stop ≤ offset + (textOf ps).length := by
  induction ps generalizing offset with
  | nil => cases h
  | cons p ps ih =>
    rw [textOf_cons, List.length_append]
    rw [ofPieces] at h
    have hlater : token ∈ ofPieces (offset + p.text.length) ps →
        offset ≤ token.start ∧ token.stop ≤ offset + (p.text.length + (textOf ps).length) := by
      intro hmem
      have := ih hmem
      omega
    split at h
    · rcases List.mem_cons.1 h with rfl | hmem
      · exact ⟨Nat.le_refl _, by simp only [stop]; omega⟩
      · exact hlater hmem
    · exact hlater h

/-- A token among those of some pieces is one of the pieces. -/
theorem ofPieces_eq_append_cons {offset : Nat} {ps : List Piece} {before after : List Token}
    {token : Token} (h : ofPieces offset ps = before ++ token :: after) :
    ∃ qs rs, ps = qs ++ token.piece :: rs ∧ ofPieces offset qs = before ∧
      token.start = offset + (textOf qs).length ∧ ofPieces token.stop rs = after := by
  induction ps generalizing offset before with
  | nil => exact absurd h (by simp [ofPieces])
  | cons p ps ih =>
    rw [ofPieces] at h
    split at h
    · rename_i kind hk
      cases before with
      | nil =>
        obtain ⟨rfl, rfl⟩ := List.cons.inj h
        refine ⟨[], ps, ?_, rfl, rfl, rfl⟩
        rw [List.nil_append, piece, ← hk]
      | cons t before =>
        obtain ⟨rfl, hlater⟩ := List.cons.inj h
        obtain ⟨qs, rs, rfl, rfl, hs, rfl⟩ := ih hlater
        refine ⟨p :: qs, rs, rfl, ?_, ?_, rfl⟩
        · rw [ofPieces, hk]
        · rw [hs, textOf_cons, List.length_append, Nat.add_assoc]
    · rename_i hk
      obtain ⟨qs, rs, rfl, rfl, hs, rfl⟩ := ih h
      refine ⟨p :: qs, rs, rfl, ?_, ?_, rfl⟩
      · rw [ofPieces]
        split
        · rename_i kind hk'
          exact absurd hk' (hk kind)
        · rfl
      · rw [hs, textOf_cons, List.length_append, Nat.add_assoc]

/-- There are no tokens just in case no piece is one. -/
theorem ofPieces_eq_nil_iff (offset : Nat) {ps : List Piece} :
    ofPieces offset ps = [] ↔ ∀ p ∈ ps, ∀ kind, p.kind ≠ .token kind := by
  induction ps generalizing offset with
  | nil => simp [ofPieces]
  | cons p ps ih =>
    rw [ofPieces, List.forall_mem_cons, ← ih (offset + p.text.length)]
    cases p.kind <;> simp

end Token

/-- Where a program text stands matters only for where its tokens stand. -/
theorem tokensFrom_move {offset : Nat} {text : Text} {tokens : List Token}
    (h : tokensFrom offset text = .ok tokens) (offset' : Nat) :
    tokensFrom offset' text = .ok (tokens.map (Token.move offset offset')) := by
  obtain ⟨ps, hps, rfl⟩ := map_eq_ok_iff.1 h
  rw [tokensFrom, pieces_offset hps offset', Token.map_move_ofPieces]
  rfl

/-- The tokens of a text that starts with a cut part. -/
theorem Cut.tokensFrom_append {u v : Text} {ps : List Piece} (h : Cut v u ps) (offset : Nat) :
    tokensFrom offset (u ++ v) =
      (tokensFrom (offset + u.length) v).map (Token.ofPieces offset ps ++ ·) := by
  rw [tokensFrom, tokensFrom, h.pieces_append]
  cases pieces (offset + u.length) v with
  | error => rfl
  | ok qs =>
    simp only [Except.map]
    rw [Token.ofPieces_append, h.textOf_eq]

end Script
end Scaffold
