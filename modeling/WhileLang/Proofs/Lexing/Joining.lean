import WhileLang.Proofs.Lexing.Pieces

/-!
# Texts made of tokens

Tokens that are written with a blank between any two of them are legible, so that they are read
again (`ofString_spaced`).
-/

namespace WhileLang

open Scanner TokenStream

/-- The tokens as a text, with a blank between any two of them. -/
def spaced (us : List Token) : String := String.intercalate " " (us.map Token.text)

theorem gap_space : Gap [' '] := .blank rfl .nil

theorem toList_spaced_cons (u : Token) (us : List Token) :
    (spaced (u :: us)).toList =
      (Piece.mk [] u :: us.map (Piece.mk [' '])).flatMap Piece.chars := by
  induction us generalizing u with
  | nil => simp [spaced, Piece.chars]
  | cons v us ih =>
    have hv := ih v
    unfold spaced at hv ⊢
    rw [List.map_cons, List.map_cons, String.intercalate_cons_cons, ← List.map_cons,
      String.toList_append, String.toList_append, hv]
    simp [Piece.chars]

theorem maximal_pieces {pieces : List Piece} (h : ∀ x ∈ pieces, x.gap = [' ']) (k : TokenKind) :
    Maximal k (pieces.flatMap Piece.chars ++ []) := by
  cases pieces with
  | nil => exact nofun
  | cons x pieces =>
    rw [List.flatMap_cons, Piece.chars, h x (by simp)]
    exact maximal_blank rfl k _

/-- Tokens that are written with blanks between them are read again. -/
theorem ofString_spaced {us : List Token} (h : ∀ u ∈ us, u.Spelled) :
    ∃ ts q, TokenStream.ofString (spaced us) = ofTokens ts (.endOfText q) ∧
      ts.map Token.shape = us.map Token.shape := by
  cases us with
  | nil => exact ⟨[], _, ofScanner_gap .nil .start, rfl⟩
  | cons u us =>
    let pieces := Piece.mk [] u :: us.map (Piece.mk [' '])
    have hgaps : ∀ x ∈ pieces, Gap x.gap := by
      intro x hx
      rcases List.mem_cons.mp hx with rfl | hx
      · exact .nil
      · obtain ⟨v, -, rfl⟩ := List.mem_map.mp hx
        exact gap_space
    have hspelled : ∀ x ∈ pieces, x.token.Spelled := by
      intro x hx
      rcases List.mem_cons.mp hx with rfl | hx
      · exact h u (by simp)
      · obtain ⟨v, hv, rfl⟩ := List.mem_map.mp hx
        exact h v (by simp [hv])
    have hmax : ∀ before x after, pieces = before ++ x :: after →
        Maximal x.token.kind (after.flatMap Piece.chars ++ []) := by
      intro before x after heq
      apply maximal_pieces
      intro y hy
      have hmem : y ∈ us.map (Piece.mk [' ']) := by
        cases before with
        | nil =>
          rw [(List.cons.inj heq).2]
          exact hy
        | cons b before =>
          rw [(List.cons.inj heq).2]
          simp [hy]
      obtain ⟨v, -, rfl⟩ := List.mem_map.mp hmem
      rfl
    have hlegible : Legible pieces [] := ⟨hgaps, hspelled, hmax⟩
    have hread := hlegible.ofScanner .start
    rw [List.append_nil, ← toList_spaced_cons, ofScanner_gap .nil, append_ended] at hread
    refine ⟨placed .start pieces, _, hread, ?_⟩
    rw [map_shape_placed]
    simp [pieces]

end WhileLang
