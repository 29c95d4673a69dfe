import Mathlib.Data.List.Induction
import WhileLang.Proofs.Lexing.Pieces
import WhileLang.Proofs.Lexing.Pushback

/-!
# Where the tokens stand

The position of a token is the line and the column of its first character, counted in the text
before it (`Position.following`). The scanner does not count in the text before a token: it goes
along with the characters that it reads, and back by one where it has read too far.

* `Position.start_pastAll`: the position reached from the start of a text, counted in the text.
* `pairwise_placed`: tokens that stand one after the other have increasing positions.
* `collectTokens_positions`: the positions of the tokens, the end and the error of any text.
-/

namespace WhileLang

namespace Position

/-! ## Counting -/

/-- The position of the character after the text `before`: its line is one more than the line feeds
before it, and its column one more than the characters since the last of these, or since the start
of the text. -/
def following (before : List Char) : Position :=
  ⟨1 + before.count '\n', 1 + (before.reverse.takeWhile (· != '\n')).length⟩

theorem start_pastAll (cs : List Char) :
    start.pastAll cs =
      ⟨1 + cs.count '\n', (cs.reverse.takeWhile (· != '\n')).length⟩ := by
  induction cs using List.reverseRecOn with
  | nil => rfl
  | append_singleton cs c ih =>
    rw [pastAll_append, ih, pastAll_cons, pastAll_nil, past, List.reverse_append, List.count_append]
    by_cases hc : c = '\n'
    · subst hc
      rfl
    · have hcount : [c].count '\n' = 0 := List.count_eq_zero_of_not_mem (by simpa using Ne.symm hc)
      rw [if_neg hc, hcount, List.reverse_singleton, List.singleton_append,
        List.takeWhile_cons_of_pos (by simpa using hc)]
      rfl

theorem nextColumn_start_pastAll (cs : List Char) :
    (start.pastAll cs).nextColumn = following cs := by
  rw [start_pastAll, nextColumn, following, Nat.add_comm _ 1]

/-! ## The order of positions -/

/-- On an earlier line, or on the same line in an earlier column. -/
def Before (p q : Position) : Prop := p.line < q.line ∨ p.line = q.line ∧ p.column < q.column

theorem Before.trans {p q r : Position} (h : p.Before q) (h' : q.Before r) : p.Before r := by
  unfold Before at *
  omega

theorem Before.ne {p q : Position} (h : p.Before q) : p ≠ q := by
  rintro rfl
  unfold Before at h
  omega

theorem Before.nextColumn {p q : Position} (h : p.Before q) :
    p.nextColumn.Before q.nextColumn := by
  rcases h with hline | ⟨hline, hcolumn⟩
  · exact .inl hline
  · exact .inr ⟨hline, Nat.succ_lt_succ hcolumn⟩

theorem before_past (p : Position) (c : Char) : p.Before (p.past c) := by
  unfold past
  split
  · exact .inl (Nat.lt_succ_self p.line)
  · exact .inr ⟨rfl, Nat.lt_succ_self p.column⟩

theorem before_pastAll {cs : List Char} (h : cs ≠ []) (p : Position) : p.Before (p.pastAll cs) := by
  induction cs generalizing p with
  | nil => exact absurd rfl h
  | cons c cs ih =>
    by_cases hcs : cs = []
    · subst hcs
      exact before_past p c
    · exact (before_past p c).trans (ih hcs (p.past c))

end Position

open Position TokenStream

/-! ## Tokens one after the other -/

/-- A token among others that begin after the position `p` stands after `p`, by some text. -/
theorem exists_position_of_mem_placed {p : Position} {pieces : List Piece} {t : Token}
    (h : t ∈ placed p pieces) : ∃ cs, t.position = (p.pastAll cs).nextColumn := by
  induction pieces generalizing p with
  | nil => cases h
  | cons x pieces ih =>
    rw [placed] at h
    rcases List.mem_cons.mp h with rfl | hmem
    · exact ⟨x.gap, rfl⟩
    · obtain ⟨cs, hcs⟩ := ih hmem
      exact ⟨x.chars ++ cs, by rw [hcs, pastAll_append]⟩

/-- What stands after a piece stands after the first character of its token. -/
theorem before_after_piece {x : Piece} (hx : x.token.Spelled) (p : Position) (cs : List Char) :
    (p.pastAll x.gap).nextColumn.Before ((p.pastAll x.chars).pastAll cs).nextColumn := by
  have hne : x.token.text.toList ++ cs ≠ [] :=
    fun h => hx.text_ne_nil (List.append_eq_nil_iff.mp h).1
  rw [Piece.chars, pastAll_append, ← pastAll_append _ x.token.text.toList]
  exact (before_pastAll hne _).nextColumn

/-- The tokens of pieces, and what comes after them, have increasing positions. -/
theorem pairwise_placed {pieces : List Piece} (h : ∀ x ∈ pieces, x.token.Spelled) (p : Position) :
    (placed p pieces).Pairwise (fun t u => t.position.Before u.position) ∧
      ∀ t ∈ placed p pieces, ∀ cs,
        t.position.Before ((p.pastAll (pieces.flatMap Piece.chars)).pastAll cs).nextColumn := by
  induction pieces generalizing p with
  | nil => exact ⟨.nil, nofun⟩
  | cons x pieces ih =>
    have hx := h x List.mem_cons_self
    obtain ⟨hpairs, hlast⟩ := ih (fun y hy => h y (List.mem_cons_of_mem x hy)) (p.pastAll x.chars)
    rw [placed]
    constructor
    · refine List.pairwise_cons.mpr ⟨fun u hu => ?_, hpairs⟩
      obtain ⟨cs, hcs⟩ := exists_position_of_mem_placed hu
      rw [hcs]
      exact before_after_piece hx p cs
    · intro t ht cs
      rw [List.flatMap_cons, pastAll_append]
      rcases List.mem_cons.mp ht with rfl | hmem
      · rw [← pastAll_append]
        exact before_after_piece hx p _
      · exact hlast t hmem cs

/-! ## The tokens of a text -/

/-- The tokens of a divided text stand where their first characters stand. The end of the text
stands after its last character, or on the line below the comment that it ends in, and an error
where the character stands that starts no token. -/
structure Located (source : String) (pieces : List Piece) (last rest : List Char) : Prop where
  tokens : ∀ before x after, pieces = before ++ x :: after →
    (collectTokens source).1[before.length]? =
      some (x.token.moveTo (following (before.flatMap Piece.chars ++ x.gap)))
  ended : rest = [] → Gap last → (collectTokens source).1.drop pieces.length =
    [.ofKind .endOfText (following source.toList)]
  endedInComment : ∀ g c, rest = [] → last = g ++ c → Gap g → OpenComment c →
    (collectTokens source).1.drop pieces.length =
      [.ofKind .endOfText (following (source.toList ++ ['\n']))]
  failed : ∀ c more, rest = c :: more → (collectTokens source).1.drop pieces.length = [] ∧
    ∃ fault, fault.symbol = c ∧ (collectTokens source).2 =
      some ⟨fault, following (pieces.flatMap Piece.chars ++ last)⟩

theorem StartsNoToken.symbol_eq {c : Char} {rest : List Char} {fault : LexFault}
    (h : StartsNoToken c rest fault) : fault.symbol = c := by
  cases h <;> rfl

namespace Division

variable {source : String} {pieces : List Piece} {last rest : List Char}

theorem collectTokens_gap (h : Division source pieces last []) (hlast : Gap last) :
    collectTokens source =
      (placed .start pieces ++ [.ofKind .endOfText (following source.toList)], none) := by
  unfold collectTokens
  rw [h.ofString_gap hlast, nextColumn_start_pastAll]
  rfl

theorem collectTokens_openComment {g c : List Char} (h : Division source pieces (g ++ c) [])
    (hg : Gap g) (hc : OpenComment c) :
    collectTokens source =
      (placed .start pieces ++ [.ofKind .endOfText (following (source.toList ++ ['\n']))],
        none) := by
  have hline : (start.pastAll source.toList).nextLine =
      start.pastAll (source.toList ++ ['\n']) := by
    rw [pastAll_append]
    rfl
  unfold collectTokens
  rw [h.ofString_openComment hg hc, hline, nextColumn_start_pastAll]
  rfl

theorem collectTokens_fault {c : Char} {more : List Char} {fault : LexFault}
    (h : Division source pieces last (c :: more)) (hfault : StartsNoToken c more fault) :
    collectTokens source = (placed .start pieces,
      some ⟨fault, following (pieces.flatMap Piece.chars ++ last)⟩) := by
  unfold collectTokens
  rw [h.ofString_fault hfault, nextColumn_start_pastAll]
  rfl

/-- The tokens of the pieces are listed first, and at most the end of the text after them. -/
theorem exists_collectTokens (h : Division source pieces last rest) :
    ∃ ending error?, collectTokens source = (placed .start pieces ++ ending, error?) ∧
      (ending = [] ∨ ∃ cs, ending = [.ofKind .endOfText
        ((start.pastAll (pieces.flatMap Piece.chars)).pastAll cs).nextColumn]) := by
  cases rest with
  | nil =>
    rcases h.lastGap with hgap | ⟨-, g, c, rfl, hg, hc⟩
    · refine ⟨_, _, h.collectTokens_gap hgap, .inr ⟨last, ?_⟩⟩
      rw [← nextColumn_start_pastAll, h.text, pastAll_append, List.append_nil]
    · refine ⟨_, _, h.collectTokens_openComment hg hc, .inr ⟨(g ++ c) ++ ['\n'], ?_⟩⟩
      rw [← nextColumn_start_pastAll, h.text, List.append_nil, List.append_assoc, pastAll_append]
  | cons c more =>
    obtain ⟨fault, hfault⟩ := h.stops c more rfl
    have heq := h.collectTokens_fault hfault
    rw [← List.append_nil (placed .start pieces)] at heq
    exact ⟨[], _, heq, .inl rfl⟩

theorem located (h : Division source pieces last rest) : Located source pieces last rest := by
  have hdrop (ending : List Token) :
      (placed .start pieces ++ ending).drop pieces.length = ending :=
    List.drop_left' (length_placed .start pieces)
  constructor
  · rintro before x after rfl
    obtain ⟨ending, error?, heq, -⟩ := h.exists_collectTokens
    have hlt : before.length < (placed .start (before ++ x :: after)).length := by
      rw [length_placed, List.length_append, List.length_cons]
      omega
    rw [heq, List.getElem?_append_left hlt, getElem?_placed, nextColumn_start_pastAll]
  · rintro rfl hgap
    rw [h.collectTokens_gap hgap]
    exact hdrop _
  · rintro g c rfl rfl hg hc
    rw [h.collectTokens_openComment hg hc]
    exact hdrop _
  · rintro c more rfl
    obtain ⟨fault, hfault⟩ := h.stops c more rfl
    rw [h.collectTokens_fault hfault]
    exact ⟨List.drop_of_length_le (Nat.le_of_eq (length_placed .start pieces)), fault,
      hfault.symbol_eq, rfl⟩

end Division

/-- The tokens of a text are listed in the order of their positions. -/
theorem pairwise_collectTokens (source : String) :
    (collectTokens source).1.Pairwise (fun t u => t.position.Before u.position) := by
  obtain ⟨pieces, last, rest, h⟩ := exists_division source
  obtain ⟨hpairs, hlast⟩ := pairwise_placed h.legible.spelled .start
  obtain ⟨ending, error?, heq, rfl | ⟨cs, rfl⟩⟩ := h.exists_collectTokens
  · rw [heq, List.append_nil]
    exact hpairs
  · rw [heq, List.pairwise_append]
    refine ⟨hpairs, List.pairwise_singleton _ _, fun t ht u hu => ?_⟩
    rw [List.mem_singleton.mp hu]
    exact hlast t ht cs

/-- No two tokens of a text stand at the same position. -/
theorem eq_of_position_eq {source : String} {i j : Nat} {t u : Token}
    (hi : (collectTokens source).1[i]? = some t) (hj : (collectTokens source).1[j]? = some u)
    (h : t.position = u.position) : i = j := by
  have hpairs := List.pairwise_iff_getElem.mp (pairwise_collectTokens source)
  obtain ⟨hlti, rfl⟩ := List.getElem?_eq_some_iff.mp hi
  obtain ⟨hltj, rfl⟩ := List.getElem?_eq_some_iff.mp hj
  rcases Nat.lt_trichotomy i j with hlt | heq | hgt
  · exact absurd h (hpairs i j hlti hltj hlt).ne
  · exact heq
  · exact absurd h.symm (hpairs j i hltj hlti hgt).ne

/-- Positions are exact. Every text can be divided into tokens and gaps, and however it is divided,
its tokens, its end and its error stand where their characters do. So the tokens listed have
increasing positions. They are found without ever going back from column 0. -/
theorem collectTokens_positions (source : String) :
    (∃ pieces last rest, Division source pieces last rest) ∧
      (∀ pieces last rest, Division source pieces last rest → Located source pieces last rest) ∧
      (collectTokens source).1.Pairwise (fun t u => t.position.Before u.position) ∧
      readStepwise (.ofString source) = some (TokenStream.ofString source) :=
  ⟨exists_division source, fun _ _ _ h => h.located, pairwise_collectTokens source,
    readStepwise_ofString source⟩

end WhileLang
