import WhileLang.Proofs.Building.Shapes
import WhileLang.Proofs.Lexing.Partition
import WhileLang.Proofs.Parsing.Runs

/-!
# Reading pieces

A text that begins with gaps and tokens, none of which is gone on with by what follows it, is read
as these tokens, each at the position where it stands, and then as the rest (`Legible.ofScanner`).

* `Legible`: gaps and tokens that can be read off the front of a text.
* `placed`: their tokens, where they stand.
* `Division`: a whole text as legible pieces, a last gap, and what stops the scanner. Every text
  has one (`exists_division`), and any one says what is read.
-/

namespace WhileLang

open Scanner TokenStream

/-- The same token at another position. -/
def Token.moveTo (t : Token) (p : Position) : Token := ⟨t.kind, t.value, p⟩

namespace Token

@[simp] theorem text_moveTo (t : Token) (p : Position) : (t.moveTo p).text = t.text := rfl

@[simp] theorem shape_moveTo (t : Token) (p : Position) : (t.moveTo p).shape = t.shape := rfl

theorem Spelled.moveTo {t : Token} (h : t.Spelled) (p : Position) : (t.moveTo p).Spelled := h

end Token

/-! ## Blanks after a token -/

namespace TokenKind

theorem goesOn_iff {k : TokenKind} {c : Char} :
    k.GoesOn c ↔
      ((k = .identifier ∨ k ∈ keywords) ∧ isWordPart c = true) ∨
        (k = .number ∧ c.isDigit = true) ∨
        ((k = .greater ∨ k = .colon) ∧ c = '=') ∨
        (k = .equal ∧ c = '<') ∨
        (k = .slash ∧ c = '/') := by
  constructor
  · intro h
    cases k with
    | number => exact .inr (.inl ⟨rfl, h⟩)
    | greater => exact .inr (.inr (.inl ⟨.inl rfl, h⟩))
    | colon => exact .inr (.inr (.inl ⟨.inr rfl, h⟩))
    | equal => exact .inr (.inr (.inr (.inl ⟨rfl, h⟩)))
    | slash => exact .inr (.inr (.inr (.inr ⟨rfl, h⟩)))
    | _ => exact .inl h
  · rintro (⟨hk, h⟩ | ⟨rfl, h⟩ | ⟨rfl | rfl, h⟩ | ⟨rfl, h⟩ | ⟨rfl, h⟩)
    · exact (goesOn_word_iff hk).mpr h
    all_goals exact h

/-- No token goes on with a blank. -/
theorem not_goesOn_blank {c : Char} (hc : isBlank c = true) (k : TokenKind) : ¬k.GoesOn c := by
  have hpart := (isWordPart_eq_false_of_isBlank hc).1
  have hdigit : c.isDigit = false := by
    apply Bool.eq_false_iff.mpr
    intro hdigit
    rw [isWordPart_of_isDigit hdigit] at hpart
    cases hpart
  rw [goesOn_iff, hpart, hdigit]
  rintro (⟨-, h⟩ | ⟨-, h⟩ | ⟨-, rfl⟩ | ⟨-, rfl⟩ | ⟨-, rfl⟩)
  all_goals first | cases h | cases hc

end TokenKind

theorem maximal_blank {c : Char} (hc : isBlank c = true) (k : TokenKind) (rest : List Char) :
    Maximal k (c :: rest) := by
  intro d hd
  cases hd
  exact TokenKind.not_goesOn_blank hc k

/-! ## Pieces in front of a text -/

/-- The pieces can be read in front of the text `rest`: their gaps are whole, and their tokens are
tokens of the language that nothing goes on with. -/
structure Legible (pieces : List Piece) (rest : List Char) : Prop where
  gaps : ∀ x ∈ pieces, Gap x.gap
  spelled : ∀ x ∈ pieces, x.token.Spelled
  maximal : ∀ before x after, pieces = before ++ x :: after →
    Maximal x.token.kind (after.flatMap Piece.chars ++ rest)

/-- The tokens of pieces that begin after the position `p`, each where it stands. -/
def placed (p : Position) : List Piece → List Token
  | [] => []
  | x :: pieces =>
    x.token.moveTo (p.pastAll x.gap).nextColumn :: placed (p.pastAll x.chars) pieces

theorem placed_append (p : Position) (xs ys : List Piece) :
    placed p (xs ++ ys) = placed p xs ++ placed (p.pastAll (xs.flatMap Piece.chars)) ys := by
  induction xs generalizing p with
  | nil => rfl
  | cons x xs ih =>
    rw [List.cons_append, placed, placed, ih, List.flatMap_cons, Position.pastAll_append,
      List.cons_append]

@[simp] theorem length_placed (p : Position) (pieces : List Piece) :
    (placed p pieces).length = pieces.length := by
  induction pieces generalizing p with
  | nil => rfl
  | cons x pieces ih => rw [placed, List.length_cons, List.length_cons, ih]

theorem map_shape_placed (p : Position) (pieces : List Piece) :
    (placed p pieces).map Token.shape = pieces.map fun x => x.token.shape := by
  induction pieces generalizing p with
  | nil => rfl
  | cons x pieces ih => rw [placed, List.map_cons, List.map_cons, ih, Token.shape_moveTo]

/-- Where one of the pieces stands. -/
theorem getElem?_placed (p : Position) (before : List Piece) (x : Piece) (after : List Piece) :
    (placed p (before ++ x :: after))[before.length]? =
      some (x.token.moveTo (p.pastAll (before.flatMap Piece.chars ++ x.gap)).nextColumn) := by
  rw [placed_append, List.getElem?_append_right (Nat.le_of_eq (length_placed p before)),
    length_placed, Nat.sub_self, placed, List.getElem?_cons_zero, Position.pastAll_append]

namespace Legible

variable {x : Piece} {pieces : List Piece} {rest rest' : List Char}

theorem nil (rest : List Char) : Legible [] rest :=
  ⟨nofun, nofun, fun before x after h => by cases before <;> cases h⟩

theorem tail (h : Legible (x :: pieces) rest) : Legible pieces rest :=
  ⟨fun y hy => h.gaps y (List.mem_cons_of_mem x hy),
    fun y hy => h.spelled y (List.mem_cons_of_mem x hy),
    fun before y after heq => h.maximal (x :: before) y after (by rw [heq]; rfl)⟩

/-- After its gap, the text shows the first token, at whatever position it stands. -/
theorem firstToken (h : Legible (x :: pieces) rest) (p : Position) :
    FirstToken (x.token.moveTo p) (x.token.text.toList ++ (pieces.flatMap Piece.chars ++ rest))
      (pieces.flatMap Piece.chars ++ rest) :=
  ⟨(h.spelled x List.mem_cons_self).moveTo p, h.maximal [] x pieces rfl, rfl⟩

/-- Another rest that the tokens do not go on with either. -/
theorem change (h : Legible pieces rest)
    (hrest : ∀ k cs, Maximal k (cs ++ rest) → Maximal k (cs ++ rest')) :
    Legible pieces rest' :=
  ⟨h.gaps, h.spelled, fun before y after heq => hrest _ _ (h.maximal before y after heq)⟩

/-- The scanner reads the pieces, then the rest. -/
theorem ofScanner (h : Legible pieces rest) (p : Position) :
    TokenStream.ofScanner (ofChars (pieces.flatMap Piece.chars ++ rest) p) =
      placed p pieces ++
        TokenStream.ofScanner (ofChars rest (p.pastAll (pieces.flatMap Piece.chars))) := by
  induction pieces generalizing p with
  | nil => rfl
  | cons x pieces ih =>
    have hfirst := h.firstToken (p.pastAll x.gap).nextColumn
    have hchars : (x :: pieces).flatMap Piece.chars ++ rest =
        x.gap ++ (x.token.text.toList ++ (pieces.flatMap Piece.chars ++ rest)) := by
      rw [List.flatMap_cons, Piece.chars, List.append_assoc, List.append_assoc]
    rw [hchars, ofScanner_token (h.gaps x List.mem_cons_self) hfirst rfl, Token.text_moveTo,
      ← Position.pastAll_append, ← Piece.chars, ih h.tail, placed, cons_append, List.flatMap_cons,
      Position.pastAll_append]

end Legible

/-! ## Whole texts -/

/-- The text is legible pieces, the gap after them, and a rest that is empty or begins with a
character that starts no token. -/
structure Division (source : String) (pieces : List Piece) (last rest : List Char) : Prop where
  text : source.toList = pieces.flatMap Piece.chars ++ (last ++ rest)
  legible : Legible pieces (last ++ rest)
  lastGap : LastGap last rest
  stops : ∀ c more, rest = c :: more → ∃ fault, StartsNoToken c more fault

/-- Only the end of a text leaves a comment open. -/
theorem LastGap.whole {last : List Char} {c : Char} {more : List Char}
    (h : LastGap last (c :: more)) : Gap last := by
  rcases h with hgap | ⟨hrest, -⟩
  · exact hgap
  · cases hrest

theorem exists_division (source : String) :
    ∃ pieces last rest, Division source pieces last rest := by
  obtain ⟨pieces, last, rest, h⟩ := divides_ofChars source.toList .start
  refine ⟨pieces, last, rest, h.text, ⟨h.gaps, h.spelled, h.maximal⟩, h.lastGap, ?_⟩
  intro c more hrest
  obtain ⟨fault, hfault, -⟩ := h.failed c more hrest
  exact ⟨fault, hfault⟩

namespace Division

variable {source : String} {pieces : List Piece} {last rest : List Char}

theorem ofString (h : Division source pieces last rest) :
    TokenStream.ofString source = placed .start pieces ++
      TokenStream.ofScanner
        (ofChars (last ++ rest) (Position.start.pastAll (pieces.flatMap Piece.chars))) := by
  rw [← h.legible.ofScanner, ← h.text]
  rfl

/-- A text that ends after a whole gap ends one column after its last character. -/
theorem ofString_gap (h : Division source pieces last []) (hlast : Gap last) :
    TokenStream.ofString source =
      ofTokens (placed .start pieces)
        (.endOfText (Position.start.pastAll source.toList).nextColumn) := by
  rw [h.ofString, List.append_nil, ofScanner_gap hlast, append_ended, ← Position.pastAll_append,
    h.text, List.append_nil]

/-- A text that ends in a comment ends on the line below. -/
theorem ofString_openComment {g c : List Char} (h : Division source pieces (g ++ c) [])
    (hg : Gap g) (hc : OpenComment c) :
    TokenStream.ofString source =
      ofTokens (placed .start pieces)
        (.endOfText (Position.start.pastAll source.toList).nextLine.nextColumn) := by
  rw [h.ofString, List.append_nil, ofScanner_openComment hg hc, append_ended,
    ← Position.pastAll_append, h.text, List.append_nil]

/-- A text that is divided up to its end is read without an error. -/
theorem exists_end (h : Division source pieces last []) :
    ∃ q, TokenStream.ofString source = .ofTokens (placed .start pieces) (.endOfText q) := by
  rcases h.lastGap with hgap | ⟨-, g, c, rfl, hg, hc⟩
  · exact ⟨_, h.ofString_gap hgap⟩
  · exact ⟨_, h.ofString_openComment hg hc⟩

/-- A text that has not ended stops where no token starts. -/
theorem ofString_fault {c : Char} {more : List Char} {fault : LexFault}
    (h : Division source pieces last (c :: more)) (hfault : StartsNoToken c more fault) :
    TokenStream.ofString source =
      ofTokens (placed .start pieces)
        (.failure ⟨fault,
          (Position.start.pastAll (pieces.flatMap Piece.chars ++ last)).nextColumn⟩) := by
  rw [h.ofString, ofScanner_fault h.lastGap.whole hfault, append_ended,
    ← Position.pastAll_append]

end Division

/-- A text that is read without an error is divided up to its end. -/
theorem exists_division_of_read {source : String}
    (h : (TokenStream.ofString source).error? = none) :
    ∃ pieces last, Division source pieces last [] := by
  obtain ⟨pieces, last, rest, hdiv⟩ := exists_division source
  cases rest with
  | nil => exact ⟨pieces, last, hdiv⟩
  | cons c more =>
    obtain ⟨fault, hfault⟩ := hdiv.stops c more rfl
    rw [hdiv.ofString_fault hfault] at h
    cases h

end WhileLang
