import WhileLang.Proofs.Lexing.Pieces

/-!
# Tokens that need a gap between them

Which tokens have to be kept apart when they are written, and that nothing else is needed.

* `Merges t u`: written directly after `t`, the token `u` would go on with it
  (`Token.Spelled.goesOn_head_iff`).
* `Separated`: the gaps of a text keep its tokens apart. This is the same as that no token is gone
  on with by what follows it (`separated_iff_maximal`).
* `collectTokens_writtenText`: separated tokens are read again as they were written, and every
  text that is read without an error has been written like this.
-/

namespace WhileLang

/-- Two tokens of which the second, written directly after the first, goes on with it: words and
what continues them, numbers, and the symbols that are the beginning of another one. -/
def Merges (t u : Token) : Prop :=
  ((t.kind = .identifier ∨ t.kind ∈ TokenKind.keywords) ∧
      (u.kind = .identifier ∨ u.kind ∈ TokenKind.keywords ∨ u.kind = .number)) ∨
    (t.kind = .number ∧ u.kind = .number) ∨
    ((t.kind = .greater ∨ t.kind = .colon) ∧ u.text.toList.head? = some '=') ∨
    (t.kind = .equal ∧ u.kind = .less) ∨
    (t.kind = .slash ∧ u.kind = .slash)

/-- The text begins like a comment. -/
def BeginsComment (cs : List Char) : Prop := ∃ rest, cs = '/' :: '/' :: rest

/-- The gap before the pieces, or the last gap of the text if there is no piece left. -/
def nextGap (pieces : List Piece) (last : List Char) : List Char :=
  match pieces with
  | [] => last
  | x :: _ => x.gap

/-- No slash stands before a comment, and there is a gap between any two tokens that merge. -/
structure Separated (pieces : List Piece) (last : List Char) : Prop where
  comment : ∀ before x after, pieces = before ++ x :: after → x.token.kind = .slash →
    ¬BeginsComment (nextGap after last)
  merging : ∀ before x y after, pieces = before ++ x :: y :: after → Merges x.token y.token →
    y.gap ≠ []

/-! ## Characters that go on with a token -/

namespace TokenKind

theorem goesOn_slash_iff {k : TokenKind} : k.GoesOn '/' ↔ k = .slash := by
  have hpart : isWordPart '/' = false := rfl
  have hdigit : '/'.isDigit = false := rfl
  simp [goesOn_iff, hpart, hdigit]

theorem notMem_symbols_of_mem_keywords : ∀ k ∈ keywords, k ∉ symbols := by decide

/-- Symbols are neither words nor numbers. -/
theorem notMem_symbols {k : TokenKind} (hk : k = .identifier ∨ k ∈ keywords ∨ k = .number) :
    k ∉ symbols := by
  rcases hk with rfl | hword | rfl
  · decide
  · exact notMem_symbols_of_mem_keywords k hword
  · decide

/-- The first character of a symbol is in no word, and it tells the slash and the smaller sign
from all other symbols. -/
theorem symbol_head {k : TokenKind} (hk : k ∈ symbols) {c : Char} {tail : List Char}
    (htext : k.text.toList = c :: tail) :
    isWordPart c = false ∧ (c = '<' ↔ k = .less) ∧ (c = '/' ↔ k = .slash) := by
  cases k with
  | _ =>
    first
    | exact absurd hk (by decide)
    | obtain ⟨rfl, rfl⟩ : _ = c ∧ _ = tail := List.cons.inj htext
      exact ⟨rfl, by decide, by decide⟩

end TokenKind

/-! ## The first character of a token -/

namespace Token.Spelled

variable {u : Token} {c : Char} {tail : List Char}

/-- Words and numbers, and only they, begin with a character that could stand in a word. -/
theorem isWordPart_head_iff (h : u.Spelled) (hlist : u.text.toList = c :: tail) :
    isWordPart c = true ↔
      u.kind = .identifier ∨ u.kind ∈ TokenKind.keywords ∨ u.kind = .number := by
  constructor
  · intro hpart
    rcases h.cases with ⟨-, hu⟩ | ⟨hk, -, -⟩ | ⟨hk, hu⟩
    · rw [← or_assoc, hu]
      exact .inl (kind_ofWord u.text u.position)
    · exact .inr (.inr hk)
    · rw [hu, text_ofKind (.inr hk)] at hlist
      rw [(TokenKind.symbol_head hk hlist).1] at hpart
      cases hpart
  · intro hk
    rcases h.head_cases hlist with hpart | ⟨hsymbol, -⟩
    · exact hpart
    · exact absurd hsymbol (TokenKind.notMem_symbols hk)

theorem isDigit_head_iff (h : u.Spelled) (hlist : u.text.toList = c :: tail) :
    c.isDigit = true ↔ u.kind = .number := by
  rcases h.cases with ⟨hword, hu⟩ | ⟨hk, -, hdigits⟩ | ⟨hk, hu⟩
  · rw [hlist] at hword
    have hkind := kind_ofWord u.text u.position
    rw [← hu] at hkind
    refine iff_of_false ?_ ?_
    · intro hdigit
      have halpha := hword.1
      rw [Scanner.isAlpha_eq_false_of_isDigit hdigit] at halpha
      cases halpha
    · intro hnumber
      rw [hnumber] at hkind
      exact absurd hkind (by decide)
  · have hvalue : u.text = u.value := by simp [text, hk]
    rw [← hvalue, hlist] at hdigits
    exact iff_of_true (hdigits c List.mem_cons_self) hk
  · rw [hu, text_ofKind (.inr hk)] at hlist
    refine iff_of_false ?_ ?_
    · rw [(Scanner.symbol_no_word hk hlist).2.1]
      exact Bool.false_ne_true
    · intro hnumber
      rw [hnumber] at hk
      exact absurd hk (by decide)

/-- The only tokens that begin with a smaller sign or a slash are these signs. -/
theorem sign_head_iff (h : u.Spelled) (hlist : u.text.toList = c :: tail) :
    (c = '<' ↔ u.kind = .less) ∧ (c = '/' ↔ u.kind = .slash) := by
  rcases h.head_cases hlist with hpart | ⟨hk, htext⟩
  · have hk := TokenKind.notMem_symbols ((h.isWordPart_head_iff hlist).mp hpart)
    refine ⟨iff_of_false ?_ ?_, iff_of_false ?_ ?_⟩
    · rintro rfl
      cases hpart
    · intro hless
      exact hk (by rw [hless]; decide)
    · rintro rfl
      cases hpart
    · intro hslash
      exact hk (by rw [hslash]; decide)
  · exact (TokenKind.symbol_head hk htext).2

/-- The first character of a token goes on with the token before it if and only if they merge. -/
theorem goesOn_head_iff (h : u.Spelled) (hlist : u.text.toList = c :: tail) (t : Token) :
    t.kind.GoesOn c ↔ Merges t u := by
  have hequals : c = '=' ↔ u.text.toList.head? = some '=' := by simp [hlist]
  obtain ⟨hless, hslash⟩ := h.sign_head_iff hlist
  rw [TokenKind.goesOn_iff, h.isWordPart_head_iff hlist, h.isDigit_head_iff hlist, hequals, hless,
    hslash]
  rfl

end Token.Spelled

/-! ## Gaps after a token -/

/-- A gap begins with a blank or a comment. -/
theorem LastGap.head_cases {g rest : List Char} (h : LastGap g rest) (hne : g ≠ []) :
    (∃ c more, g = c :: more ∧ isBlank c = true) ∨ BeginsComment g := by
  rcases h with hgap | ⟨-, g, o, rfl, hgap, line, rfl, -⟩
  · cases hgap with
    | nil => exact absurd rfl hne
    | blank hc _ => exact .inl ⟨_, _, rfl, hc⟩
    | comment => exact .inr ⟨_, rfl⟩
  · cases hgap with
    | nil => exact .inr ⟨line, rfl⟩
    | blank hc _ => exact .inl ⟨_, _, rfl, hc⟩
    | comment => exact .inr ⟨_, rfl⟩

/-- Only the slash is gone on with by a gap, and only by one that begins with a comment. -/
theorem LastGap.maximal_append_iff {g rest : List Char} (h : LastGap g rest) (hne : g ≠ [])
    (k : TokenKind) (cs : List Char) :
    Maximal k (g ++ cs) ↔ (k = .slash → ¬BeginsComment g) := by
  rcases h.head_cases hne with ⟨c, more, rfl, hc⟩ | hcomment
  · refine iff_of_true (maximal_blank hc k _) ?_
    rintro - ⟨line, hline⟩
    rw [(List.cons.inj hline).1] at hc
    cases hc
  · obtain ⟨line, rfl⟩ := hcomment
    have hmax : Maximal k ('/' :: '/' :: line ++ cs) ↔ k ≠ .slash := by
      rw [Ne, ← TokenKind.goesOn_slash_iff]
      refine ⟨fun h => h '/' rfl, fun h d hd => ?_⟩
      cases hd
      exact h
    rw [hmax]
    exact ⟨fun hk hslash => absurd hslash hk, fun hk hslash => hk hslash ⟨line, rfl⟩⟩

/-- What follows a token does not go on with it if and only if it begins with a gap that is no
comment after a slash, or with a token that does not merge. -/
theorem maximal_piece_iff {t : Token} {y : Piece} (hgap : Gap y.gap) (hy : y.token.Spelled)
    (cs : List Char) :
    Maximal t.kind (y.chars ++ cs) ↔
      (t.kind = .slash → ¬BeginsComment y.gap) ∧ (Merges t y.token → y.gap ≠ []) := by
  rw [Piece.chars, List.append_assoc]
  by_cases hne : y.gap = []
  · obtain ⟨c, tail, hlist⟩ := List.exists_cons_of_ne_nil hy.text_ne_nil
    have hmax : Maximal t.kind (c :: tail ++ cs) ↔ ¬t.kind.GoesOn c := by
      refine ⟨fun h => h c rfl, fun h d hd => ?_⟩
      cases hd
      exact h
    have hcomment : ¬BeginsComment [] := by
      rintro ⟨line, hline⟩
      cases hline
    rw [hne, hlist, List.nil_append, hmax, hy.goesOn_head_iff hlist]
    simp [hcomment]
  · have hlast : LastGap y.gap [] := .inl hgap
    rw [hlast.maximal_append_iff hne]
    simp [hne]

theorem maximal_last_iff {k : TokenKind} {last : List Char} (h : LastGap last []) :
    Maximal k last ↔ (k = .slash → ¬BeginsComment last) := by
  by_cases hne : last = []
  · subst hne
    refine iff_of_true nofun ?_
    rintro - ⟨line, hline⟩
    cases hline
  · have hmax := h.maximal_append_iff hne k []
    rwa [List.append_nil] at hmax

/-! ## Separated tokens -/

/-- The gaps keep the tokens apart if and only if no token is gone on with by what follows it. -/
theorem separated_iff_maximal {pieces : List Piece} {last : List Char}
    (hgaps : ∀ x ∈ pieces, Gap x.gap) (hspelled : ∀ x ∈ pieces, x.token.Spelled)
    (hlast : LastGap last []) :
    Separated pieces last ↔ ∀ before x after, pieces = before ++ x :: after →
      Maximal x.token.kind (after.flatMap Piece.chars ++ last) := by
  have hmem : ∀ before x y after, pieces = before ++ x :: y :: after → y ∈ pieces := by
    intro before x y after heq
    rw [heq]
    simp
  constructor
  · intro h before x after heq
    cases after with
    | nil => exact (maximal_last_iff hlast).mpr (h.comment before x [] heq)
    | cons y after =>
      have hy := hmem before x y after heq
      rw [List.flatMap_cons, List.append_assoc]
      exact (maximal_piece_iff (hgaps y hy) (hspelled y hy) _).mpr
        ⟨h.comment before x (y :: after) heq, h.merging before x y after heq⟩
  · intro h
    have hpair : ∀ before x y after, pieces = before ++ x :: y :: after →
        (x.token.kind = .slash → ¬BeginsComment y.gap) ∧ (Merges x.token y.token → y.gap ≠ []) := by
      intro before x y after heq
      have hy := hmem before x y after heq
      have hmax := h before x (y :: after) heq
      rw [List.flatMap_cons, List.append_assoc] at hmax
      exact (maximal_piece_iff (hgaps y hy) (hspelled y hy) _).mp hmax
    constructor
    · intro before x after heq
      cases after with
      | nil => exact (maximal_last_iff hlast).mp (h before x [] heq)
      | cons y after => exact (hpair before x y after heq).1
    · intro before x y after heq
      exact (hpair before x y after heq).2

/-! ## Written texts -/

/-- Tokens that a text can hold, with gaps before, between and after them that keep them apart. -/
structure Written (pieces : List Piece) (last : List Char) : Prop where
  spelled : ∀ x ∈ pieces, x.token.Spelled
  gaps : ∀ x ∈ pieces, Gap x.gap
  lastGap : LastGap last []
  separated : Separated pieces last

/-- The text of the tokens and the gaps. -/
def writtenText (pieces : List Piece) (last : List Char) : String :=
  String.ofList (pieces.flatMap Piece.chars ++ last)

theorem Written.division {pieces : List Piece} {last : List Char} (h : Written pieces last) :
    Division (writtenText pieces last) pieces last [] := by
  have hmax := (separated_iff_maximal h.gaps h.spelled h.lastGap).mp h.separated
  refine ⟨?_, ⟨h.gaps, h.spelled, ?_⟩, h.lastGap, nofun⟩
  · rw [writtenText, String.toList_ofList, List.append_nil]
  · rwa [List.append_nil]

/-- Reading undoes writing: the tokens of a written text are those that were written, and then the
end of the text. Every text that is read without an error has been written in this way. -/
theorem collectTokens_writtenText :
    (∀ pieces last, Written pieces last →
      (collectTokens (writtenText pieces last)).2 = none ∧
        (collectTokens (writtenText pieces last)).1.map Token.shape =
          (pieces.map fun x => x.token.shape) ++ [.ofKind .endOfText .start]) ∧
    ∀ source, (collectTokens source).2 = none →
      ∃ pieces last, Written pieces last ∧ source = writtenText pieces last := by
  constructor
  · intro pieces last h
    obtain ⟨q, hq⟩ := h.division.exists_end
    unfold collectTokens
    rw [hq]
    refine ⟨rfl, ?_⟩
    change (placed .start pieces ++ [Token.ofKind .endOfText q]).map Token.shape = _
    rw [List.map_append, map_shape_placed]
    rfl
  · intro source hnone
    obtain ⟨pieces, last, rest, h⟩ := exists_division source
    cases rest with
    | nil =>
      have hmax := h.legible.maximal
      rw [List.append_nil] at hmax
      have hseparated := (separated_iff_maximal h.legible.gaps h.legible.spelled h.lastGap).mpr hmax
      refine ⟨pieces, last, ⟨h.legible.spelled, h.legible.gaps, h.lastGap, hseparated⟩, ?_⟩
      rw [writtenText, ← String.toList_inj, String.toList_ofList, h.text, List.append_nil]
    | cons c more =>
      obtain ⟨fault, hfault⟩ := h.stops c more rfl
      unfold collectTokens at hnone
      rw [h.ofString_fault hfault] at hnone
      cases hnone

end WhileLang
