import Mathlib.Data.List.Forall2
import WhileLang.Proofs.Lexing.Separation
import WhileLang.Proofs.Viewing.Highlighting

/-!
# Highlighting and the scanner

Highlighting cuts a line without the scanner and with simpler rules: a word begins with any letter,
digit or underscore and takes all of them that follow. In a line that the scanner reads without an
error the two agree all the same (`ofLine_agrees`). There a word is an identifier or a reserved
word, or it begins with a number; further tokens of the same word are not shown on their own. The
comment that is shown is the one that the scanner discards (`Scanner.Discards`): a gap is passed
over comment by comment (`Scanner.skipGap_eq`).

The induction is on the tokens of the line. Between the pieces from some place on and the scanner at
this place it keeps `Agrees`.
-/

namespace WhileLang

/-! ## Comments that the scanner discards -/

namespace Scanner

/-- The comment after the blanks, if there is one: where its first slash stands, and the scanner
behind it. -/
def comment? (s : Scanner) : Option (Position × Scanner) :=
  match s.source.takeWhile isBlank with
  | (blanks, rest) =>
    if rest.opensComment then
      some ((s.position.pastAll blanks).nextColumn,
        ⟨rest.skipLine, (s.position.pastAll blanks).nextLine⟩)
    else
      none

/-- A gap is passed over comment by comment. -/
theorem skipGap_eq (s : Scanner) :
    s.skipGap =
      match s.comment? with
      | some (_, behind) => behind.skipGap
      | none =>
        ⟨(s.source.takeWhile isBlank).2, s.position.pastAll (s.source.takeWhile isBlank).1⟩ := by
  rw [skipGap, comment?]
  by_cases hopen : (s.source.takeWhile isBlank).2.opensComment = true
  · simp only [hopen, if_true]
  · simp only [hopen, if_false, Bool.false_eq_true]

/-- The scanner takes a token, without a comment in the gap before it. -/
structure Takes (s : Scanner) (t : Token) (s' : Scanner) : Prop where
  comment : s.comment? = none
  next : s.next = .ok (t, s')
  kind : t.kind ≠ .endOfText

/-- A scanner that reads on discards a comment at the position. -/
inductive Discards : Scanner → Position → Prop where
  | here {s s' : Scanner} {q : Position} (h : s.comment? = some (q, s')) : Discards s q
  | behindComment {s s' : Scanner} {q q' : Position} (h : s.comment? = some (q', s'))
      (h' : Discards s' q) : Discards s q
  | behindToken {s s' : Scanner} {t : Token} {q : Position} (h : s.next = .ok (t, s'))
      (ht : t.kind ≠ .endOfText) (h' : Discards s' q) : Discards s q

variable {g cs : List Char} {s s' : Scanner} {t : Token} {p q : Position}

theorem comment?_blanks (hg : ∀ c ∈ g, isBlank c = true) (h : EndsGap cs) :
    (ofChars (g ++ cs) p).comment? = none := by
  unfold comment? ofChars
  rw [takeWhile_ofChars isBlank hg h.1]
  exact if_neg (by simp [opensComment_endsGap h])

theorem comment?_openComment (hg : ∀ c ∈ g, isBlank c = true) (h : OpenComment cs) :
    (ofChars (g ++ cs) p).comment? =
      some ((p.pastAll g).nextColumn, ofChars [] (p.pastAll g).nextLine) := by
  obtain ⟨line, rfl, hline⟩ := h
  unfold comment? ofChars
  rw [takeWhile_ofChars isBlank hg (beginsOutside_cons rfl _)]
  have hafter : CharStream.afterLine ('/' :: '/' :: line) = [] :=
    afterLine_eq_nil (by simpa using hline)
  show some (_, Scanner.mk ⟨[], CharStream.afterLine _⟩ _) = _
  rw [hafter]

/-- All comments are behind the token. -/
theorem Takes.discards_iff (h : s.Takes t s') : s.Discards q ↔ s'.Discards q := by
  refine ⟨fun hq => ?_, .behindToken h.next h.kind⟩
  cases hq with
  | here hcomment | behindComment hcomment =>
    rw [h.comment] at hcomment
    cases hcomment
  | behindToken hnext _ hq =>
    rw [h.next] at hnext
    cases hnext
    exact hq

theorem not_discards_gap (hg : ∀ c ∈ g, isBlank c = true) (hgap : Gap g) :
    ¬(ofChars g p).Discards q := by
  intro h
  have hcomment := comment?_blanks (p := p) hg endsGap_nil
  rw [List.append_nil] at hcomment
  cases h with
  | here h | behindComment h =>
    rw [hcomment] at h
    cases h
  | behindToken hnext ht =>
    rw [next_gap hgap] at hnext
    cases hnext
    exact ht rfl

/-- A comment that the text ends in is the last one. -/
theorem discards_openComment_iff (hg : ∀ c ∈ g, isBlank c = true) (hgap : Gap g)
    (hc : OpenComment cs) : (ofChars (g ++ cs) p).Discards q ↔ q = (p.pastAll g).nextColumn := by
  have hcomment := comment?_openComment (p := p) hg hc
  constructor
  · intro h
    cases h with
    | here h =>
      rw [hcomment] at h
      cases h
      rfl
    | behindComment h hq =>
      rw [hcomment] at h
      cases h
      exact absurd hq (not_discards_gap (List.forall_mem_nil _) .nil)
    | behindToken hnext ht =>
      rw [next_openComment hgap hc] at hnext
      cases hnext
      exact absurd rfl ht
  · rintro rfl
    exact .here hcomment

end Scanner

/-- Without a line feed there is no room for a whole comment. -/
theorem Gap.isBlank_of_line {g : List Char} (hg : Gap g) (hline : '\n' ∉ g) :
    ∀ c ∈ g, isBlank c = true := by
  induction hg with
  | nil => exact List.forall_mem_nil _
  | blank hc _ ih =>
    simp only [List.mem_cons, not_or] at hline
    exact List.forall_mem_cons.mpr ⟨hc, ih hline.2⟩
  | comment => exact absurd (by simp) hline

/-- The second character of a symbol is in no word, and does not begin a comment. -/
theorem TokenKind.symbol_tail {k : TokenKind} (hk : k ∈ symbols) {c : Char} {tail : List Char}
    (htext : k.text.toList = c :: tail) : ∀ d ∈ tail, isWordPart d = false ∧ d ≠ '/' := by
  have hall : (tail.all fun d => !isWordPart d && d != '/') = true := by
    cases k with
    | _ =>
      first
      | exact absurd hk (by decide)
      | obtain ⟨-, rfl⟩ : _ = c ∧ _ = tail := List.cons.inj htext
        rfl
  intro d hd
  simpa using List.all_eq_true.mp hall d hd

/-! ## What is shown -/

/-- The style that the kind of a token in a word demands. -/
def TokenKind.wordStyle : TokenKind → Style
  | .intWord | .boolWord => .colored Theme.typeName
  | .trueWord | .falseWord | .number => .colored Theme.number
  | .identifier => .colored Theme.text
  | _ => (Style.colored Theme.keyword).inBold

theorem TokenKind.keyword?_of_isDigit {word : List Char} {c : Char} (hhead : word.head? = some c)
    (hc : c.isDigit = true) : keyword? (String.ofList word) = none := by
  cases hk : keyword? (String.ofList word) with
  | none => rfl
  | some k =>
    obtain ⟨hmem, htext⟩ := keyword?_eq_some hk
    obtain ⟨cs, rfl⟩ := List.head?_eq_some_iff.mp hhead
    have hword := isWord_text k hmem
    rw [htext, String.toList_ofList] at hword
    have halpha := hword.1
    rw [Scanner.isAlpha_eq_false_of_isDigit hc] at halpha
    cases halpha

theorem Role.style_ofWord {word : List Char} {c : Char} (hhead : word.head? = some c)
    (hc : c.isAlpha = true) (p : Position) :
    (ofWord word).style = (Token.ofWord (String.ofList word) p).kind.wordStyle := by
  have hdigit : c.isDigit = false := by
    apply Bool.eq_false_iff.mpr
    intro hdigit
    rw [Scanner.isAlpha_eq_false_of_isDigit hdigit] at hc
    cases hc
  unfold ofWord Token.ofWord
  cases hk : TokenKind.keyword? (String.ofList word) with
  | none => simp [hhead, hdigit, style, TokenKind.wordStyle]
  | some k =>
    have hmem := (TokenKind.keyword?_eq_some hk).1
    cases k <;> first | rfl | exact absurd hmem (by decide)

theorem Role.style_ofWord_number {word : List Char} {c : Char} (hhead : word.head? = some c)
    (hc : c.isDigit = true) : (ofWord word).style = TokenKind.number.wordStyle := by
  unfold ofWord
  rw [TokenKind.keyword?_of_isDigit hhead hc]
  simp [hhead, hc, style, TokenKind.wordStyle]

namespace Highlight

theorem span_style (h : Highlight) : h.span.style = h.role.style := rfl

/-- The pieces of a text that begins after the position `p`, each with the position of its first
character. -/
def positioned (p : Position) : List Highlight → List (Position × Highlight)
  | [] => []
  | h :: hs => (p.nextColumn, h) :: positioned (p.pastAll h.text) hs

/-- The words among the pieces. -/
def words (hs : List (Position × Highlight)) : List (Position × Highlight) :=
  hs.filter fun x => x.2.role.isWord

theorem words_cons {x : Position × Highlight} (hx : x.2.role.isWord = true)
    (hs : List (Position × Highlight)) : words (x :: hs) = x :: words hs :=
  List.filter_cons_of_pos hx

theorem words_cons_of_symbol {x : Position × Highlight} (hx : x.2.role.isWord = false)
    (hs : List (Position × Highlight)) : words (x :: hs) = words hs :=
  List.filter_cons_of_neg (by simp [hx])

/-- A word at a position shows a token: an identifier or a reserved word as a whole, or the number
that it begins with. -/
inductive Shows : Position × Highlight → Token → Prop where
  | word {h : Highlight} {t : Token} (hhead : ∃ c, h.text.head? = some c ∧ c.isAlpha = true)
      (hkind : t.kind = .identifier ∨ t.kind ∈ TokenKind.keywords) (htext : t.text.toList = h.text)
      (hstyle : h.span.style = t.kind.wordStyle) : Shows (t.position, h) t
  | number {h : Highlight} {t : Token} (hhead : ∃ c, h.text.head? = some c ∧ c.isDigit = true)
      (hkind : t.kind = .number) (htext : t.text.toList = h.text.takeWhile Char.isDigit)
      (hstyle : h.span.style = t.kind.wordStyle) : Shows (t.position, h) t

/-- What is shown and what a scanner reads: the comments are those that it discards, and the words
show tokens in the order in which it reads them. -/
structure Agrees (hs : List (Position × Highlight)) (s : Scanner) : Prop where
  comments : ∀ q, (∃ h, (q, h) ∈ hs ∧ h.role = .comment) ↔ s.Discards q
  words : ∃ shown, shown.Sublist (TokenStream.ofScanner s).tokens ∧
    List.Forall₂ Shows (Highlight.words hs) shown

namespace Agrees

variable {x : Position × Highlight} {hs : List (Position × Highlight)} {s s' : Scanner} {t : Token}

theorem cons_comments_iff (hx : x.2.role ≠ .comment) (q : Position) :
    (∃ h, (q, h) ∈ x :: hs ∧ h.role = .comment) ↔ ∃ h, (q, h) ∈ hs ∧ h.role = .comment := by
  constructor
  · rintro ⟨h, hmem, hrole⟩
    rcases List.mem_cons.mp hmem with rfl | hmem
    · exact absurd hrole hx
    · exact ⟨h, hmem, hrole⟩
  · rintro ⟨h, hmem, hrole⟩
    exact ⟨h, List.mem_cons_of_mem x hmem, hrole⟩

theorem nil (h : ∀ q, ¬s.Discards q) : Agrees [] s := by
  refine ⟨fun q => iff_of_false ?_ (h q), [], List.nil_sublist _, .nil⟩
  rintro ⟨h, hmem, -⟩
  cases hmem

/-- Single symbols show nothing. -/
theorem symbol {p : Position} {c : Char} {cs : List Char} (hc : isWordPart c = false)
    (hcomment : ¬(c = '/' ∧ cs.head? = some '/'))
    (h : Agrees (positioned (p.past c) (pieces cs)) s) :
    Agrees (positioned p (pieces (c :: cs))) s := by
  rw [pieces_symbol hc hcomment, positioned]
  constructor
  · intro q
    rw [cons_comments_iff (ofSymbol_ne_comment c)]
    exact h.comments q
  · rw [words_cons_of_symbol (isWord_ofSymbol c)]
    exact h.words

theorem symbols {p : Position} {cs rest : List Char}
    (hcs : ∀ c ∈ cs, isWordPart c = false ∧ c ≠ '/')
    (h : Agrees (positioned (p.pastAll cs) (pieces rest)) s) :
    Agrees (positioned p (pieces (cs ++ rest))) s := by
  induction cs generalizing p with
  | nil => exact h
  | cons c cs ih =>
    obtain ⟨⟨hpart, hslash⟩, hcs⟩ := List.forall_mem_cons.mp hcs
    exact symbol hpart (fun hcomment => hslash hcomment.1) (ih hcs h)

/-- The scanner takes a token that is not shown on its own. -/
theorem take (ht : s.Takes t s') (h : Agrees hs s') : Agrees hs s := by
  constructor
  · intro q
    rw [ht.discards_iff]
    exact h.comments q
  · obtain ⟨shown, hsub, hall⟩ := h.words
    refine ⟨shown, ?_, hall⟩
    rw [TokenStream.ofScanner_of_next_ok ht.next ht.kind, TokenStream.tokens_cons]
    exact hsub.cons t

/-- The scanner takes a token that is shown by a word. -/
theorem word (ht : s.Takes t s') (hword : x.2.role.isWord = true) (hshows : Shows x t)
    (h : Agrees hs s') : Agrees (x :: hs) s := by
  constructor
  · intro q
    rw [ht.discards_iff, cons_comments_iff (ne_comment_of_isWord hword)]
    exact h.comments q
  · obtain ⟨shown, hsub, hall⟩ := h.words
    refine ⟨t :: shown, ?_, ?_⟩
    · rw [TokenStream.ofScanner_of_next_ok ht.next ht.kind, TokenStream.tokens_cons]
      exact hsub.cons_cons t
    · rw [words_cons hword]
      exact .cons hshows hall

/-- What is behind a word need not be shown as a word of its own. -/
theorem of_word (hword : x.2.role.isWord = true) (h : Agrees (x :: hs) s) : Agrees hs s := by
  constructor
  · intro q
    rw [← cons_comments_iff (ne_comment_of_isWord hword)]
    exact h.comments q
  · obtain ⟨shown, hsub, hall⟩ := h.words
    rw [words_cons hword] at hall
    obtain ⟨t, rest, -, hrest, rfl⟩ := List.forall₂_cons_left_iff.mp hall
    exact ⟨rest, (List.sublist_cons_self t rest).trans hsub, hrest⟩

end Agrees

/-! ## Tokens in the pieces -/

section Token

variable {s s' : Scanner} {t : Token} {p : Position} {rest : List Char}

/-- An identifier or a reserved word is a word. -/
theorem agrees_word (ht : s.Takes t s') (hfirst : FirstToken t (t.text.toList ++ rest) rest)
    (hp : t.position = p.nextColumn) (hword : IsWord t.text.toList)
    (heq : t = .ofWord t.text t.position)
    (h : Agrees (positioned (p.pastAll t.text.toList) (pieces rest)) s') :
    Agrees (positioned p (pieces (t.text.toList ++ rest))) s := by
  have hkind : t.kind = .identifier ∨ t.kind ∈ TokenKind.keywords :=
    heq ▸ Token.kind_ofWord t.text t.position
  have hne := hfirst.spelled.text_ne_nil
  obtain ⟨c, tail, hlist⟩ := List.exists_cons_of_ne_nil hne
  have hhead : t.text.toList.head? = some c := by rw [hlist]; rfl
  have halpha : c.isAlpha = true := by
    rw [hlist] at hword
    exact hword.1
  have hstyle := Role.style_ofWord hhead halpha t.position
  rw [String.ofList_toList, ← heq] at hstyle
  rw [pieces_word hword.isWordPart (hfirst.maximal.beginsOutside_word hkind), ofWord?_of_ne_nil hne]
  refine h.word ht (isWord_ofWord _) ?_
  rw [← hp]
  refine .word ⟨c, hhead, halpha⟩ hkind rfl ?_
  rw [span_style]
  exact hstyle

/-- A number is the beginning of a word. What comes after it in the word is read on its own, but
shown with the number. -/
theorem agrees_number (ht : s.Takes t s') (hfirst : FirstToken t (t.text.toList ++ rest) rest)
    (hp : t.position = p.nextColumn) (hk : t.kind = .number)
    (hdigits : ∀ c ∈ t.text.toList, c.isDigit = true)
    (h : Agrees (positioned (p.pastAll t.text.toList) (pieces rest)) s') :
    Agrees (positioned p (pieces (t.text.toList ++ rest))) s := by
  have hmax := hfirst.maximal
  rw [hk] at hmax
  obtain ⟨w, more, rfl, hw, hmore⟩ : ∃ w more, rest = w ++ more ∧
      (∀ c ∈ w, isWordPart c = true) ∧ BeginsOutside isWordPart more :=
    ⟨_, _, List.takeWhile_append_dropWhile.symm,
      fun c hc => List.all_eq_true.mp List.all_takeWhile c hc, beginsOutside_dropWhile _ rest⟩
  have hstop : BeginsOutside Char.isDigit w := by
    intro d hd
    apply hmax.beginsOutside_number
    rw [List.head?_append, hd]
    rfl
  have hword : ∀ c ∈ t.text.toList ++ w, isWordPart c = true := by
    intro c hc
    rcases List.mem_append.mp hc with hc | hc
    · exact isWordPart_of_isDigit (hdigits c hc)
    · exact hw c hc
  -- the words in `w` that the rest shows on its own are those that go with the number
  have hbehind : Agrees (positioned (p.pastAll (t.text.toList ++ w)) (pieces more)) s' := by
    rw [pieces_word hw hmore] at h
    rw [Position.pastAll_append]
    cases w with
    | nil => exact h
    | cons c w => exact h.of_word (isWord_ofWord _)
  obtain ⟨c, tail, hlist⟩ := List.exists_cons_of_ne_nil hfirst.spelled.text_ne_nil
  have hhead : (t.text.toList ++ w).head? = some c := by rw [hlist]; rfl
  have hc := hdigits c (by rw [hlist]; exact List.mem_cons_self)
  rw [← List.append_assoc, pieces_word hword hmore, ofWord?_of_ne_nil (by simp [hlist])]
  refine hbehind.word ht (isWord_ofWord _) ?_
  rw [← hp]
  refine .number ⟨c, hhead, hc⟩ hk (cut_of_class hdigits hstop).1.symm ?_
  rw [span_style, hk]
  exact Role.style_ofWord_number hhead hc

/-- A symbol is no word, and does not begin a comment. -/
theorem agrees_symbol (ht : s.Takes t s') (hfirst : FirstToken t (t.text.toList ++ rest) rest)
    (hk : t.kind ∈ TokenKind.symbols) (htext : t.text.toList = t.kind.text.toList)
    (h : Agrees (positioned (p.pastAll t.text.toList) (pieces rest)) s') :
    Agrees (positioned p (pieces (t.text.toList ++ rest))) s := by
  have hends := hfirst.endsGap
  obtain ⟨c, tail, hlist⟩ := List.exists_cons_of_ne_nil hfirst.spelled.text_ne_nil
  have hsymbol := htext.symm.trans hlist
  rw [hlist, List.cons_append] at hends ⊢
  rw [hlist, Position.pastAll_cons] at h
  apply Agrees.symbol (TokenKind.symbol_head hk hsymbol).1
  · rintro ⟨rfl, hslash⟩
    obtain ⟨more, hmore⟩ := List.head?_eq_some_iff.mp hslash
    exact hends.2 more (congrArg ('/' :: ·) hmore)
  · exact .symbols (TokenKind.symbol_tail hk hsymbol) (h.take ht)

end Token

/-- Blanks and a token, whichever it is. -/
theorem agrees_token {g rest : List Char} {t : Token} {p : Position} (hg : Gap g)
    (hline : '\n' ∉ g) (hfirst : FirstToken t (t.text.toList ++ rest) rest)
    (hp : t.position = (p.pastAll g).nextColumn)
    (h : Agrees (positioned (p.pastAll (g ++ t.text.toList)) (pieces rest))
      (.ofChars rest (p.pastAll (g ++ t.text.toList)))) :
    Agrees (positioned p (pieces (g ++ (t.text.toList ++ rest))))
      (.ofChars (g ++ (t.text.toList ++ rest)) p) := by
  have hblanks := hg.isBlank_of_line hline
  rw [Position.pastAll_append] at h
  have htakes : Scanner.Takes (.ofChars (g ++ (t.text.toList ++ rest)) p) t
      (.ofChars rest ((p.pastAll g).pastAll t.text.toList)) :=
    ⟨Scanner.comment?_blanks hblanks hfirst.endsGap, Scanner.next_token hg hfirst hp,
      hfirst.spelled.kind_ne_endOfText⟩
  apply Agrees.symbols fun c hc => isWordPart_eq_false_of_isBlank (hblanks c hc)
  rcases hfirst.spelled.cases with ⟨hword, heq⟩ | ⟨hk, -, hdigits⟩ | ⟨hk, heq⟩
  · exact agrees_word htakes hfirst hp hword heq h
  · have hvalue : t.text = t.value := by simp [Token.text, hk]
    rw [← hvalue] at hdigits
    exact agrees_number htakes hfirst hp hk hdigits h
  · have htext : t.text = t.kind.text := by
      rw [heq, Token.text_ofKind (.inr hk)]
      rfl
    exact agrees_symbol htakes hfirst hk (by rw [htext]) h

/-- Behind the last token there are only blanks, and perhaps a comment. -/
theorem agrees_last {last : List Char} (h : LastGap last []) (hline : '\n' ∉ last) (p : Position) :
    Agrees (positioned p (pieces last)) (.ofChars last p) := by
  rcases h with hgap | ⟨-, g, c, rfl, hgap, hc⟩
  · have hblanks := hgap.isBlank_of_line hline
    rw [← List.append_nil last]
    apply Agrees.symbols fun d hd => isWordPart_eq_false_of_isBlank (hblanks d hd)
    rw [List.append_nil, pieces]
    exact .nil fun q => Scanner.not_discards_gap hblanks hgap
  · have hblanks := hgap.isBlank_of_line fun h => hline (List.mem_append_left c h)
    apply Agrees.symbols fun d hd => isWordPart_eq_false_of_isBlank (hblanks d hd)
    constructor
    · intro q
      rw [Scanner.discards_openComment_iff hblanks hgap hc]
      obtain ⟨line, rfl, -⟩ := hc
      rw [pieces_comment]
      simp [positioned]
    · refine ⟨[], List.nil_sublist _, ?_⟩
      obtain ⟨line, rfl, -⟩ := hc
      rw [pieces_comment]
      exact .nil

theorem tokens_sublist_listing (s : TokenStream) : s.tokens.Sublist s.listing := by
  unfold TokenStream.listing
  split
  · exact List.sublist_append_left _ _
  · exact .refl _

/-- A line that is tokens and gaps, read from any position on. -/
theorem agrees_legible {xs : List Piece} {last : List Char} (h : Legible xs last)
    (hlast : LastGap last []) (hline : '\n' ∉ xs.flatMap Piece.chars ++ last) (p : Position) :
    Agrees (positioned p (pieces (xs.flatMap Piece.chars ++ last)))
      (.ofChars (xs.flatMap Piece.chars ++ last) p) := by
  induction xs generalizing p with
  | nil => exact agrees_last hlast hline p
  | cons x xs ih =>
    have hchars : (x :: xs).flatMap Piece.chars ++ last =
        x.gap ++ (x.token.text.toList ++ (xs.flatMap Piece.chars ++ last)) := by
      rw [List.flatMap_cons, Piece.chars, List.append_assoc, List.append_assoc]
    rw [hchars] at hline ⊢
    simp only [List.mem_append, not_or] at hline
    apply agrees_token (t := x.token.moveTo (p.pastAll x.gap).nextColumn)
      (h.gaps x List.mem_cons_self) hline.1 (h.firstToken _) rfl
    apply ih h.tail
    simpa using hline.2.2

/-- **Highlighting agrees with the scanner.** In a line that is read without an error, the comment
that is shown is the one that the scanner discards, and begins where it begins. The words show
tokens of the line, in their order, where they stand and in the style that they demand: a word that
begins with a letter is an identifier or a reserved word, and a word that begins with a digit begins
with the digits of a number. There are no other words. -/
theorem ofLine_agrees (line : String) (hline : '\n' ∉ line.toList)
    (hread : (collectTokens line).2 = none) :
    (∀ q, (∃ h, (q, h) ∈ positioned .start (ofLine line) ∧ h.role = .comment) ↔
      (Scanner.ofString line).Discards q) ∧
    ∃ shown, shown.Sublist (collectTokens line).1 ∧
      List.Forall₂ Shows (words (positioned .start (ofLine line))) shown := by
  obtain ⟨xs, last, h⟩ := exists_division_of_read hread
  have htext := h.text
  have hlegible := h.legible
  rw [List.append_nil] at htext hlegible
  rw [htext] at hline
  have hagrees := agrees_legible hlegible h.lastGap hline .start
  rw [← htext] at hagrees
  obtain ⟨shown, hsub, hall⟩ := hagrees.words
  exact ⟨hagrees.comments, shown, hsub.trans (tokens_sublist_listing _), hall⟩

/-- A number with letters after it is one word and two tokens, and `int` is not seen in a
comment. -/
theorem ofLine_agrees_number :
    let line := "if 12ab // int"
    '\n' ∉ line.toList ∧ (collectTokens line).2 = none ∧
      words (positioned .start (ofLine line)) =
        [(⟨1, 1⟩, ⟨.keyword, ['i', 'f']⟩), (⟨1, 4⟩, ⟨.number, ['1', '2', 'a', 'b']⟩)] ∧
      (Scanner.ofString line).Discards ⟨1, 9⟩ ∧
      ∃ shown, shown.Sublist (collectTokens line).1 ∧
        List.Forall₂ Shows (words (positioned .start (ofLine line))) shown := by
  intro line
  have hline : '\n' ∉ line.toList := by decide
  have hread : (collectTokens line).2 = none := by decide +kernel
  have hwords : words (positioned .start (ofLine line)) =
      [(⟨1, 1⟩, ⟨.keyword, ['i', 'f']⟩), (⟨1, 4⟩, ⟨.number, ['1', '2', 'a', 'b']⟩)] := by
    decide +kernel
  have hcomment : (⟨1, 9⟩, ⟨.comment, "// int".toList⟩) ∈ positioned .start (ofLine line) := by
    decide +kernel
  obtain ⟨hcomments, hshown⟩ := ofLine_agrees line hline hread
  exact ⟨hline, hread, hwords, (hcomments _).mp ⟨_, hcomment, rfl⟩, hshown⟩

end Highlight

end WhileLang
