import WhileLang.Proofs.Lexing.Cursor
import WhileLang.Proofs.Lexing.Positions

/-!
# Texts that go on below

What a text is read as if it goes on on the next line. Up to the end of the text nothing changes,
and from there on the tokens are those of the continuation, as many lines further down as there are
lines above it (`ofString_below`). A text that stops at a lexical error is read as before, whatever
it goes on with (`ofString_below_failure`).

* `Position.down`, `TokenStream.down`: everything some lines further down.
* `ofScanner_down`: the scanner does not look at the line that it starts on.
* `collectTokens_below`: the tokens of a text that goes on below, from those of the two parts.
-/

namespace WhileLang

/-! ## Further down -/

namespace Position

/-- The position `k` lines further down. -/
def down (k : Nat) (p : Position) : Position := ⟨p.line + k, p.column⟩

@[simp] theorem nextColumn_down (k : Nat) (p : Position) :
    (p.down k).nextColumn = p.nextColumn.down k := rfl

@[simp] theorem nextLine_down (k : Nat) (p : Position) :
    (p.down k).nextLine = p.nextLine.down k := by
  rw [nextLine, nextLine, down, down, Nat.add_right_comm]

theorem past_down (k : Nat) (p : Position) (c : Char) :
    (p.down k).past c = (p.past c).down k := by
  unfold past
  split
  · exact nextLine_down k p
  · rfl

@[simp] theorem pastAll_down (k : Nat) (p : Position) (cs : List Char) :
    (p.down k).pastAll cs = (p.pastAll cs).down k := by
  induction cs generalizing p with
  | nil => rfl
  | cons c cs ih => rw [pastAll_cons, pastAll_cons, past_down, ih]

/-- After a line feed, the next line is as far down as there are line feeds. -/
theorem start_pastAll_line (cs : List Char) :
    start.pastAll (cs ++ ['\n']) = start.down (cs.count '\n' + 1) := by
  rw [start_pastAll, List.count_append, List.reverse_append]
  rfl

end Position

/-- The token `k` lines further down. -/
def Token.down (k : Nat) (t : Token) : Token := t.moveTo (t.position.down k)

def LexError.down (k : Nat) (e : LexError) : LexError := ⟨e.fault, e.position.down k⟩

def StreamEnd.down (k : Nat) : StreamEnd → StreamEnd
  | endOfText p => endOfText (p.down k)
  | failure e => failure (e.down k)

namespace TokenStream

/-- The stream with all its tokens and its end `k` lines further down. -/
def down (k : Nat) (s : TokenStream) : TokenStream :=
  ofTokens (s.tokens.map (Token.down k)) (s.ending.down k)

theorem down_cons (k : Nat) (t : Token) (s : TokenStream) :
    (cons t s).down k = cons (t.down k) (s.down k) := rfl

theorem down_append (k : Nat) (us : List Token) (s : TokenStream) :
    (us ++ s).down k = us.map (Token.down k) ++ s.down k := by
  induction us with
  | nil => rfl
  | cons u us ih => rw [cons_append, down_cons, ih, List.map_cons, cons_append]

theorem head_down (k : Nat) (s : TokenStream) :
    (s.down k).head = (s.head.map (Token.down k)).mapError (LexError.down k) := by
  obtain ⟨tokens, ending, _, rfl⟩ := s
  cases tokens <;> cases ending <;> rfl

theorem listing_down (k : Nat) (s : TokenStream) :
    (s.down k).listing = s.listing.map (Token.down k) := by
  obtain ⟨tokens, ending, _, rfl⟩ := s
  cases ending with
  | endOfText p =>
    show _ = (tokens ++ [Token.ofKind .endOfText p]).map (Token.down k)
    rw [List.map_append]
    rfl
  | failure e => rfl

theorem error?_down (k : Nat) (s : TokenStream) :
    (s.down k).error? = s.error?.map (LexError.down k) := by
  obtain ⟨tokens, ending, _, rfl⟩ := s
  cases ending <;> rfl

end TokenStream

open Scanner TokenStream Position

theorem placed_down (k : Nat) (p : Position) (pieces : List Piece) :
    placed (p.down k) pieces = (placed p pieces).map (Token.down k) := by
  induction pieces generalizing p with
  | nil => rfl
  | cons x pieces ih =>
    rw [placed, placed, List.map_cons, pastAll_down, pastAll_down, nextColumn_down, ih]
    rfl

/-- The scanner reads the same on every line. -/
theorem ofScanner_down (k : Nat) (cs : List Char) (p : Position) :
    TokenStream.ofScanner (ofChars cs (p.down k)) =
      (TokenStream.ofScanner (ofChars cs p)).down k := by
  obtain ⟨pieces, last, rest, h⟩ := exists_division (String.ofList cs)
  have htext := h.text
  rw [String.toList_ofList] at htext
  rw [htext, h.legible.ofScanner, h.legible.ofScanner, placed_down, down_append, pastAll_down]
  congr 1
  generalize p.pastAll (pieces.flatMap Piece.chars) = q
  cases rest with
  | nil =>
    rw [List.append_nil]
    rcases h.lastGap with hgap | ⟨-, g, c, rfl, hg, hc⟩
    · rw [ofScanner_gap hgap, ofScanner_gap hgap, pastAll_down]
      rfl
    · rw [ofScanner_openComment hg hc, ofScanner_openComment hg hc, pastAll_down, nextLine_down]
      rfl
  | cons c more =>
    obtain ⟨fault, hfault⟩ := h.stops c more rfl
    have hgap := h.lastGap.whole
    rw [ofScanner_fault hgap hfault, ofScanner_fault hgap hfault, pastAll_down]
    rfl

/-! ## A text and what stands below it -/

theorem Gap.append {g g' : List Char} (h : Gap g) (h' : Gap g') : Gap (g ++ g') := by
  induction h with
  | nil => exact h'
  | blank hc _ ih => exact .blank hc ih
  | comment hline _ ih =>
    rw [List.cons_append, List.cons_append, List.append_assoc, List.cons_append]
    exact .comment hline ih

/-- A line feed completes the last gap of a text. -/
theorem LastGap.line {last : List Char} (h : LastGap last []) : Gap (last ++ ['\n']) := by
  rcases h with hgap | ⟨-, g, c, rfl, hg, line, rfl, hline⟩
  · exact hgap.append (.blank rfl .nil)
  · rw [List.append_assoc]
    exact hg.append (.comment hline .nil)

/-- Nothing goes on with a line feed. -/
theorem Maximal.line {k : TokenKind} {cs : List Char} (h : Maximal k cs) (more : List Char) :
    Maximal k (cs ++ '\n' :: more) := by
  cases cs with
  | nil => exact maximal_blank rfl k more
  | cons c cs => exact h

theorem StartsNoToken.line {c : Char} {rest : List Char} {fault : LexFault}
    (h : StartsNoToken c rest fault) (more : List Char) :
    StartsNoToken c (rest ++ '\n' :: more) fault := by
  cases h with
  | exclamation h =>
    refine .exclamation ?_
    cases rest with
    | nil => simp
    | cons d rest => exact h
  | underscore => exact .underscore
  | other hblank halpha hdigit hsymbol hunderscore =>
    exact .other hblank halpha hdigit hsymbol hunderscore

/-- The pieces of a text are legible where it goes on below. -/
theorem Legible.line {pieces : List Piece} {rest : List Char} (h : Legible pieces rest)
    (more : List Char) : Legible pieces (rest ++ '\n' :: more) := by
  refine h.change fun k cs hmax => ?_
  rw [← List.append_assoc]
  exact hmax.line more

theorem ofScanner_congr {s s' : Scanner} (h : s.next = s'.next) :
    TokenStream.ofScanner s = TokenStream.ofScanner s' := by
  cases hnext : s'.next with
  | error e => rw [ofScanner_of_next_error (h.trans hnext), ofScanner_of_next_error hnext]
  | ok r =>
    obtain ⟨t, rest⟩ := r
    by_cases ht : t.kind = .endOfText
    · rw [ofScanner_of_next_end (h.trans hnext) ht, ofScanner_of_next_end hnext ht]
    · rw [ofScanner_of_next_ok (h.trans hnext) ht, ofScanner_of_next_ok hnext ht]

/-- A gap in front of a text moves it on. -/
theorem ofScanner_gap_append {g : List Char} (hg : Gap g) (cs : List Char) (p : Position) :
    TokenStream.ofScanner (ofChars (g ++ cs) p) =
      TokenStream.ofScanner (ofChars cs (p.pastAll g)) := by
  apply ofScanner_congr
  unfold next
  rw [skipGap_append hg]

theorem toList_below (source more : String) :
    (source ++ "\n" ++ more).toList = source.toList ++ '\n' :: more.toList := by
  simp

/-- Tokens do not end differently because the text goes on below. -/
theorem Division.below {source : String} {pieces : List Piece} {last : List Char} {c : Char}
    {rest : List Char} (h : Division source pieces last (c :: rest)) (more : String) :
    Division (source ++ "\n" ++ more) pieces last (c :: (rest ++ '\n' :: more.toList)) := by
  have hlegible := h.legible.line more.toList
  rw [List.append_assoc, List.cons_append] at hlegible
  refine ⟨?_, hlegible, .inl h.lastGap.whole, ?_⟩
  · rw [toList_below, h.text]
    simp
  · intro d ds hds
    cases hds
    obtain ⟨fault, hfault⟩ := h.stops c rest rfl
    exact ⟨fault, hfault.line more.toList⟩

variable {source : String}

/-- Below the end of a text, its continuation is read like a text of its own. -/
theorem ofString_below (h : (TokenStream.ofString source).error? = none) (more : String) :
    TokenStream.ofString (source ++ "\n" ++ more) =
      (TokenStream.ofString source).tokens ++
        (TokenStream.ofString more).down (source.toList.count '\n' + 1) := by
  obtain ⟨pieces, last, hdiv⟩ := exists_division_of_read h
  have hlegible := hdiv.legible.line more.toList
  have htext := hdiv.text
  rw [List.append_nil] at hlegible htext
  obtain ⟨q, hq⟩ := hdiv.exists_end
  have htokens : (TokenStream.ofString source).tokens = placed .start pieces := by
    rw [hq]
    rfl
  have hjoined : (source ++ "\n" ++ more).toList =
      pieces.flatMap Piece.chars ++ (last ++ '\n' :: more.toList) := by
    rw [toList_below, htext, List.append_assoc]
  have hbelow : last ++ '\n' :: more.toList = (last ++ ['\n']) ++ more.toList := by simp
  have hposition : (start.pastAll (pieces.flatMap Piece.chars)).pastAll (last ++ ['\n']) =
      start.down (source.toList.count '\n' + 1) := by
    rw [← pastAll_append, ← List.append_assoc, ← htext, start_pastAll_line]
  have hread := hlegible.ofScanner .start
  rw [← hjoined, hbelow, ofScanner_gap_append hdiv.lastGap.line, hposition, ofScanner_down] at hread
  rw [htokens]
  exact hread

/-- A lexical error stays where it is, whatever stands below it. -/
theorem ofString_below_failure {e : LexError} (h : (TokenStream.ofString source).error? = some e)
    (more : String) :
    TokenStream.ofString (source ++ "\n" ++ more) = TokenStream.ofString source := by
  obtain ⟨pieces, last, rest, hdiv⟩ := exists_division source
  cases rest with
  | nil =>
    obtain ⟨q, hq⟩ := hdiv.exists_end
    rw [hq] at h
    cases h
  | cons c rest =>
    obtain ⟨fault, hfault⟩ := hdiv.stops c rest rfl
    rw [hdiv.ofString_fault hfault, (hdiv.below more).ofString_fault (hfault.line more.toList)]

/-! ## The tokens of the joined text -/

/-- Of all that a scanner lists, only the last token can be the end of the text. -/
theorem filter_listing_ofScanner (s : Scanner) :
    (TokenStream.ofScanner s).listing.filter (fun t => !t.isEnd) =
      (TokenStream.ofScanner s).tokens := by
  have hkept : (TokenStream.ofScanner s).tokens.filter (fun t => !t.isEnd) =
      (TokenStream.ofScanner s).tokens := by
    refine List.filter_eq_self.mpr fun t ht => ?_
    simp [Token.isEnd, kind_ne_of_mem_ofScanner ht]
  unfold listing
  split
  · rw [List.filter_append, hkept]
    exact List.append_nil _
  · exact hkept

/-- Lexing is compositional at line breaks. A text without an error that goes on below is its own
tokens without their end, and then all that the continuation is, as many lines further down as
there are lines above it. After an error nothing changes. -/
theorem collectTokens_below (source more : String) :
    collectTokens (source ++ "\n" ++ more) =
      match collectTokens source with
      | (tokens, some e) => (tokens, some e)
      | (tokens, none) =>
        let k := 1 + source.toList.count '\n'
        (tokens.filter (fun t => !t.isEnd) ++ (collectTokens more).1.map (Token.down k),
          (collectTokens more).2.map (LexError.down k)) := by
  let stream := TokenStream.ofString
  cases herror : (stream source).error? with
  | some e =>
    have hsource : collectTokens source = ((stream source).listing, some e) :=
      congrArg (Prod.mk _) herror
    have hjoined : collectTokens (source ++ "\n" ++ more) = collectTokens source :=
      congrArg (fun s => (s.listing, s.error?)) (ofString_below_failure herror more)
    rw [hjoined, hsource]
  | none =>
    have hsource : collectTokens source = ((stream source).listing, none) :=
      congrArg (Prod.mk _) herror
    have hkept : (stream source).listing.filter (fun t => !t.isEnd) = (stream source).tokens :=
      filter_listing_ofScanner (.ofString source)
    rw [hsource]
    dsimp only
    rw [hkept, Nat.add_comm 1]
    have hjoined := congrArg (fun s => (s.listing, s.error?)) (ofString_below herror more)
    rw [listing_append, listing_down, error?_append, error?_down] at hjoined
    exact hjoined

end WhileLang
