import WhileLang.Proofs.Parsing.FirstError
import WhileLang.Proofs.Parsing.Layout
import WhileLang.Viewer.Basic

/-!
# The lines of a text and its tokens

Two ways of counting lines agree. The scanner counts the line feeds before a token, and a line of
the text ends with a line feed that is cut off, with a carriage return before it. So the line that a
token's position names is there, and has the token's text in it, from the column on that the
position names (`carries_of_mem_collectTokens`).

* `Text.exists_line`: a word without line ends stands on the line that the position after the text
  before it names.
* `Text.length_linesFrom`: how many lines there are.
-/

namespace WhileLang

open Grammar Position TokenStream WhileLang.Parser

namespace Text

/-! ## A word on its line -/

theorem prefix_dropReturn {word line : List Char} (h : word <+: line)
    (hlast : word.getLast? ≠ some '\r') : word <+: dropReturn line := by
  obtain ⟨more, rfl⟩ := h
  unfold dropReturn
  split
  next hreturn =>
    have hmore : more ≠ [] := by
      rintro rfl
      rw [List.append_nil] at hreturn
      exact hlast hreturn
    rw [List.dropLast_append_of_ne_nil hmore]
    exact List.prefix_append _ _
  next => exact List.prefix_append _ _

theorem linesFrom_append {word : List Char} (h : '\n' ∉ word) (line rest : List Char) :
    linesFrom line (word ++ rest) = linesFrom (word.reverse ++ line) rest := by
  induction word generalizing line with
  | nil => rfl
  | cons c word ih =>
    have hc : c ≠ '\n' := by
      rintro rfl
      exact h List.mem_cons_self
    rw [List.cons_append, linesFrom, if_neg hc, ih fun hmem => h (List.mem_cons_of_mem _ hmem)]
    simp

/-- A line goes on from what it has begun with, unless that ends with a carriage return. -/
theorem exists_linesFrom {word : List Char} (hne : word ≠ []) (hlast : word.getLast? ≠ some '\r')
    (more rest : List Char) :
    ∃ line lines, linesFrom (more ++ word.reverse) rest = line :: lines ∧ word <+: line := by
  induction rest generalizing more with
  | nil =>
    have hsome : more ++ word.reverse ≠ [] := by simp [hne]
    refine ⟨(more ++ word.reverse).reverse, [], ?_, ?_⟩
    · unfold linesFrom
      rw [if_neg (by simpa using hsome)]
    · simp
  | cons c rest ih =>
    by_cases hc : c = '\n'
    · refine ⟨dropReturn (more ++ word.reverse).reverse, linesFrom [] rest, ?_, ?_⟩
      · rw [linesFrom, if_pos hc]
      · exact prefix_dropReturn (by simp) hlast
    · rw [linesFrom, if_neg hc]
      exact ih (c :: more)

/-- The scanner's count of lines and columns finds the line that a word stands on, and the place in
it. Both counts go along with the text before the word, so the induction is on that text; the column
is the length of the line so far. -/
theorem exists_line {word : List Char} (hne : word ≠ []) (hfeed : '\n' ∉ word)
    (hreturn : '\r' ∉ word) (before after line : List Char) (p : Position)
    (hp : p.column = line.length) :
    ∃ n found, (p.pastAll before).line = p.line + n ∧
      (linesFrom line (before ++ (word ++ after)))[n]? = some found ∧
      word <+: found.drop (p.pastAll before).column := by
  induction before generalizing line p with
  | nil =>
    have hlast : (line.reverse ++ word).getLast? ≠ some '\r' := by
      rw [List.getLast?_append, List.getLast?_eq_some_getLast hne, Option.some_or]
      intro hlast
      apply hreturn
      rw [← Option.some.inj hlast]
      exact List.getLast_mem hne
    have hbegun : line.reverse ++ word ≠ [] := List.append_ne_nil_of_right_ne_nil _ hne
    obtain ⟨found, lines, hlines, ⟨more, hmore⟩⟩ := exists_linesFrom hbegun hlast [] after
    rw [List.nil_append, List.reverse_append, List.reverse_reverse] at hlines
    refine ⟨0, found, rfl, ?_, ?_⟩
    · rw [List.nil_append, linesFrom_append hfeed, hlines]
      rfl
    · rw [pastAll_nil, hp, ← hmore, List.append_assoc, ← List.length_reverse, List.drop_left]
      exact List.prefix_append _ _
  | cons c before ih =>
    by_cases hc : c = '\n'
    · obtain ⟨n, found, hline, hfound, hword⟩ := ih [] p.nextLine rfl
      have hpast : p.past c = p.nextLine := if_pos hc
      refine ⟨n + 1, found, ?_, ?_, ?_⟩
      · rw [pastAll_cons, hpast, hline]
        exact Nat.add_right_comm p.line 1 n
      · rw [List.cons_append, linesFrom, if_pos hc, List.getElem?_cons_succ]
        exact hfound
      · rwa [pastAll_cons, hpast]
    · have hcolumn : p.nextColumn.column = (c :: line).length := by
        rw [List.length_cons, ← hp]
        rfl
      obtain ⟨n, found, hline, hfound, hword⟩ := ih (c :: line) p.nextColumn hcolumn
      have hpast : p.past c = p.nextColumn := if_neg hc
      refine ⟨n, found, ?_, ?_, ?_⟩
      · rw [pastAll_cons, hpast, hline]
        rfl
      · rwa [List.cons_append, linesFrom, if_neg hc]
      · rwa [pastAll_cons, hpast]

/-! ## The number of lines -/

/-- A text whose last character is not a line feed has one line more than it has line feeds, and a
text that ends with a line feed has as many. -/
theorem length_linesFrom (line cs : List Char) (c : Char) :
    (linesFrom line (cs ++ [c])).length = cs.count '\n' + 1 := by
  induction cs generalizing line with
  | nil =>
    rw [List.nil_append, linesFrom]
    split <;> rfl
  | cons d cs ih =>
    rw [List.cons_append, linesFrom]
    split
    next hd => rw [List.length_cons, ih, hd, List.count_cons_self]
    next hd => rw [ih, List.count_cons_of_ne hd]

end Text

/-! ## The tokens of a text -/

/-- Among the lines is the one that the position names, and it has the word at the column that the
position names. Lines and columns are counted from one. -/
structure Carries (lines : List String) (p : Position) (word : String) : Prop where
  one_le_line : 1 ≤ p.line
  line_le : p.line ≤ lines.length
  one_le_column : 1 ≤ p.column
  exists_line : ∃ line, lines[p.line - 1]? = some line ∧
    word.toList <+: line.toList.drop (p.column - 1)

/-- A word stands where the position after the text before it says. -/
theorem carries_following {source word : String} {before after : List Char}
    (hsource : source.toList = before ++ (word.toList ++ after)) (hne : word.toList ≠ [])
    (hfeed : '\n' ∉ word.toList) (hreturn : '\r' ∉ word.toList) :
    Carries (Text.lines source) (following before) word := by
  obtain ⟨n, found, hline, hfound, hword⟩ :=
    Text.exists_line hne hfeed hreturn before after [] .start rfl
  rw [← hsource] at hfound
  have hlines : (Text.lines source)[n]? = some (String.ofList found) := by
    rw [Text.lines, List.getElem?_map, hfound]
    rfl
  rw [← nextColumn_start_pastAll]
  have hnumber : (start.pastAll before).nextColumn.line = n + 1 := by
    show (start.pastAll before).line = n + 1
    rw [hline, Nat.add_comm]
    rfl
  have hlt : n < (Text.lines source).length := (List.getElem?_eq_some_iff.mp hlines).1
  refine ⟨?_, ?_, Nat.le_add_left 1 _, String.ofList found, ?_, ?_⟩
  · rw [hnumber]
    omega
  · rw [hnumber]
    omega
  · rw [hnumber]
    exact hlines
  · rw [String.toList_ofList]
    exact hword

/-- Tokens contain no blanks, and so no ends of lines. -/
theorem Token.Spelled.isBlank_eq_false {t : Token} (h : t.Spelled) {c : Char}
    (hc : c ∈ t.text.toList) : isBlank c = false := by
  rcases h.cases with ⟨hword, -⟩ | ⟨hk, -, hdigits⟩ | ⟨hk, ht⟩
  · exact (isBlank_eq_false_of_isWordPart (hword.isWordPart c hc)).1
  · have hvalue : t.text = t.value := by simp [Token.text, hk]
    rw [hvalue] at hc
    exact (isBlank_eq_false_of_isWordPart (isWordPart_of_isDigit (hdigits c hc))).1
  · rw [ht, Token.text_ofKind (.inr hk)] at hc
    have hsymbols : ∀ k ∈ TokenKind.symbols, k.text.toList.any isBlank = false := by decide
    exact Bool.eq_false_iff.mpr (List.any_eq_false.mp (hsymbols _ hk) c hc)

theorem notMem_of_isBlank_eq_false {cs : List Char} (h : ∀ c ∈ cs, isBlank c = false) :
    '\n' ∉ cs ∧ '\r' ∉ cs := by
  constructor
  · intro hfeed
    exact absurd (h _ hfeed) (by decide)
  · intro hreturn
    exact absurd (h _ hreturn) (by decide)

theorem exists_piece_of_mem_placed {p : Position} {pieces : List Piece} {t : Token}
    (h : t ∈ placed p pieces) : ∃ before x after, pieces = before ++ x :: after ∧
      t = x.token.moveTo (p.pastAll (before.flatMap Piece.chars ++ x.gap)).nextColumn := by
  induction pieces generalizing p with
  | nil => cases h
  | cons x pieces ih =>
    rw [placed] at h
    rcases List.mem_cons.mp h with rfl | hmem
    · exact ⟨[], x, pieces, rfl, rfl⟩
    · obtain ⟨before, y, after, rfl, ht⟩ := ih hmem
      refine ⟨x :: before, y, after, rfl, ?_⟩
      rw [ht, List.flatMap_cons, List.append_assoc, pastAll_append p]

namespace Division

variable {source : String} {pieces : List Piece} {last rest : List Char}

theorem carries_of_mem_placed (h : Division source pieces last rest) {t : Token}
    (ht : t ∈ placed .start pieces) : Carries (Text.lines source) t.position t.text := by
  obtain ⟨before, x, after, rfl, rfl⟩ := exists_piece_of_mem_placed ht
  have hspelled : x.token.Spelled := h.legible.spelled x (by simp)
  obtain ⟨hfeed, hreturn⟩ := notMem_of_isBlank_eq_false fun c hc => hspelled.isBlank_eq_false hc
  have hsource : source.toList = (before.flatMap Piece.chars ++ x.gap) ++
      (x.token.text.toList ++ (after.flatMap Piece.chars ++ (last ++ rest))) := by
    rw [h.text]
    simp only [List.flatMap_append, List.flatMap_cons, Piece.chars, List.append_assoc]
  rw [nextColumn_start_pastAll]
  exact carries_following hsource hspelled.text_ne_nil hfeed hreturn

/-- The character that starts no token is on its line too. -/
theorem carries_fault {c : Char} {more : List Char} {fault : LexFault}
    (h : Division source pieces last (c :: more)) (hfault : StartsNoToken c more fault) :
    Carries (Text.lines source) (following (pieces.flatMap Piece.chars ++ last)) c.toString := by
  have hchars : c.toString.toList = [c] := String.toList_singleton c
  have hsource : source.toList =
      (pieces.flatMap Piece.chars ++ last) ++ (c.toString.toList ++ more) := by
    rw [h.text, hchars]
    simp only [List.append_assoc, List.singleton_append]
  have hword : ∀ d ∈ c.toString.toList, isBlank d = false := by
    intro d hd
    rw [hchars] at hd
    rw [List.mem_singleton.mp hd]
    exact hfault.no_word.2.2
  obtain ⟨hfeed, hreturn⟩ := notMem_of_isBlank_eq_false hword
  have hne : c.toString.toList ≠ [] := by
    rw [hchars]
    exact List.cons_ne_nil c []
  exact carries_following hsource hne hfeed hreturn

end Division

/-- Every token of a text but its end is on the line that its position names. -/
theorem carries_of_mem_collectTokens {source : String} {t : Token}
    (ht : t ∈ (collectTokens source).1) (hk : t.kind ≠ .endOfText) :
    Carries (Text.lines source) t.position t.text := by
  obtain ⟨pieces, last, rest, h⟩ := exists_division source
  obtain ⟨ending, error?, heq, hending⟩ := h.exists_collectTokens
  rw [heq] at ht
  rcases List.mem_append.mp ht with hmem | hmem
  · exact h.carries_of_mem_placed hmem
  · rcases hending with rfl | ⟨cs, rfl⟩
    · cases hmem
    · rw [List.mem_singleton.mp hmem] at hk
      exact absurd rfl hk

/-- The character of a lexical error is on the line that its position names. -/
theorem carries_of_collectTokens_error {source : String} {e : LexError}
    (he : (collectTokens source).2 = some e) :
    Carries (Text.lines source) e.position e.fault.symbol.toString := by
  obtain ⟨pieces, last, rest, h⟩ := exists_division source
  cases rest with
  | nil =>
    obtain ⟨q, hq⟩ := h.exists_end
    unfold collectTokens at he
    rw [hq] at he
    cases he
  | cons c more =>
    obtain ⟨fault, hfault⟩ := h.stops c more rfl
    rw [h.collectTokens_fault hfault] at he
    cases he
    rw [hfault.symbol_eq]
    exact h.carries_fault hfault

/-! ## The end of the text -/

/-- The text ends in a comment that has no line feed. -/
def EndsInComment (source : String) : Prop :=
  ∃ pieces g c, Division source pieces (g ++ c) [] ∧ Gap g ∧ OpenComment c

/-- The end of the text stands below its last line. -/
def EndsBelow (source : String) : Prop :=
  source.toList.getLast? = some '\n' ∨ EndsInComment source

theorem length_lines_of_feed {source : String} (h : source.toList.getLast? = some '\n') :
    (Text.lines source).length = source.toList.count '\n' := by
  obtain ⟨cs, hcs⟩ := List.getLast?_eq_some_iff.mp h
  rw [Text.lines, List.length_map, hcs, Text.length_linesFrom, List.count_append]
  rfl

theorem length_lines_of_no_feed {source : String} (hne : source.toList ≠ [])
    (h : source.toList.getLast? ≠ some '\n') :
    (Text.lines source).length = source.toList.count '\n' + 1 := by
  have hlast := List.getLast?_eq_some_getLast hne
  generalize source.toList.getLast hne = c at hlast
  obtain ⟨cs, hcs⟩ := List.getLast?_eq_some_iff.mp hlast
  have hcount : [c].count '\n' = 0 := by
    apply List.count_eq_zero_of_not_mem
    rw [List.mem_singleton]
    rintro rfl
    exact h hlast
  rw [Text.lines, List.length_map, hcs, Text.length_linesFrom, List.count_append, hcount]

theorem getLast?_of_endsInComment {source : String} (h : EndsInComment source) :
    source.toList ≠ [] ∧ source.toList.getLast? ≠ some '\n' := by
  obtain ⟨pieces, g, _, hdivision, -, line, rfl, hline⟩ := h
  obtain ⟨front, hfront⟩ : ∃ front, source.toList = front ++ ('/' :: '/' :: line) :=
    ⟨pieces.flatMap Piece.chars ++ g, by
      rw [hdivision.text, List.append_nil, List.append_assoc]⟩
  rw [hfront]
  constructor
  · simp
  · intro hlast
    rw [List.getLast?_append, List.getLast?_eq_some_getLast (List.cons_ne_nil _ _),
      Option.some_or] at hlast
    have hmem := List.getLast_mem (List.cons_ne_nil '/' ('/' :: line))
    rw [Option.some.inj hlast] at hmem
    simp [hline] at hmem

theorem Division.kind_ne_endOfText {source : String} {pieces : List Piece} {last rest : List Char}
    (h : Division source pieces last rest) {t : Token} (ht : t ∈ placed .start pieces) :
    t.kind ≠ .endOfText := by
  obtain ⟨before, x, after, rfl, rfl⟩ := exists_piece_of_mem_placed ht
  have hspelled : x.token.Spelled := h.legible.spelled x (by simp)
  exact hspelled.kind_ne_endOfText

/-- Where the end of a text stands. -/
theorem position_endOfText {source : String} {t : Token} (ht : t ∈ (collectTokens source).1)
    (hk : t.kind = .endOfText) :
    (EndsInComment source → t.position = following (source.toList ++ ['\n'])) ∧
      (¬EndsInComment source → t.position = following source.toList) := by
  constructor
  · rintro ⟨pieces, g, c, h, hg, hc⟩
    rw [h.collectTokens_openComment hg hc] at ht
    rcases List.mem_append.mp ht with hmem | hmem
    · exact absurd hk (h.kind_ne_endOfText hmem)
    · rw [List.mem_singleton.mp hmem]
      rfl
  · intro hcomment
    obtain ⟨pieces, last, rest, h⟩ := exists_division source
    cases rest with
    | nil =>
      rcases h.lastGap with hgap | ⟨-, g, c, rfl, hg, hc⟩
      · rw [h.collectTokens_gap hgap] at ht
        rcases List.mem_append.mp ht with hmem | hmem
        · exact absurd hk (h.kind_ne_endOfText hmem)
        · rw [List.mem_singleton.mp hmem]
          rfl
      · exact absurd ⟨pieces, g, c, h, hg, hc⟩ hcomment
    | cons c more =>
      obtain ⟨fault, hfault⟩ := h.stops c more rfl
      rw [h.collectTokens_fault hfault] at ht
      exact absurd hk (h.kind_ne_endOfText ht)

/-- The end of a text stands on its last line, or on the line below. -/
theorem line_endOfText {source : String} {t : Token} (hne : source.toList ≠ [])
    (ht : t ∈ (collectTokens source).1) (hk : t.kind = .endOfText) :
    (EndsBelow source → t.position.line = (Text.lines source).length + 1) ∧
      (¬EndsBelow source → t.position.line = (Text.lines source).length) := by
  obtain ⟨hincomment, houtside⟩ := position_endOfText ht hk
  by_cases hcomment : EndsInComment source
  · have hlength := length_lines_of_no_feed hne (getLast?_of_endsInComment hcomment).2
    refine ⟨fun _ => ?_, fun hnot => absurd (.inr hcomment) hnot⟩
    rw [hincomment hcomment, hlength]
    show 1 + (source.toList ++ ['\n']).count '\n' = _
    rw [List.count_append, List.count_singleton_self]
    omega
  · have hline : t.position.line = 1 + source.toList.count '\n' := by
      rw [houtside hcomment]
      rfl
    constructor
    · rintro (hfeed | hcomment')
      · rw [hline, length_lines_of_feed hfeed, Nat.add_comm]
      · exact absurd hcomment' hcomment
    · intro hnot
      rw [hline, length_lines_of_no_feed hne fun hfeed => hnot (.inl hfeed), Nat.add_comm]

/-! ## Errors -/

/-- What the error of an analysis is about: the character where the tokens end in a lexical error,
or a token that does not fit. -/
theorem exists_of_analyze_error {o : Options} {source : String} {e : ParseError}
    (he : (analyze o source).error? = some e) :
    (∃ x, e = .lexical x ∧ (collectTokens source).2 = some x) ∨
      ∃ t ∈ (collectTokens source).1, ∃ expected,
        e = .unexpected expected t.kind t.position := by
  cases ho : o.mode with
  | lexical =>
    left
    unfold analyze at he
    rw [ho] at he
    obtain ⟨x, hx, rfl⟩ := Option.map_eq_some_iff.mp he
    exact ⟨x, rfl, hx⟩
  | syntactic =>
    have hparse := exists_run_of_rejected ho he
    rw [parseText_fst] at hparse
    cases e with
    | lexical x =>
      exact .inl ⟨x, rfl, error?_of_run_program (Prod.ext hparse rfl)⟩
    | unexpected expected k p =>
      obtain ⟨us, t, hs, ht, rfl, rfl⟩ := exists_token_of_run_program (Prod.ext hparse rfl)
      have hplace : (collectTokens source).1[us.length]? = some t := by
        rw [show (collectTokens source).1 = _ from congrArg TokenStream.listing hs,
          getElem?_listing_append us ht]
      exact .inr ⟨t, List.mem_of_getElem? hplace, expected, rfl⟩

/-- The error is about the end of a text that ends below its last line. -/
def ParseError.Below (source : String) (e : ParseError) : Prop :=
  (∃ expected p, e = .unexpected expected .endOfText p) ∧ EndsBelow source

namespace ParseError

theorem not_below_lexical (source : String) (x : LexError) : ¬(lexical x).Below source := by
  rintro ⟨⟨_, _, h⟩, -⟩
  cases h

theorem below_unexpected_iff {source : String} {expected : Expected} {k : TokenKind}
    {p : Position} :
    (unexpected expected k p).Below source ↔ k = .endOfText ∧ EndsBelow source := by
  constructor
  · rintro ⟨⟨_, _, h⟩, hends⟩
    cases h
    exact ⟨rfl, hends⟩
  · rintro ⟨rfl, hends⟩
    exact ⟨⟨expected, p, rfl⟩, hends⟩

end ParseError

/-- The line of an error is one of the lines of the text, or the one below the last. -/
theorem line_of_error {o : Options} {source : String} {e : ParseError}
    (he : (analyze o source).error? = some e) (hlines : Text.lines source ≠ []) :
    1 ≤ e.position.line ∧ (¬e.Below source → e.position.line ≤ (Text.lines source).length) ∧
      (e.Below source → e.position.line = (Text.lines source).length + 1) := by
  rcases exists_of_analyze_error he with ⟨x, rfl, hx⟩ | ⟨t, ht, expected, rfl⟩
  · have hcarries := carries_of_collectTokens_error hx
    exact ⟨hcarries.one_le_line, fun _ => hcarries.line_le,
      fun hbelow => absurd hbelow (ParseError.not_below_lexical source x)⟩
  · rw [ParseError.below_unexpected_iff]
    show 1 ≤ t.position.line ∧ _
    by_cases hk : t.kind = .endOfText
    · have hne : source.toList ≠ [] := by
        intro hnil
        apply hlines
        rw [Text.lines, hnil]
        rfl
      obtain ⟨hbelow, hwithin⟩ := line_endOfText hne ht hk
      by_cases hends : EndsBelow source
      · have hline := hbelow hends
        exact ⟨by omega, fun hnot => absurd ⟨hk, hends⟩ hnot, fun _ => hline⟩
      · have hline := hwithin hends
        have hlength : 0 < (Text.lines source).length := List.length_pos_iff.mpr hlines
        exact ⟨by omega, fun _ => Nat.le_of_eq hline, fun hbelow => absurd hbelow.2 hends⟩
    · have hcarries := carries_of_mem_collectTokens ht hk
      exact ⟨hcarries.one_le_line, fun _ => hcarries.line_le, fun hbelow => absurd hbelow.1 hk⟩

/-- **The line of the error.** The viewer of a rejected text that has a line knows the line of its
error. It is one of the lines of the text, unless the error is about the end of a text that ends
with a line feed or in a comment: then the line is the one below the last, which is not there. -/
theorem errorLine_spec (name : String) (o : Options) (source : String) (e : ParseError)
    (he : (analyze o source).error? = some e) (hlines : Text.lines source ≠ []) :
    ∃ n, (Viewer.ofAnalysis name (analyze o source)).errorLine? = some n ∧ 1 ≤ n ∧
      (¬e.Below source → n ≤ (Text.lines source).length) ∧
      (e.Below source → n = (Text.lines source).length + 1) := by
  have hline : (Viewer.ofAnalysis name (analyze o source)).errorLine? = some e.position.line := by
    show (analyze o source).error?.map _ = _
    rw [he]
    rfl
  exact ⟨e.position.line, hline, line_of_error he hlines⟩

theorem errorLine_spec_missing_body :
    (analyze .standard "program p :\n").error? = some (.unexpected .statement .endOfText ⟨2, 1⟩) ∧
      Text.lines "program p :\n" ≠ [] ∧
      ∃ n, (Viewer.ofAnalysis "p" (analyze .standard "program p :\n")).errorLine? = some n ∧
        n = (Text.lines "program p :\n").length + 1 := by
  have herror : (analyze .standard "program p :\n").error? =
      some (.unexpected .statement .endOfText ⟨2, 1⟩) := by decide +kernel
  have hlines : Text.lines "program p :\n" ≠ [] := by decide +kernel
  have hfeed : "program p :\n".toList.getLast? = some '\n' := by decide +kernel
  obtain ⟨n, hn, -, -, hbelow⟩ := errorLine_spec "p" .standard _ _ herror hlines
  exact ⟨herror, hlines, n, hn, hbelow ⟨⟨_, _, rfl⟩, .inl hfeed⟩⟩

/-- The line of an error need not be one of the lines of the text. -/
theorem not_errorLine_le :
    ¬∀ (name : String) (o : Options) (source : String),
      (analyze o source).error?.isSome = true → Text.lines source ≠ [] →
      ∃ n, (Viewer.ofAnalysis name (analyze o source)).errorLine? = some n ∧ 1 ≤ n ∧
        n ≤ (Text.lines source).length := by
  intro h
  obtain ⟨n, hn, -, hle⟩ := h "p" .standard "program p :\n" (by decide +kernel) (by decide +kernel)
  have hline : (Viewer.ofAnalysis "p" (analyze .standard "program p :\n")).errorLine? = some 2 := by
    decide +kernel
  have hlength : (Text.lines "program p :\n").length = 1 := by decide +kernel
  rw [hline] at hn
  obtain rfl := Option.some.inj hn
  omega

end WhileLang
