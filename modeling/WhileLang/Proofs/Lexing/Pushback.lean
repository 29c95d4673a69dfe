import WhileLang.Proofs.Lexing.Cursor

/-!
# Reading one character too far

A word or a number can also be read character by character. The first character that does not
belong to it has been read by then and is given back, and the column goes back by one. Reading like
this (`readStepwise`) never gives a character back in column 0, where there is nothing to go back
to.

A character that is given back is pushed back onto the stream, and what is pushed back is lost
where a comment is skipped. This goes unnoticed as long as no line feed is among it. The reader
itself may give back a line feed, but only on top of all else, and takes it as a blank before it
comes to a comment (`CharStream.FeedOnTop`). So what was pushed back is read like the rest of the
text, with or without a step too far (`ofScanner_settled`, `readStepwise_settled`).

`Scanner.settled` forgets which of the characters to come were pushed back.
-/

namespace WhileLang

namespace CharStream

/-! ## Line feeds pushed back -/

/-- Of all that was pushed back, only the character on top may be a line feed. -/
def FeedOnTop (s : CharStream) : Prop := '\n' ∉ s.pushedBack.tail

theorem feedOnTop_of_notMem {s : CharStream} (h : '\n' ∉ s.pushedBack) : s.FeedOnTop :=
  fun hmem => h (List.mem_of_mem_tail hmem)

/-- The next character is the first of those to come, and is no longer on top. -/
theorem exists_next {s : CharStream} {c : Char} {cs : List Char} (h : s.remaining = c :: cs) :
    ∃ rest, s.next = .ok (c, rest) ∧ rest.remaining = cs ∧
      rest.pushedBack = s.pushedBack.tail := by
  obtain ⟨back, unread⟩ := s
  cases back with
  | nil =>
    obtain rfl : unread = c :: cs := h
    exact ⟨⟨[], cs⟩, rfl, rfl, rfl⟩
  | cons d back =>
    obtain ⟨rfl, rfl⟩ := List.cons.inj h
    exact ⟨⟨back, unread⟩, rfl, rfl, rfl⟩

theorem pushedBack_takeWhile (q : Char → Bool) (s : CharStream) :
    (s.takeWhile q).2.pushedBack = s.pushedBack.dropWhile q := by
  unfold takeWhile
  split
  · next h => rw [h]
  · rfl

theorem takeWhile_fst (q : Char → Bool) (s : CharStream) :
    (s.takeWhile q).1 = s.remaining.takeWhile q := by
  unfold takeWhile remaining
  split
  · next h => rw [List.takeWhile_append, dropWhile_eq_nil h, if_pos rfl]
  · next h =>
    rw [List.takeWhile_append, if_neg]
    intro hlength
    apply h
    have hall : (s.pushedBack.takeWhile q ++ s.pushedBack.dropWhile q).length = _ :=
      congrArg List.length List.takeWhile_append_dropWhile
    rw [List.length_append] at hall
    exact List.length_eq_zero_iff.mp (by omega)

theorem remaining_takeWhile_snd (q : Char → Bool) (s : CharStream) :
    (s.takeWhile q).2.remaining = s.remaining.dropWhile q := by
  have hall := remaining_takeWhile q s
  rw [takeWhile_fst] at hall
  exact List.append_cancel_left (hall.trans List.takeWhile_append_dropWhile.symm)

theorem takeWhile_eq {q : Char → Bool} {s rest : CharStream} {cs : List Char}
    (h : s.takeWhile q = (cs, rest)) :
    s.remaining.takeWhile q = cs ∧ s.remaining.dropWhile q = rest.remaining := by
  rw [← takeWhile_fst, ← remaining_takeWhile_snd, h]
  exact ⟨rfl, rfl⟩

/-- Passing over blanks leaves no line feed among what was pushed back. -/
theorem FeedOnTop.takeWhile {s : CharStream} (h : s.FeedOnTop) {q : Char → Bool}
    (hq : q '\n' = true) : '\n' ∉ (s.takeWhile q).2.pushedBack := by
  obtain ⟨back, unread⟩ := s
  rw [pushedBack_takeWhile]
  cases back with
  | nil => exact List.not_mem_nil
  | cons c back =>
    by_cases hc : q c = true
    · show '\n' ∉ (c :: back).dropWhile q
      rw [List.dropWhile_cons_of_pos hc]
      exact fun hmem => h ((List.dropWhile_suffix q).mem hmem)
    · show '\n' ∉ (c :: back).dropWhile q
      rw [List.dropWhile_cons_of_neg hc]
      rintro (_ | ⟨_, hmem⟩)
      · exact hc hq
      · exact h hmem

/-- Where no line feed was pushed back, a line ends in the text. -/
theorem afterLine_remaining {s : CharStream} (h : '\n' ∉ s.pushedBack) :
    afterLine s.remaining = s.skipLine.remaining := by
  obtain ⟨back, unread⟩ := s
  show afterLine (back ++ unread) = afterLine unread
  induction back with
  | nil => rfl
  | cons c back ih =>
    obtain ⟨hc, hback⟩ := not_or.mp (mt List.mem_cons.mpr h)
    rw [List.cons_append, afterLine, if_neg (Ne.symm hc), ih hback]

end CharStream

namespace Scanner

/-- Gives back the character read last. There is no column to go back to from column 0. -/
def unread? (s : Scanner) (c : Char) : Option Scanner :=
  if s.position.column = 0 then
    none
  else
    some ⟨s.source.putBack c, ⟨s.position.line, s.position.column - 1⟩⟩

/-- Reads characters as long as they satisfy `q`, and gives back the first one that does not. -/
def readWhile? (q : Char → Bool) (s : Scanner) : Option (List Char × Scanner) :=
  match _h : s.source.next with
  | .error _ => some ([], s)
  | .ok (c, rest) =>
    let after : Scanner := ⟨rest, s.position.nextColumn⟩
    if q c then
      (readWhile? q after).map fun (cs, s') => (c :: cs, s')
    else
      (after.unread? c).map fun s' => ([], s')
termination_by s.source.remaining.length
decreasing_by
  rw [CharStream.remaining_of_next _h]
  exact Nat.lt_succ_self _

/-- The token that starts with `c`. Symbols look at the character after them without reading it. -/
def readTokenFrom? (c : Char) (rest : CharStream) (position : Position) :
    Option (Except LexError (Token × Scanner)) :=
  if c.isAlpha then
    (readWhile? isWordPart ⟨rest, position⟩).map fun (tail, s) =>
      .ok (.ofWord (String.ofList (c :: tail)) position, s)
  else if c.isDigit then
    (readWhile? Char.isDigit ⟨rest, position⟩).map fun (tail, s) =>
      .ok (⟨.number, String.ofList (c :: tail), position⟩, s)
  else
    some (tokenFrom c rest position)

/-- The next token, read character by character. -/
def readNext? (s : Scanner) : Option (Except LexError (Token × Scanner)) :=
  let s := s.skipGap
  match s.source.next with
  | .error .pastEnd => some (.ok (.ofKind .endOfText s.position.nextColumn, s))
  | .ok (c, rest) => readTokenFrom? c rest (s.position.past c)

/-- The scanner with what was pushed back as part of its text. -/
def settled (s : Scanner) : Scanner := ofChars s.source.remaining s.position

/-! ## One word or number -/

/-- There is always a column to go back to after a character has been read. -/
theorem unread?_nextColumn (rest : CharStream) (p : Position) (c : Char) :
    unread? ⟨rest, p.nextColumn⟩ c = some ⟨rest.putBack c, p⟩ :=
  if_neg (Nat.succ_ne_zero p.column)

theorem readWhile?_of_error {q : Char → Bool} {s : Scanner} (h : s.source.next = .error .pastEnd) :
    readWhile? q s = some ([], s) := by
  rw [readWhile?]
  split
  · rfl
  · next hok => cases h.symm.trans hok

theorem readWhile?_of_ok {q : Char → Bool} {s : Scanner} {c : Char} {rest : CharStream}
    (h : s.source.next = .ok (c, rest)) :
    readWhile? q s =
      if q c then
        (readWhile? q ⟨rest, s.position.nextColumn⟩).map fun (cs, s') => (c :: cs, s')
      else
        (unread? ⟨rest, s.position.nextColumn⟩ c).map fun s' => ([], s') := by
  rw [readWhile?]
  split
  · next herror => cases h.symm.trans herror
  · next hok =>
    cases h.symm.trans hok
    rfl

/-- Reading too far and going back reads what satisfies `q`, and stands after it. -/
theorem exists_readWhile? {q : Char → Bool} (hq : q '\n' = false) (s : Scanner) :
    ∃ s', readWhile? q s = some (s.source.remaining.takeWhile q, s') ∧
      s'.settled = ofChars (s.source.remaining.dropWhile q)
        (s.position.pastAll (s.source.remaining.takeWhile q)) ∧
      (s.source.FeedOnTop → s'.source.FeedOnTop) := by
  generalize hcs : s.source.remaining = cs
  induction cs generalizing s with
  | nil =>
    have hnext : s.source.next = .error .pastEnd := CharStream.next_eq_error_iff.mpr hcs
    refine ⟨s, readWhile?_of_error hnext, ?_, id⟩
    rw [settled, hcs]
    rfl
  | cons c cs ih =>
    obtain ⟨rest, hnext, hrest, hback⟩ := CharStream.exists_next hcs
    have hnone : s.source.FeedOnTop → '\n' ∉ rest.pushedBack := fun hfeed => hback ▸ hfeed
    have hread := readWhile?_of_ok (q := q) hnext
    by_cases hc : q c = true
    · have hpast : s.position.nextColumn = s.position.past c := by
        refine (if_neg ?_).symm
        rintro rfl
        rw [hq] at hc
        cases hc
      obtain ⟨s', hs', hsettled, hfeed⟩ := ih ⟨rest, s.position.nextColumn⟩ hrest
      refine ⟨s', ?_, ?_, fun h => hfeed (CharStream.feedOnTop_of_notMem (hnone h))⟩
      · rw [hread, if_pos hc, hs', List.takeWhile_cons_of_pos hc]
        rfl
      · rw [hsettled, List.takeWhile_cons_of_pos hc, List.dropWhile_cons_of_pos hc,
          Position.pastAll_cons, hpast]
    · refine ⟨⟨rest.putBack c, s.position⟩, ?_, ?_, hnone⟩
      · rw [hread, if_neg hc, unread?_nextColumn, List.takeWhile_cons_of_neg hc]
        rfl
      · rw [settled, CharStream.remaining_putBack, hrest, List.takeWhile_cons_of_neg hc,
          List.dropWhile_cons_of_neg hc]
        rfl

/-! ## One token -/

/-- A reader succeeds and gives `r`, except that characters may still be pushed back. If it was
`clean` before, a line feed is at most on top of them. -/
def SettlesTo (clean : Prop) (read? : Option (Except LexError (Token × Scanner)))
    (r : Except LexError (Token × Scanner)) : Prop :=
  (∃ e, read? = some (.error e) ∧ r = .error e) ∨
    ∃ t s, read? = some (.ok (t, s)) ∧ r = .ok (t, s.settled) ∧ (clean → s.source.FeedOnTop)

section

variable (c : Char) (rest : CharStream) (p : Position)

/-- What is read at once and satisfies `q` is the same wherever it comes from. -/
theorem settlesTo_takeWhile (q : Char → Bool) (t : List Char → Token) :
    SettlesTo ('\n' ∉ rest.pushedBack)
      (some (.ok (t (rest.takeWhile q).1, ⟨(rest.takeWhile q).2, p.pastAll (rest.takeWhile q).1⟩)))
      (.ok (t (rest.remaining.takeWhile q), ofChars (rest.remaining.dropWhile q)
        (p.pastAll (rest.remaining.takeWhile q)))) := by
  refine .inr ⟨_, _, rfl, ?_, fun h => ?_⟩
  · rw [settled, CharStream.takeWhile_fst, CharStream.remaining_takeWhile_snd]
  · apply CharStream.feedOnTop_of_notMem
    rw [CharStream.pushedBack_takeWhile]
    exact fun hmem => h ((List.dropWhile_suffix q).mem hmem)

theorem tokenFrom_settles :
    SettlesTo ('\n' ∉ rest.pushedBack) (some (tokenFrom c rest p))
      (tokenFrom c ⟨[], rest.remaining⟩ p) := by
  unfold tokenFrom
  by_cases halpha : c.isAlpha = true
  · rw [if_pos halpha, if_pos halpha]
    exact settlesTo_takeWhile rest p isWordPart fun tail =>
      .ofWord (String.ofList (c :: tail)) p
  · rw [if_neg halpha, if_neg halpha]
    by_cases hdigit : c.isDigit = true
    · rw [if_pos hdigit, if_pos hdigit]
      exact settlesTo_takeWhile rest p Char.isDigit fun tail =>
        ⟨.number, String.ofList (c :: tail), p⟩
    · have hpeek : CharStream.peek? ⟨[], rest.remaining⟩ = rest.peek? := rest.peek?_eq.symm
      rw [if_neg hdigit, if_neg hdigit, hpeek]
      cases symbolKind c rest.peek? with
      | error fault => exact .inl ⟨_, rfl, rfl⟩
      | ok k =>
        refine .inr ⟨_, _, rfl, ?_, fun h => ?_⟩
        · simp [settled, CharStream.drop, CharStream.remaining, ofChars, List.drop_append]
        · exact CharStream.feedOnTop_of_notMem fun hmem => h (List.mem_of_mem_drop hmem)

theorem readTokenFrom?_settles :
    SettlesTo ('\n' ∉ rest.pushedBack) (readTokenFrom? c rest p)
      (tokenFrom c ⟨[], rest.remaining⟩ p) := by
  unfold readTokenFrom?
  by_cases halpha : c.isAlpha = true
  · obtain ⟨s', hread, hsettled, hfeed⟩ :=
      exists_readWhile? (q := isWordPart) rfl ⟨rest, p⟩
    rw [if_pos halpha, hread]
    refine .inr ⟨_, s', rfl, ?_, fun h => hfeed (CharStream.feedOnTop_of_notMem h)⟩
    rw [hsettled, tokenFrom, if_pos halpha]
    rfl
  · rw [if_neg halpha]
    by_cases hdigit : c.isDigit = true
    · obtain ⟨s', hread, hsettled, hfeed⟩ :=
        exists_readWhile? (q := Char.isDigit) rfl ⟨rest, p⟩
      rw [if_pos hdigit, hread]
      refine .inr ⟨_, s', rfl, ?_, fun h => hfeed (CharStream.feedOnTop_of_notMem h)⟩
      rw [hsettled, tokenFrom, if_neg halpha, if_pos hdigit]
      rfl
    · rw [if_neg hdigit]
      exact tokenFrom_settles c rest p

end

/-- In a gap it makes no difference what was pushed back: a line feed on top is passed over before
a comment can begin, and a comment ends in the text. -/
theorem skipGap_settled {s : Scanner} (h : s.source.FeedOnTop) :
    s.skipGap.settled = s.settled.skipGap ∧ s.skipGap.source.FeedOnTop := by
  induction s using skipGap.induct with
  | case1 s blanks rest htake hcomment ih =>
    obtain ⟨hblanks, hrest⟩ := CharStream.takeWhile_eq htake
    have hnone : '\n' ∉ rest.pushedBack := by
      have hnone := h.takeWhile (q := isBlank) rfl
      rwa [htake] at hnone
    obtain ⟨hsettled, hfeed⟩ := ih List.not_mem_nil
    have hskip : s.skipGap = skipGap ⟨rest.skipLine, (s.position.pastAll blanks).nextLine⟩ := by
      rw [skipGap, htake]
      exact if_pos hcomment
    have hopens : CharStream.opensComment ⟨[], rest.remaining⟩ = true := hcomment
    rw [hskip, hsettled]
    refine ⟨?_, hfeed⟩
    rw [settled, settled, skipGap_ofChars s.source.remaining, hblanks, hrest, if_pos hopens,
      CharStream.afterLine_remaining hnone]
  | case2 s blanks rest htake hcomment =>
    obtain ⟨hblanks, hrest⟩ := CharStream.takeWhile_eq htake
    have hnone : '\n' ∉ rest.pushedBack := by
      have hnone := h.takeWhile (q := isBlank) rfl
      rwa [htake] at hnone
    have hskip : s.skipGap = ⟨rest, s.position.pastAll blanks⟩ := by
      rw [skipGap, htake]
      exact if_neg hcomment
    have hopens : ¬CharStream.opensComment ⟨[], rest.remaining⟩ = true := hcomment
    rw [hskip]
    refine ⟨?_, CharStream.feedOnTop_of_notMem hnone⟩
    rw [settled, settled, skipGap_ofChars s.source.remaining, hblanks, hrest, if_neg hopens]

/-- After the gap, a reader of tokens reads the end of the text or a token. -/
theorem settlesTo_next {s : Scanner} (h : s.source.FeedOnTop)
    {read? : Char → CharStream → Position → Option (Except LexError (Token × Scanner))}
    (hread : ∀ c rest p, SettlesTo ('\n' ∉ rest.pushedBack) (read? c rest p)
      (tokenFrom c ⟨[], rest.remaining⟩ p)) :
    SettlesTo True
      (match s.skipGap.source.next with
        | .error .pastEnd =>
          some (.ok (.ofKind .endOfText s.skipGap.position.nextColumn, s.skipGap))
        | .ok (c, rest) => read? c rest (s.skipGap.position.past c))
      s.settled.next := by
  obtain ⟨hsettled, hfeed⟩ := skipGap_settled h
  unfold next
  rw [← hsettled]
  dsimp only
  cases hcs : s.skipGap.source.remaining with
  | nil =>
    have hnext : s.skipGap.source.next = .error .pastEnd := CharStream.next_eq_error_iff.mpr hcs
    have hnext' : s.skipGap.settled.source.next = .error .pastEnd :=
      CharStream.next_eq_error_iff.mpr hcs
    rw [hnext, hnext']
    exact .inr ⟨_, _, rfl, rfl, fun _ => hfeed⟩
  | cons c cs =>
    obtain ⟨rest, hnext, hrest, hback⟩ := CharStream.exists_next hcs
    have hnext' : s.skipGap.settled.source.next = .ok (c, ⟨[], rest.remaining⟩) := by
      rw [settled, hcs, hrest]
      rfl
    rw [hnext, hnext']
    exact (hread c rest _).imp id fun ⟨t, s', hok, hsettled', hclean⟩ =>
      ⟨t, s', hok, hsettled', fun _ => hclean (hback ▸ hfeed)⟩

theorem next_settles {s : Scanner} (h : s.source.FeedOnTop) :
    SettlesTo True (some s.next) s.settled.next := by
  have hsome : some s.next =
      match s.skipGap.source.next with
      | .error .pastEnd => some (.ok (.ofKind .endOfText s.skipGap.position.nextColumn, s.skipGap))
      | .ok (c, rest) => some (tokenFrom c rest (s.skipGap.position.past c)) := by
    unfold next
    dsimp only
    cases s.skipGap.source.next with
    | error => rfl
    | ok => rfl
  rw [hsome]
  exact settlesTo_next h tokenFrom_settles

theorem readNext?_settles {s : Scanner} (h : s.source.FeedOnTop) :
    SettlesTo True s.readNext? s.settled.next :=
  settlesTo_next h readTokenFrom?_settles

/-- A token other than the end of the text takes at least one character. -/
theorem length_readNext?_lt {s s' : Scanner} {t : Token} (h : s.readNext? = some (.ok (t, s')))
    (ht : t.kind ≠ .endOfText) :
    s'.source.remaining.length < s.source.remaining.length := by
  have hgap := length_skipGap_le s
  unfold readNext? at h
  dsimp only at h
  split at h
  · cases h
    exact absurd rfl ht
  · next c rest hc =>
    rw [CharStream.remaining_of_next hc, List.length_cons] at hgap
    rcases readTokenFrom?_settles c rest (s.skipGap.position.past c) with ⟨e, he, -⟩ |
        ⟨u, s'', hu, hfrom, -⟩
    · rw [he] at h
      cases h
    · rw [hu] at h
      cases h
      have hle := length_tokenFrom_le hfrom
      exact Nat.lt_of_le_of_lt hle hgap

end Scanner

/-! ## All tokens -/

namespace TokenStream

open Scanner

/-- All that a scanner still reads, character by character. There is nothing if it has to go back
from column 0. -/
def readStepwise (s : Scanner) : Option TokenStream :=
  match h : s.readNext? with
  | none => none
  | some (.error e) => some (ofTokens [] (.failure e))
  | some (.ok (t, rest)) =>
    if ht : t.kind = .endOfText then
      some (ofTokens [] (.endOfText t.position))
    else
      have := length_readNext?_lt h ht
      (readStepwise rest).map (cons t)
termination_by s.source.remaining.length

theorem readStepwise_of_error {s : Scanner} {e : LexError} (h : s.readNext? = some (.error e)) :
    readStepwise s = some (ofTokens [] (.failure e)) := by
  rw [readStepwise]
  split <;> simp_all

theorem readStepwise_of_end {s rest : Scanner} {t : Token} (h : s.readNext? = some (.ok (t, rest)))
    (ht : t.kind = .endOfText) : readStepwise s = some (ofTokens [] (.endOfText t.position)) := by
  rw [readStepwise]
  split <;> simp_all

theorem readStepwise_of_ok {s rest : Scanner} {t : Token} (h : s.readNext? = some (.ok (t, rest)))
    (ht : t.kind ≠ .endOfText) : readStepwise s = (readStepwise rest).map (cons t) := by
  rw [readStepwise]
  split <;> simp_all

/-- What was pushed back is read like the rest of the text. -/
theorem ofScanner_settled {s : Scanner} (h : s.source.FeedOnTop) :
    ofScanner s = ofScanner s.settled := by
  induction s using ofScanner.induct with
  | case1 s e hread =>
    rcases next_settles h with ⟨e', hread', hnext⟩ | ⟨t, s', hread', -⟩
    · cases hread.symm.trans (Option.some.inj hread')
      rw [ofScanner_of_next_error hread, ofScanner_of_next_error hnext]
    · cases hread.symm.trans (Option.some.inj hread')
  | case2 s t rest hread ht =>
    rcases next_settles h with ⟨e, hread', -⟩ | ⟨t', s', hread', hnext, -⟩
    · cases hread.symm.trans (Option.some.inj hread')
    · cases hread.symm.trans (Option.some.inj hread')
      rw [ofScanner_of_next_end hread ht, ofScanner_of_next_end hnext ht]
  | case3 s t rest hread ht _ ih =>
    rcases next_settles h with ⟨e, hread', -⟩ | ⟨t', s', hread', hnext, hfeed⟩
    · cases hread.symm.trans (Option.some.inj hread')
    · cases hread.symm.trans (Option.some.inj hread')
      rw [ofScanner_of_next_ok hread ht, ofScanner_of_next_ok hnext ht, ih (hfeed trivial)]

theorem readStepwise_settled {s : Scanner} (h : s.source.FeedOnTop) :
    readStepwise s = some (ofScanner s.settled) := by
  generalize hn : s.source.remaining.length = n
  induction n using Nat.strongRecOn generalizing s with
  | ind n ih =>
    rcases readNext?_settles h with ⟨e, hread, hnext⟩ | ⟨t, s', hread, hnext, hfeed⟩
    · rw [readStepwise_of_error hread, ofScanner_of_next_error hnext]
    · by_cases ht : t.kind = .endOfText
      · rw [readStepwise_of_end hread ht, ofScanner_of_next_end hnext ht]
      · have hlt : s'.source.remaining.length < n := hn ▸ length_readNext?_lt hread ht
        rw [readStepwise_of_ok hread ht, ofScanner_of_next_ok hnext ht,
          ih _ hlt (hfeed trivial) rfl]
        rfl

/-- Every text can be read character by character, and gives the same tokens. -/
theorem readStepwise_ofString (text : String) :
    readStepwise (.ofString text) = some (ofString text) :=
  readStepwise_settled (s := .ofString text) List.not_mem_nil

end TokenStream

/-! ## Lexers of streams with pushback -/

open TokenStream

/-- Pushback is invisible to the lexer. Where no line feed was pushed back, all calls are answered
as they are by a lexer of the text that is still to come. So they are where words and numbers are
read one character too far, and the characters given back go on top of those that were pushed back
before. -/
theorem answers_ofSource {source : CharStream} (h : '\n' ∉ source.pushedBack)
    (calls : List LexerCall) :
    (Lexer.ofSource source).answers calls =
        (Lexer.ofString (String.ofList source.remaining)).answers calls ∧
      readStepwise ⟨source, .start⟩ =
        some (TokenStream.ofString (String.ofList source.remaining)) := by
  have hfeed := CharStream.feedOnTop_of_notMem h
  have htext : Scanner.settled ⟨source, .start⟩ = .ofString (String.ofList source.remaining) := by
    rw [Scanner.settled, Scanner.ofString, CharStream.ofString, String.toList_ofList]
    rfl
  constructor
  · rw [(Lexer.at_ofSource source).answers, Lexer.ofString, (Lexer.at_ofSource _).answers,
      ofScanner_settled hfeed, htext]
    rfl
  · rw [readStepwise_settled hfeed, htext]
    rfl

theorem answers_ofSource_comment :
    let source := (((CharStream.ofString "x\n2").putBack '/').putBack '/').putBack '1'
    '\n' ∉ source.pushedBack ∧
      (Lexer.ofSource source).answers [.advance, .tokenize] =
        (Lexer.ofString (String.ofList source.remaining)).answers [.advance, .tokenize] ∧
      readStepwise ⟨source, .start⟩ =
        some (TokenStream.ofString (String.ofList source.remaining)) :=
  ⟨by decide, answers_ofSource (by decide) [.advance, .tokenize]⟩

end WhileLang
