import WhileLang.Text.CharStream
import WhileLang.Token.Basic

/-!
# Reading one token

A scanner is a character stream and the position reached in it. `Scanner.next` passes over the
gap before a token (blanks and comments) and reads the longest token there.

* `LexError`: the three ways in which no token starts at a character.
* `Scanner.skipGap`: the scanner at the next character that is not in a gap.
* `Scanner.length_next_lt`: a token other than the end of the text takes at least one
  character, so reading token after token comes to an end.
-/

namespace WhileLang

/-! ## Lexical errors -/

inductive LexFault where
  /-- The character belongs to no token. -/
  | illegalSymbol (symbol : Char)
  /-- An exclamation mark without the equals sign that makes it a token. -/
  | loneExclamation
  /-- An underscore, which may stand in an identifier but not begin one. -/
  | leadingUnderscore
deriving DecidableEq, Repr

/-- A lexical error and the position of the character where no token starts. -/
structure LexError where
  fault : LexFault
  position : Position
deriving DecidableEq, Repr

namespace LexFault

def symbol : LexFault → Char
  | illegalSymbol c => c
  | loneExclamation => '!'
  | leadingUnderscore => '_'

/-- What the writer may have meant, for a character that is part of some token. -/
def hint? : LexFault → Option String
  | illegalSymbol _ => none
  | loneExclamation => some "missing '='?"
  | leadingUnderscore => some "used in identifier?"

def text (f : LexFault) : String :=
  match f.hint? with
  | none => "Symbol '" ++ f.symbol.toString ++ "' not allowed"
  | some hint => "Illegal token: '" ++ f.symbol.toString ++ "', " ++ hint

end LexFault

def LexError.message (e : LexError) : String :=
  "at " ++ e.position.text ++ ", " ++ e.fault.text

/-! ## Classes of characters -/

/-- Blanks separate tokens: space, tab, carriage return and line feed. -/
def isBlank (c : Char) : Bool := c == ' ' || c == '\t' || c == '\r' || c == '\n'

/-- Words continue with ASCII letters, ASCII digits and underscores. They begin with an ASCII
letter. -/
def isWordPart (c : Char) : Bool := c.isAlphanum || c == '_'

/-- The kind of the longest symbol that starts with `c`, when `following` comes after it. -/
def symbolKind (c : Char) (following : Option Char) : Except LexFault TokenKind :=
  match c, following with
  | '>', some '=' => .ok .greaterEqual
  | '>', _ => .ok .greater
  | '=', some '<' => .ok .lessEqual
  | '=', _ => .ok .equal
  | ':', some '=' => .ok .assign
  | ':', _ => .ok .colon
  | '!', some '=' => .ok .notEqual
  | '!', _ => .error .loneExclamation
  | '<', _ => .ok .less
  | '+', _ => .ok .plus
  | '-', _ => .ok .minus
  | '*', _ => .ok .star
  | '/', _ => .ok .slash
  | '(', _ => .ok .openParen
  | ')', _ => .ok .closeParen
  | ';', _ => .ok .semicolon
  | '_', _ => .error .leadingUnderscore
  | c, _ => .error (.illegalSymbol c)

/-! ## The scanner -/

/-- Two slashes begin a comment, which takes the rest of its line. -/
def CharStream.opensComment (s : CharStream) : Bool :=
  match s.remaining with
  | '/' :: '/' :: _ => true
  | _ => false

/-- A character stream, and the position of the last character read from it. -/
structure Scanner where
  source : CharStream
  position : Position
deriving DecidableEq, Repr

namespace Scanner

def ofString (text : String) : Scanner := ⟨.ofString text, .start⟩

theorem length_skipLine_lt {s : CharStream} (h : s.opensComment = true) :
    s.skipLine.remaining.length < s.remaining.length := by
  obtain ⟨back, unread⟩ := s
  have hle := CharStream.length_afterLine_le unread
  simp only [CharStream.skipLine, CharStream.remaining, List.nil_append, List.length_append]
  rcases back with _ | ⟨c, back⟩
  · rcases unread with _ | ⟨c, unread⟩
    · simp [CharStream.opensComment, CharStream.remaining] at h
    · have hc : c = '/' := by
        simp only [CharStream.opensComment, CharStream.remaining, List.nil_append] at h
        split at h
        · simp_all
        · cases h
      have hle := CharStream.length_afterLine_le unread
      subst hc
      simp [CharStream.afterLine]
      omega
  · simp only [List.length_cons]
    omega

theorem length_takeWhile_le (p : Char → Bool) (s : CharStream) :
    (s.takeWhile p).2.remaining.length ≤ s.remaining.length := by
  have h := congrArg List.length (CharStream.remaining_takeWhile p s)
  simp only [List.length_append] at h
  omega

/-- Passes over blanks and comments. A comment ends the line, whether or not the text goes on
after it. -/
def skipGap (s : Scanner) : Scanner :=
  match _h : s.source.takeWhile isBlank with
  | (blanks, rest) =>
    if rest.opensComment then
      skipGap ⟨rest.skipLine, (s.position.pastAll blanks).nextLine⟩
    else
      ⟨rest, s.position.pastAll blanks⟩
termination_by s.source.remaining.length
decreasing_by
  have h₁ := length_takeWhile_le isBlank s.source
  rw [_h] at h₁
  exact Nat.lt_of_lt_of_le (length_skipLine_lt ‹_›) h₁

/-- Reads the longest token that starts with `c`, the character before `rest`, which stands at
`position`. -/
def tokenFrom (c : Char) (rest : CharStream) (position : Position) :
    Except LexError (Token × Scanner) :=
  if c.isAlpha then
    let (tail, rest) := rest.takeWhile isWordPart
    .ok (.ofWord (String.ofList (c :: tail)) position, ⟨rest, position.pastAll tail⟩)
  else if c.isDigit then
    let (tail, rest) := rest.takeWhile Char.isDigit
    .ok (⟨.number, String.ofList (c :: tail), position⟩, ⟨rest, position.pastAll tail⟩)
  else
    match symbolKind c rest.peek? with
    | .error fault => .error ⟨fault, position⟩
    | .ok kind =>
      let tail := rest.remaining.take (kind.text.length - 1)
      .ok (.ofKind kind position, ⟨rest.drop (kind.text.length - 1), position.pastAll tail⟩)

/-- The next token and the scanner after it. The end of the text stands one column after the
last character and is reached again by every further call. -/
def next (s : Scanner) : Except LexError (Token × Scanner) :=
  let s := s.skipGap
  match s.source.next with
  | .error .pastEnd => .ok (.ofKind .endOfText s.position.nextColumn, s)
  | .ok (c, rest) => tokenFrom c rest (s.position.past c)

/-! ## Progress -/

theorem length_skipGap_le (s : Scanner) :
    s.skipGap.source.remaining.length ≤ s.source.remaining.length := by
  induction s using skipGap.induct with
  | case1 s blanks rest h hc ih =>
    have h₁ := length_takeWhile_le isBlank s.source
    rw [h] at h₁
    rw [skipGap, h]
    simp only [hc, if_true]
    exact Nat.le_trans ih (Nat.le_trans (Nat.le_of_lt (length_skipLine_lt hc)) h₁)
  | case2 s blanks rest h hc =>
    have h₁ := length_takeWhile_le isBlank s.source
    rw [h] at h₁
    rw [skipGap, h]
    simpa [hc] using h₁

theorem length_tokenFrom_le {c : Char} {rest : CharStream} {position : Position} {t : Token}
    {s' : Scanner} (h : tokenFrom c rest position = .ok (t, s')) :
    s'.source.remaining.length ≤ rest.remaining.length := by
  unfold tokenFrom at h
  split at h
  · simp only [Except.ok.injEq, Prod.mk.injEq] at h
    obtain ⟨-, rfl⟩ := h
    exact length_takeWhile_le _ _
  · split at h
    · simp only [Except.ok.injEq, Prod.mk.injEq] at h
      obtain ⟨-, rfl⟩ := h
      exact length_takeWhile_le _ _
    · split at h
      · cases h
      · simp only [Except.ok.injEq, Prod.mk.injEq] at h
        obtain ⟨-, rfl⟩ := h
        simp

/-- A token other than the end of the text takes at least one character. -/
theorem length_next_lt {s s' : Scanner} {t : Token} (h : s.next = .ok (t, s'))
    (ht : t.kind ≠ .endOfText) :
    s'.source.remaining.length < s.source.remaining.length := by
  have hgap := length_skipGap_le s
  unfold next at h
  simp only at h
  split at h
  · simp only [Except.ok.injEq, Prod.mk.injEq] at h
    obtain ⟨rfl, -⟩ := h
    exact absurd rfl ht
  · next c rest hc =>
    have h₁ := length_tokenFrom_le h
    rw [CharStream.remaining_of_next hc] at hgap
    simp only [List.length_cons] at hgap
    omega

end Scanner

end WhileLang
