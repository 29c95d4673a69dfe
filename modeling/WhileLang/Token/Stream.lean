import WhileLang.Token.Scanner

/-!
# Token streams

The tokens of a text up to its end or up to the first lexical error. A `TokenStream` is the
part of them that is still to be read; its first token is the current one. Consuming the
current token makes the next one current, which is possible only if there is a next one: the
token before a lexical error stays current.
-/

namespace WhileLang

inductive StreamEnd where
  /-- The text ends, at this position. -/
  | endOfText (position : Position)
  | failure (error : LexError)
deriving DecidableEq, Repr

/-- The tokens still to be read, without the end of the text, their number, and what follows
them. -/
structure TokenStream where
  tokens : List Token
  ending : StreamEnd
  length : Nat
  length_eq : length = tokens.length
deriving DecidableEq, Repr

namespace TokenStream

def ofTokens (tokens : List Token) (ending : StreamEnd) : TokenStream :=
  ⟨tokens, ending, tokens.length, rfl⟩

def cons (t : Token) (s : TokenStream) : TokenStream :=
  ⟨t :: s.tokens, s.ending, s.length + 1, by simp [s.length_eq]⟩

def tail (s : TokenStream) : TokenStream :=
  ⟨s.tokens.tail, s.ending, s.length - 1, by simp [s.length_eq]⟩

/-- A stream is its tokens and its end. -/
theorem eq_ofTokens (s : TokenStream) : s = ofTokens s.tokens s.ending := by
  obtain ⟨tokens, ending, _, rfl⟩ := s
  rfl

@[simp] theorem cons_ofTokens (t : Token) (ts : List Token) (e : StreamEnd) :
    cons t (ofTokens ts e) = ofTokens (t :: ts) e := rfl

@[simp] theorem tail_ofTokens (ts : List Token) (e : StreamEnd) :
    tail (ofTokens ts e) = ofTokens ts.tail e := by
  simp [tail, ofTokens]

/-- All that a scanner still reads. -/
def ofScanner (s : Scanner) : TokenStream :=
  match h : s.next with
  | .error e => ofTokens [] (.failure e)
  | .ok (t, rest) =>
    if ht : t.kind = .endOfText then
      ofTokens [] (.endOfText t.position)
    else
      have := Scanner.length_next_lt h ht
      (ofScanner rest).cons t
termination_by s.source.remaining.length

def ofString (text : String) : TokenStream := ofScanner (.ofString text)

/-- The tokens still to be read, the end of the text included if it is reached. -/
def listing (s : TokenStream) : List Token :=
  match s.ending with
  | .endOfText p => s.tokens ++ [.ofKind .endOfText p]
  | .failure _ => s.tokens

/-- The lexical error that ends the stream. -/
def error? (s : TokenStream) : Option LexError :=
  match s.ending with
  | .endOfText _ => none
  | .failure e => some e

/-- The current token, or the error that stands in its place. -/
def head (s : TokenStream) : Except LexError Token :=
  match s.tokens, s.ending with
  | t :: _, _ => .ok t
  | [], .endOfText p => .ok (.ofKind .endOfText p)
  | [], .failure e => .error e

end TokenStream

end WhileLang
