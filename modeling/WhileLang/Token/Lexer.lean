import WhileLang.Token.Stream

/-!
# The lexer

A lexer reads the tokens of a text one by one and remembers the last token it gave. After the
first lexical error it gives the same error for ever, and the token before the error stays
the last one; after the end of the text it gives the end of the text for ever.
-/

namespace WhileLang

/-- A scanner, the last token read from it, and the error that stopped it. -/
structure Lexer where
  scanner : Scanner
  current? : Option Token
  failure? : Option LexError
deriving DecidableEq, Repr

namespace Lexer

/-- A lexer that has read nothing. Positions are counted from the start, whatever was read from
the stream before. -/
def ofSource (source : CharStream) : Lexer := ⟨⟨source, .start⟩, none, none⟩

def ofString (text : String) : Lexer := ofSource (.ofString text)

/-- The kind of the last token read. -/
def currentKind? (l : Lexer) : Option TokenKind := l.current?.map Token.kind

def advance (l : Lexer) : Except LexError Token × Lexer :=
  match l.failure? with
  | some e => (.error e, l)
  | none =>
    match l.scanner.next with
    | .ok (t, scanner) => (.ok t, ⟨scanner, some t, none⟩)
    | .error e => (.error e, { l with failure? := some e })

theorem length_advance_lt {l l' : Lexer} {t : Token} (h : l.advance = (.ok t, l'))
    (ht : t.kind ≠ .endOfText) :
    l'.scanner.source.remaining.length < l.scanner.source.remaining.length := by
  unfold advance at h
  split at h
  · simp at h
  · split at h
    · next hn =>
      simp only [Prod.mk.injEq, Except.ok.injEq] at h
      obtain ⟨rfl, rfl⟩ := h
      exact Scanner.length_next_lt hn ht
    · simp at h

/-- Reads all tokens up to the next end of the text, included. -/
def tokenize (l : Lexer) : Except LexError (List Token) × Lexer :=
  match h : l.advance with
  | (.error e, l') => (.error e, l')
  | (.ok t, l') =>
    if ht : t.kind = .endOfText then
      (.ok [t], l')
    else
      have := length_advance_lt h ht
      match tokenize l' with
      | (.error e, l'') => (.error e, l'')
      | (.ok ts, l'') => (.ok (t :: ts), l'')
termination_by l.scanner.source.remaining.length

end Lexer

end WhileLang
