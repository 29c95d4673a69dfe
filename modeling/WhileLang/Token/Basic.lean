import WhileLang.Position

/-!
# Tokens

The words and symbols of the language. `TokenKind.text` is how a kind is written;
`TokenKind.keyword?` recognises the reserved words. A token carries a spelling of its own
only if its kind does not fix one: identifiers and numbers.
-/

namespace WhileLang

/-- The kinds of token: the reserved words, then those whose spelling is the token's own or empty,
then relations, arithmetic and punctuation. -/
inductive TokenKind where
  | programWord | boolWord | endWord | intWord | ifWord | thenWord | elseWord | fiWord
  | whileWord | doWord | odWord | printWord | orWord | andWord | notWord | falseWord | trueWord
  | identifier | number | endOfText
  | less | lessEqual | equal | notEqual | greaterEqual | greater
  | plus | minus | star | slash
  | openParen | closeParen | semicolon | colon | assign
deriving DecidableEq, Repr

namespace TokenKind

/-- How a kind is written, in programs as in tables and messages. -/
def text : TokenKind → String
  | programWord => "program"
  | boolWord => "bool"
  | endWord => "end"
  | intWord => "int"
  | ifWord => "if"
  | thenWord => "then"
  | elseWord => "else"
  | fiWord => "fi"
  | whileWord => "while"
  | doWord => "do"
  | odWord => "od"
  | printWord => "print"
  | orWord => "or"
  | andWord => "and"
  | notWord => "not"
  | falseWord => "false"
  | trueWord => "true"
  | identifier => "ID"
  | number => "NUM"
  | endOfText => "end-of-text"
  | less => "<"
  | lessEqual => "=<"
  | equal => "="
  | notEqual => "!="
  | greaterEqual => ">="
  | greater => ">"
  | plus => "+"
  | minus => "-"
  | star => "*"
  | slash => "/"
  | openParen => "("
  | closeParen => ")"
  | semicolon => ";"
  | colon => ":"
  | assign => ":="

def keywords : List TokenKind :=
  [programWord, boolWord, endWord, intWord, ifWord, thenWord, elseWord, fiWord, whileWord,
    doWord, odWord, printWord, orWord, andWord, notWord, falseWord, trueWord]

def symbols : List TokenKind :=
  [less, lessEqual, equal, notEqual, greaterEqual, greater, plus, minus, star, slash,
    openParen, closeParen, semicolon, colon, assign]

def all : List TokenKind := keywords ++ [identifier, number, endOfText] ++ symbols

def keyword? (word : String) : Option TokenKind := keywords.find? (fun k => k.text == word)

def isKeyword (k : TokenKind) : Bool := (keyword? k.text).isSome

/-- The kind with this written form. -/
def ofText? (text : String) : Option TokenKind := all.find? (fun k => k.text == text)

end TokenKind

/-- A token: its kind, the spelling that its kind leaves open, and where its first character
stands. -/
structure Token where
  kind : TokenKind
  value : String
  position : Position
deriving DecidableEq, Repr

namespace Token

/-- The characters of the source that make the token: identifiers and numbers spell themselves,
the end of the text has none. -/
def text (t : Token) : String :=
  match t.kind with
  | .identifier | .number => t.value
  | .endOfText => ""
  | kind => kind.text

def isEnd (t : Token) : Bool := t.kind == .endOfText

/-- A token whose kind fixes its spelling. -/
def ofKind (kind : TokenKind) (position : Position) : Token := ⟨kind, "", position⟩

/-- The token of a word: the reserved word if it is one, otherwise an identifier. -/
def ofWord (word : String) (position : Position) : Token :=
  match TokenKind.keyword? word with
  | some kind => ofKind kind position
  | none => ⟨.identifier, word, position⟩

end Token

end WhileLang
