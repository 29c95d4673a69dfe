import WhileLang.Token.Scanner

/-!
# Syntax errors

A text is rejected where its tokens stop being readable, or at the first token that does not
fit. `Expected` says what would have fitted there; `ParseError.message` is the wording.
-/

namespace WhileLang

/-- What would have fitted in the place of a token. -/
inductive Expected where
  /-- A token of one of these kinds. -/
  | oneOf (kinds : List TokenKind)
  | statement
  | operand
deriving DecidableEq, Repr

namespace Expected

def kinds : Expected → List TokenKind
  | oneOf ks => ks
  | statement => [.identifier, .ifWord, .whileWord, .printWord]
  | operand =>
    [.trueWord, .falseWord, .number, .identifier, .openParen, .minus, .notWord]

/-- The announcement. The lists for statements and operands have a spacing of their own. -/
def text : Expected → String
  | oneOf ks => "\x7b " ++ String.intercalate ", " (ks.map TokenKind.text) ++ " \x7d"
  | statement => "\x7bID, if, while, print\x7d"
  | operand => "\x7b true, false, NUM, ID, ( , -, not \x7d"

end Expected

inductive ParseError where
  /-- The tokens end in a lexical error before the program does. -/
  | lexical (error : LexError)
  /-- A token of kind `found` stands where something else should. -/
  | unexpected (expected : Expected) (found : TokenKind) (position : Position)
deriving DecidableEq, Repr

namespace ParseError

/-- Where the text stops being a program. -/
def position : ParseError → Position
  | lexical e => e.position
  | unexpected _ _ p => p

/-- The wording of an error, with its position. -/
def message : ParseError → String
  | lexical e => e.message
  | unexpected expected found p =>
    "at " ++ p.text ++ ", Expected " ++ expected.text ++ ", but found '" ++ found.text ++ "'"

end ParseError

end WhileLang
