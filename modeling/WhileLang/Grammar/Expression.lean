import WhileLang.Tree.Basic
import WhileLang.Grammar.Parser

/-!
# Expressions

    Expression ::= SimpleExpression [ RelOp SimpleExpression ]
    SimpleExpression ::= Term { AddOp Term }
    Term ::= Factor { MulOp Factor }
    Factor ::= [ - | not ] ( Literal | ID | "(" Expression ")" )
    Literal ::= true | false | NUM

Operators of one level group to the left, and at most one relation stands in an expression.
Both unary operators make the same node.
-/

namespace WhileLang

namespace TokenKind

/-- The relation that a token stands for. -/
def relation? : TokenKind → Option BinaryOp
  | less => some .less
  | lessEqual => some .lessEqual
  | equal => some .equal
  | notEqual => some .notEqual
  | greaterEqual => some .greaterEqual
  | greater => some .greater
  | _ => none

/-- The operator of a sum that a token stands for. -/
def additive? : TokenKind → Option BinaryOp
  | plus => some .plus
  | minus => some .minus
  | orWord => some .or
  | _ => none

/-- The operator of a product that a token stands for. -/
def multiplicative? : TokenKind → Option BinaryOp
  | star => some .times
  | slash => some .divide
  | andWord => some .and
  | _ => none

/-- The sign before an operand. -/
def unary? : TokenKind → Option Unit
  | minus | notWord => some ()
  | _ => none

end TokenKind

/-! ## The nodes of an expression -/

namespace Tree

def ofName (t : Token) : Tree := unary .var t.position (leaf t.value t.position)

/-- A literal: a number keeps its digits, a truth value its word. -/
def ofLiteral (t : Token) : Tree :=
  match t.kind with
  | .number => unary .intLiteral t.position (leaf t.value t.position)
  | kind => unary .boolLiteral t.position (leaf kind.text t.position)

end Tree

namespace Grammar

open WhileLang.Parser

/-! ## The rules -/

/-- Operands with operators of one level between them, grouped to the left. -/
def leftChain (operator? : TokenKind → Option BinaryOp) (operand : Parser Tree) : Parser Tree := do
  let first ← operand
  iterate
    (fun left => do
      match ← take? operator? with
      | none => pure none
      | some (op, token) =>
        let right ← operand
        pure (some (.pair (.binary op) token.position left right)))
    first

def literal : Parser Tree :=
  inRule .literal do
    let token ← expect [.trueWord, .falseWord, .number]
    pure (.ofLiteral token)

/-- What may come after the expression in parentheses: the parenthesis that closes it, or an
operator that goes on with it. -/
def afterParenthesised : List TokenKind :=
  [.closeParen, .plus, .minus, .orWord, .star, .slash, .andWord]

/-- The end of an expression in parentheses. An operator is left to the rules around. -/
def closeParenthesis : Parser Unit := do
  match ← peek with
  | .closeParen =>
    let _ ← expect [.closeParen]
    pure ()
  | kind => if kind ∈ afterParenthesised then pure () else unexpected (.oneOf afterParenthesised)

/-- An operand without a sign, given the rule for the expression in parentheses. -/
def operandWith (expression : Parser Tree) : Parser Tree := do
  match ← peek with
  | .trueWord | .falseWord | .number => literal
  | .identifier =>
    let name ← expect [.identifier]
    pure (.ofName name)
  | .openParen =>
    let _ ← expect [.openParen]
    let inner ← expression
    closeParenthesis
    pure inner
  | _ => unexpected .operand

/-- A factor, given the rule for the expression in parentheses. -/
def factorWith (expression : Parser Tree) : Parser Tree :=
  inRule .factor do
    match ← take? TokenKind.unary? with
    | none => operandWith expression
    | some (_, sign) =>
      let operand ← operandWith expression
      pure (.unary .negation sign.position operand)

def termWith (expression : Parser Tree) : Parser Tree :=
  inRule .term (leftChain TokenKind.multiplicative? (factorWith expression))

def simpleExpressionWith (expression : Parser Tree) : Parser Tree :=
  inRule .simpleExpression (leftChain TokenKind.additive? (termWith expression))

def expressionWith (expression : Parser Tree) : Parser Tree :=
  inRule .expression do
    let left ← simpleExpressionWith expression
    match ← take? TokenKind.relation? with
    | none => pure left
    | some (op, token) =>
      let right ← simpleExpressionWith expression
      pure (.pair (.binary op) token.position left right)

def expression : Parser Tree := fix (fun self _ => expressionWith (self ())) ()

def simpleExpression : Parser Tree := simpleExpressionWith expression

end Grammar

end WhileLang
