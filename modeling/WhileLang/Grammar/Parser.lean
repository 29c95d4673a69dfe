import WhileLang.Token.Stream
import WhileLang.Grammar.Error

/-!
# Parsers with one token of lookahead

A parser reads tokens from the front of a stream. Whether it succeeds or not, it leaves the
rest of the stream and the events that it tells of. Which events these are depends on what it is
asked to trace; two runs that trace different things give the same results
(`Proofs/Tracing/Toggles`).

* `Parser.take?`, `Parser.expect` and `Parser.peek` are the only ways to look at tokens.
* `Parser.take?` and `Parser.inRule` are the only ones that look at what is to be traced.
* `Parser.fix` and `Parser.iterate` are the only recursions. `Parser.fix_eq` is the equation
  that a recursive parser satisfies when it takes a token before it calls itself.
-/

namespace WhileLang

/-! ## Events -/

inductive RuleName where
  | program | body | declarations | declaration
  | statements | statement | assignment | conditional | iterative | print
  | expression | simpleExpression | term | factor | literal
deriving DecidableEq, Repr

def RuleName.text : RuleName → String
  | program => "Program"
  | body => "Body"
  | declarations => "Declarations"
  | declaration => "Declaration"
  | statements => "Statements"
  | statement => "Statement"
  | assignment => "AssignmentStatement"
  | conditional => "ConditionalStatement"
  | iterative => "IterativeStatement"
  | print => "PrintStatement"
  | expression => "Expression"
  | simpleExpression => "SimpleExpression"
  | term => "Term"
  | factor => "Factor"
  | literal => "Literal"

/-- What happens while a text is analysed. -/
inductive ParseEvent where
  /-- A token was read from the text and became the current one. -/
  | read (token : Token)
  /-- The current token was consumed, and the next one read. -/
  | consumed (token : Token)
  | enter (rule : RuleName)
  | leave (rule : RuleName)
deriving DecidableEq, Repr

/-- What a parser is asked to trace. That a token was read is told in any case. -/
structure Tracing where
  /-- Tell where a grammar rule begins, and where it succeeds. -/
  rules : Bool
  /-- Tell of every token that is consumed. -/
  tokens : Bool
deriving DecidableEq, Repr

namespace Tracing

/-- What a parser traces that was not asked for more. -/
def off : Tracing := ⟨false, false⟩

def full : Tracing := ⟨true, true⟩

def shows (tracing : Tracing) : ParseEvent → Bool
  | .read _ => true
  | .consumed _ => tracing.tokens
  | .enter _ | .leave _ => tracing.rules

/-- Tells of an event, if it is to be told. -/
def tell (tracing : Tracing) (event : ParseEvent) : List ParseEvent :=
  if tracing.shows event then [event] else []

end Tracing

/-! ## The monad -/

structure Outcome (α : Type) where
  result : Except ParseError α
  rest : TokenStream
  events : List ParseEvent

/-- A parser for values of type `α`. -/
def Parser (α : Type) : Type := Tracing → TokenStream → Outcome α

namespace Parser

variable {α β : Type}

/-- Reads nothing and gives `a`. -/
def succeed (a : α) : Parser α := fun _ s => ⟨.ok a, s, []⟩

/-- One parser after the other. If the first fails, so does the whole, where the first stopped. -/
def andThen (p : Parser α) (f : α → Parser β) : Parser β := fun tracing s =>
  match p tracing s with
  | ⟨.error e, rest, events⟩ => ⟨.error e, rest, events⟩
  | ⟨.ok a, rest, events⟩ =>
    let later := f a tracing rest
    ⟨later.result, later.rest, events ++ later.events⟩

instance : Monad Parser where
  pure := succeed
  bind := andThen

/-! ## Looking at tokens -/

def peek : Parser TokenKind := fun _ s =>
  match s.head with
  | .ok t => ⟨.ok t.kind, s, []⟩
  | .error e => ⟨.error (.lexical e), s, []⟩

/-- Fails at the current token, in whose place something else was expected. -/
def unexpected (expected : Expected) : Parser α := fun _ s =>
  match s.head with
  | .ok t => ⟨.error (.unexpected expected t.kind t.position), s, []⟩
  | .error e => ⟨.error (.lexical e), s, []⟩

/-- Consumes the current token if `accepts` gives a value for its kind. This fails where the next
token cannot be read. The end of the text is never consumed. -/
def take? (accepts : TokenKind → Option α) : Parser (Option (α × Token)) := fun tracing s =>
  match s.tokens with
  | [] => ⟨.ok none, s, []⟩
  | t :: _ =>
    match accepts t.kind with
    | none => ⟨.ok none, s, []⟩
    | some a =>
      match s.tail.head with
      | .error e => ⟨.error (.lexical e), s, []⟩
      | .ok next => ⟨.ok (some (a, t)), s.tail, .read next :: tracing.tell (.consumed t)⟩

/-- Consumes a token of one of the kinds, or fails. -/
def expect (kinds : List TokenKind) : Parser Token := do
  match ← take? (fun k => if k ∈ kinds then some () else none) with
  | some (_, t) => pure t
  | none => unexpected (.oneOf kinds)

/-- Runs the parser of a rule between the events of its beginning and its success. -/
def inRule (rule : RuleName) (p : Parser α) : Parser α := fun tracing s =>
  let begun := tracing.tell (.enter rule)
  match p tracing s with
  | ⟨.error e, rest, events⟩ => ⟨.error e, rest, begun ++ events⟩
  | ⟨.ok a, rest, events⟩ => ⟨.ok a, rest, begun ++ (events ++ tracing.tell (.leave rule))⟩

/-! ## Recursion -/

/-- The recursive parser given by its body, which may call it on any argument once it has consumed
a token; a call before that fails, as it could go on for ever. -/
def fix (body : (β → Parser α) → β → Parser α) (b : β) (tracing : Tracing) (s : TokenStream) :
    Outcome α :=
  body
    (fun b' tracing' s' =>
      if s'.length < s.length then fix body b' tracing' s'
      else unexpected (.oneOf []) tracing' s')
    b tracing s
termination_by s.length

/-- Repeats a step, which consumes a token, until it has nothing to add. -/
def iterate (step : α → Parser (Option α)) : α → Parser α :=
  fix fun again a => do
    match ← step a with
    | none => pure a
    | some a' => again a'

end Parser

end WhileLang
