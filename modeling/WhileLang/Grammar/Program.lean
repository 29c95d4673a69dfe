import WhileLang.Tree.Builder
import WhileLang.Grammar.Expression

/-!
# Programs

    Program ::= "program" ID ":" Body "end"
    Body ::= [ Declarations ] Statements
    Declarations ::= Declaration { Declaration }
    Declaration ::= ( bool | int ) ID ";"
    Statements ::= Statement { ";" Statement }
    Statement ::= ID ":=" Expression
                | if Expression then Body [ else Body ] fi
                | while Expression do Body od
                | print Expression

The tree of a program is that of its body. A body is a chain of its declarations through the
second slot, with the statements at its end; the statements lean to the left.
-/

namespace WhileLang

namespace Grammar

open WhileLang.Parser

/-- The words that begin a declaration. -/
def typeWords : List TokenKind := [.boolWord, .intWord]

/-! ## Declarations -/

/-- The tree of a declaration: a sequence that has room for what follows in its second slot. -/
def declarationTree (type name semicolon : Token) : Tree :=
  .unary .sequence semicolon.position
    (.pair .declaration type.position
      (.leaf name.value name.position) (.leaf type.kind.text type.position))

def declaration : Parser TreeBuilder :=
  inRule .declaration do
    let type ← expect typeWords
    let name ← expect [.identifier]
    let semicolon ← expect [.semicolon]
    pure (TreeBuilder.empty.add (declarationTree type name semicolon))

/-- One or more declarations, each at the end of those before. -/
def declarations : Parser TreeBuilder :=
  inRule .declarations do
    let first ← declaration
    iterate
      (fun tree => do
        if (← peek) ∈ typeWords then
          let next ← declaration
          pure (some (tree.graft next))
        else
          pure none)
      first

/-! ## Statements -/

def assignment : Parser Tree :=
  inRule .assignment do
    let name ← expect [.identifier]
    let sign ← expect [.assign]
    let value ← expression
    pure (.pair .assignment sign.position (.ofName name) value)

/-- The branch against the condition, given the rule for bodies; empty if there is none. -/
def elseWith (body : Parser TreeBuilder) : Parser Tree := do
  match ← take? (fun k => if k = .elseWord then some () else none) with
  | none => pure .nil
  | some _ =>
    let branch ← body
    pure branch.root

def conditionalWith (body : Parser TreeBuilder) : Parser Tree :=
  inRule .conditional do
    let word ← expect [.ifWord]
    let condition ← expression
    let _ ← expect [.thenWord]
    let branch ← body
    let otherwise ← elseWith body
    let _ ← expect [.fiWord]
    pure (.node .conditional word.position condition branch.root otherwise)

def iterativeWith (body : Parser TreeBuilder) : Parser Tree :=
  inRule .iterative do
    let word ← expect [.whileWord]
    let condition ← expression
    let _ ← expect [.doWord]
    let repeated ← body
    let _ ← expect [.odWord]
    pure (.pair .loop word.position condition repeated.root)

def print : Parser Tree :=
  inRule .print do
    let word ← expect [.printWord]
    let value ← expression
    pure (.unary .print word.position value)

/-- A statement, given the rule for bodies. The current token tells which. -/
def statementWith (body : Parser TreeBuilder) : Parser TreeBuilder :=
  inRule .statement do
    match ← peek with
    | .identifier => TreeBuilder.ofTree <$> assignment
    | .ifWord => TreeBuilder.ofTree <$> conditionalWith body
    | .whileWord => TreeBuilder.ofTree <$> iterativeWith body
    | .printWord => TreeBuilder.ofTree <$> print
    | _ => unexpected .statement

/-- One or more statements, given the rule for bodies. Each semicolon puts a node above the
statements before it, and the statement after it into that node's second slot. -/
def statementsWith (body : Parser TreeBuilder) : Parser TreeBuilder :=
  inRule .statements do
    let first ← statementWith body
    iterate
      (fun tree => do
        match ← take? (fun k => if k = .semicolon then some () else none) with
        | none => pure none
        | some (_, semicolon) =>
          let next ← statementWith body
          pure (some ((tree.wrap .sequence semicolon.position .nil .nil).graft next)))
      first

/-! ## Bodies and programs -/

def optionalDeclarations : Parser TreeBuilder := do
  if (← peek) ∈ typeWords then declarations else pure .empty

/-- A body, given the rule for the bodies inside it. -/
def bodyWith (body : Parser TreeBuilder) : Parser TreeBuilder :=
  inRule .body do
    let declared ← optionalDeclarations
    let statements ← statementsWith body
    pure (declared.graft statements)

def body : Parser TreeBuilder := fix (fun self _ => bodyWith (self ())) ()

/-- A program. What follows its last word is read, but not looked at. -/
def program : Parser TreeBuilder :=
  inRule .program do
    let _ ← expect [.programWord]
    let _ ← expect [.identifier]
    let _ ← expect [.colon]
    let tree ← body
    let _ ← expect [.endWord]
    pure tree

/-- Parses up to `n` programs one after the other, each where the one before stopped, whether it
succeeded or not. -/
def programs (n : Nat) (s : TokenStream) (tracing : Tracing := .off) :
    List (Except ParseError TreeBuilder) :=
  match n with
  | 0 => []
  | n + 1 => (program tracing s).result :: programs n (program tracing s).rest tracing

end Grammar

end WhileLang
