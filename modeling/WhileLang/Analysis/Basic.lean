import WhileLang.Log.Record
import WhileLang.Grammar.Program

/-!
# Analysing a text

A lexical analysis keeps the tokens of a text; a syntactic analysis parses it and keeps its
tree. Both log what they do; the parser is asked to trace what the options say, and all that it
tells of is recorded.
-/

namespace WhileLang

inductive Mode where
  | lexical | syntactic
deriving DecidableEq, Repr

def Mode.logName : Mode → String
  | lexical => "Lexical"
  | syntactic => "Syntax"

/-- How a text is analysed and reported. -/
structure Options where
  mode : Mode
  /-- Log the beginning and the success of every grammar rule. -/
  traceRules : Bool
  /-- Log every token that the parser consumes. -/
  traceTokens : Bool
  /-- Report the tree of an accepted program. -/
  showTree : Bool
deriving DecidableEq, Repr

namespace Options

/-- Without further wishes, programs are parsed and their trees shown. -/
def standard : Options := ⟨.syntactic, false, false, true⟩

/-- What the parser is asked to trace. -/
def tracing (o : Options) : Tracing := ⟨o.traceRules, o.traceTokens⟩

def isTracing (o : Options) : Bool := o.traceRules || o.traceTokens

def logText (o : Options) : String :=
  "AnalyzerConfig \x7b mode: " ++ o.mode.logName ++
    ", trace_procedures: " ++ toString o.traceRules ++
    ", trace_tokens: " ++ toString o.traceTokens ++
    ", display_ast: " ++ toString o.showTree ++ " \x7d"

end Options

/-- Is the text what it should be? -/
inductive Verdict where
  | accepted | rejected
deriving DecidableEq, Repr

def Verdict.text : Verdict → String
  | accepted => "TRUE"
  | rejected => "FALSE"

structure Analysis where
  mode : Mode
  source : String
  /-- The tokens that a lexical analysis read. A syntactic analysis keeps none. -/
  tokens : List Token
  /-- The lexical error that ended a lexical analysis. -/
  lexError? : Option LexError
  /-- The tree of a program that a syntactic analysis accepted. -/
  tree : TreeBuilder
  error? : Option ParseError
  log : List LogRecord
deriving DecidableEq, Repr

namespace Analysis

/-- A text without an error is accepted. -/
def verdict (a : Analysis) : Verdict := if a.error?.isSome then .rejected else .accepted

def rows (a : Analysis) : List TreeRow := a.tree.rows

end Analysis

/-- The record of an event that was told. -/
def ParseEvent.record : ParseEvent → LogRecord
  | .read t => ⟨.trace, .lexer, "token", LogRecord.tokenFields t⟩
  | .consumed t => ⟨.debug, .parser, "consumed token", LogRecord.tokenFields t⟩
  | .enter rule => ⟨.debug, .parser, "Begin: " ++ rule.text, []⟩
  | .leave rule => ⟨.debug, .parser, "End: " ++ rule.text, []⟩

/-- The last record of an analysis, a summary. -/
def finishedRecord (mode : Mode) (tokens : List Token) (tree : TreeBuilder)
    (error? : Option ParseError) : LogRecord :=
  ⟨.debug, .report, "analysis finished",
    [("mode", mode.logName), ("tokens", toString tokens.length),
      ("nodes", toString tree.root.nodeCount), ("failed", toString error?.isSome)]⟩

/-- The tokens of a text, the end of the text included if it is reached, and the lexical error
that stops them. -/
def collectTokens (source : String) : List Token × Option LexError :=
  let stream := TokenStream.ofString source
  (stream.listing, stream.error?)

/-- Reads the first token of a text, then parses a program. -/
def parseText (tracing : Tracing) (source : String) :
    Except ParseError TreeBuilder × List ParseEvent :=
  let stream := TokenStream.ofString source
  match stream.head with
  | .error e => (.error (.lexical e), [])
  | .ok first =>
    let outcome := Grammar.program tracing stream
    (outcome.result, .read first :: outcome.events)

def analyze (o : Options) (source : String) : Analysis :=
  match o.mode with
  | .lexical =>
    let (tokens, lexError?) := collectTokens source
    let error? := lexError?.map ParseError.lexical
    { mode := .lexical, source, tokens, lexError?, tree := .empty, error?
      log := tokens.map (fun t => ParseEvent.record (.read t)) ++
        [finishedRecord .lexical tokens .empty error?] }
  | .syntactic =>
    let (result, events) := parseText o.tracing source
    let (tree, error?) : TreeBuilder × Option ParseError :=
      match result with
      | .ok tree => (tree, none)
      | .error e => (.empty, some e)
    { mode := .syntactic, source, tokens := [], lexError? := none, tree, error?
      log := events.map ParseEvent.record ++
        [finishedRecord .syntactic [] tree error?] }

end WhileLang
