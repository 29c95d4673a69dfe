import WhileLang.Text.Columns
import WhileLang.Token.Basic

/-!
# Log records

A record has a level, the part of the program that it comes from, a message and named values.
`LogRecord.line` is its written form, which does not say where it comes from.
-/

namespace WhileLang

/-- How much attention a record deserves, from the most to the least. -/
inductive LogLevel where
  | error | warn | info | debug | trace
deriving DecidableEq, Repr

namespace LogLevel

def text : LogLevel → String
  | error => "ERROR"
  | warn => "WARN"
  | info => "INFO"
  | debug => "DEBUG"
  | trace => "TRACE"

/-- The place of a level in the order from quiet to verbose. -/
def verbosity : LogLevel → Nat
  | error => 1
  | warn => 2
  | info => 3
  | debug => 4
  | trace => 5

/-- A log with this limit shows the levels that are not more verbose; without a limit it shows
nothing. -/
def shows (limit : Option LogLevel) (level : LogLevel) : Bool :=
  match limit with
  | none => false
  | some most => level.verbosity ≤ most.verbosity

end LogLevel

inductive LogOrigin where
  | program
  | report
  | lexer
  | parser
deriving DecidableEq, Repr

/-- The name of a part. It begins with the name of the part that it belongs to. -/
def LogOrigin.name : LogOrigin → String
  | program => "tinyfront"
  | report => "tinyfront::report"
  | lexer => "tinyfront::parser::lexer"
  | parser => "tinyfront::parser::parse"

structure LogRecord where
  level : LogLevel
  origin : LogOrigin
  message : String
  fields : List (String × String)
deriving DecidableEq, Repr

namespace LogRecord

/-- The record on a line: its level, its message and its named values. -/
def line (r : LogRecord) : String :=
  Text.rightAligned 5 r.level.text ++ " " ++ r.message ++
    String.join (r.fields.map (fun field => " " ++ field.1 ++ "=" ++ field.2))

/-- The names of a record's values. The message is one of them. -/
def fieldNames (r : LogRecord) : List String := "message" :: r.fields.map Prod.fst

def tokenFields (t : Token) : List (String × String) :=
  [("position", t.position.text), ("kind", t.kind.text), ("value", t.value)]

end LogRecord

end WhileLang
