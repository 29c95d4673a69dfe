import WhileLang.Text.Lines
import WhileLang.Log.Record

/-!
# Log filters

A filter is a list of directives. Each sets a limit for the records that it applies to, and the
most particular one that applies to a record decides whether the record is shown; a record to
which none applies is not shown.
-/

namespace WhileLang

/-- A limit for some records. -/
structure LogDirective where
  /-- It applies to records from parts of the program whose names begin like this. -/
  origin : String
  /-- It applies to records with a value of this name. -/
  field? : Option String
  /-- It applies only inside a span of a certain name or with certain values. No record of this
  program is inside a span. -/
  inSpan : Bool
  /-- The most verbose level shown. -/
  limit : Option LogLevel
deriving DecidableEq, Repr

namespace LogDirective

def general (limit : Option LogLevel) : LogDirective := ⟨"", none, false, limit⟩

def applies (d : LogDirective) (r : LogRecord) : Bool :=
  !d.inSpan && d.origin.toList.isPrefixOf r.origin.name.toList &&
    d.field?.all (fun name => r.fieldNames.contains name)

/-- Does `a` give way to `b`, which stands after it in the filter? A longer name of a part is more
particular, then a named value is, and of two values the one whose name is later in the
alphabet. Of directives about the same records the last one counts. -/
def yieldsTo (a b : LogDirective) : Bool :=
  if a.origin.length = b.origin.length then
    match a.field?, b.field? with
    | none, _ => true
    | some _, none => false
    | some x, some y => x ≤ y
  else
    a.origin.length < b.origin.length

end LogDirective

/-- The directives that decide what a log shows. -/
structure LogFilter where
  directives : List LogDirective
deriving DecidableEq, Repr

namespace LogFilter

/-- The filter that shows the levels up to a limit, whatever they come from. -/
def upTo (limit : Option LogLevel) : LogFilter := ⟨[.general limit]⟩

def decisive? (f : LogFilter) (r : LogRecord) : Option LogDirective :=
  (f.directives.filter (·.applies r)).foldl
    (fun best? d =>
      match best? with
      | none => some d
      | some best => if best.yieldsTo d then some d else some best)
    none

def shows (f : LogFilter) (r : LogRecord) : Bool :=
  match f.decisive? r with
  | none => false
  | some d => LogLevel.shows d.limit r.level

/-- The text of a log, each record that is shown on a line. -/
def write (f : LogFilter) (records : List LogRecord) : String :=
  Text.unlines ((records.filter f.shows).map LogRecord.line)

end LogFilter

end WhileLang
