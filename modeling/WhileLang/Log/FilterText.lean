import WhileLang.Pattern.Check
import WhileLang.Log.Filter

/-!
# Reading log filters

    filter    ::= [ directive ] { "," [ directive ] }
    directive ::= level
                | [ part ] scope [ "=" [ level ] ]
                | part [ "=" [ level ] ]
    scope     ::= "[" [ span ] [ "{" value [ "=" ( number | pattern ) ] "}" ] "]"
    level     ::= off | error | warn | info | debug | trace | 0 | 1 | 2 | 3 | 4 | 5

A missing level is the most verbose one. If one directive of a filter cannot be read, the whole
filter is refused.
-/

namespace WhileLang

/-! ## Levels -/

namespace LogLevel

/-- The limits from quiet to verbose. The first is no limit at all, which shows nothing. -/
def limits : List (Option LogLevel) :=
  [none, some .error, some .warn, some .info, some .debug, some .trace]

def limitName : Option LogLevel → String
  | none => "OFF"
  | some level => level.text

/-- The number that a text writes, with any number of digits and perhaps a plus sign. -/
def number? (text : List Char) : Option Nat :=
  let digits := match text with
    | '+' :: rest => rest
    | all => all
  if digits.isEmpty || !digits.all Char.isDigit then none
  else some (digits.foldl (fun n c => 10 * n + (c.toNat - '0'.toNat)) 0)

/-- The limit that a text stands for: its name in any mixture of cases, or its place in `limits`. -/
def limit? (text : String) : Option (Option LogLevel) :=
  match number? text.toList with
  | some n => limits[n]?
  | none => limits.find? (fun limit => limitName limit == text.map Char.toUpper)

end LogLevel

/-! ## Directives -/

/-- A directive being read. The blanks around it do not count when the marks that divide it are
looked for, but the words between the marks are cut, at the same places, from the text with its
blanks. -/
structure DirectiveText where
  /-- The text without the blanks around it. -/
  shape : List Char
  words : List Char

namespace DirectiveText

def ofList (text : List Char) : DirectiveText := ⟨Text.trimmed text, text⟩

/-- Goes on after the next character. -/
def skip (t : DirectiveText) : DirectiveText := ⟨t.shape.tail, t.words.tail⟩

/-- The word before the next mark, and the text from the mark on. -/
def splitAt (isMark : Char → Bool) (t : DirectiveText) : String × DirectiveText :=
  let n := (t.shape.takeWhile (fun c => !isMark c)).length
  (String.ofList (t.words.take n), ⟨t.shape.drop n, t.words.drop n⟩)

def rest (t : DirectiveText) : String := String.ofList t.words

def level? (t : DirectiveText) : Option (Option LogLevel) :=
  if t.words.isEmpty then some (some .trace) else LogLevel.limit? t.rest

def limitAfterScope? (t : DirectiveText) : Option (Option LogLevel) :=
  match t.shape with
  | [] => some (some .trace)
  | '=' :: _ => t.skip.level?
  | _ => none

/-- A text without the sign that it may begin with. -/
def withoutSign : List Char → List Char
  | '+' :: rest | '-' :: rest => rest
  | all => all

/-- Is a text a number? It may have a sign, a point and an exponent, or be infinite or no number in
words. -/
def isNumber (text : List Char) : Bool :=
  let unsigned := withoutSign text
  let (fraction, rest) := match unsigned.dropWhile Char.isDigit with
    | '.' :: rest => (rest.takeWhile Char.isDigit, rest.dropWhile Char.isDigit)
    | rest => ([], rest)
  String.ofList (unsigned.map Char.toLower) ∈ ["inf", "infinity", "nan"] ||
    (!(unsigned.takeWhile Char.isDigit).isEmpty || !fraction.isEmpty) &&
      match rest with
      | [] => true
      | e :: exponent =>
        let digits := withoutSign exponent
        (e == 'e' || e == 'E') && !digits.isEmpty && digits.all Char.isDigit

/-- The directive about a part and the scope that has just been opened. -/
def scoped? (part : String) (t : DirectiveText) : Option LogDirective :=
  let (span, t) := t.splitAt (fun c => c == ']' || c == '\x7b')
  match t.shape with
  | ']' :: _ => t.skip.limitAfterScope?.map (fun limit => ⟨part, none, true, limit⟩)
  | '\x7b' :: _ =>
    let (value, t) := t.skip.splitAt (· == '\x7d')
    match t.shape with
    | '\x7d' :: ']' :: _ =>
      if value.isEmpty then none
      else
        match value.toList.splitOn '=' with
        | _ :: wanted :: _ =>
          if isNumber wanted || Pattern.isPattern wanted then
            t.skip.skip.limitAfterScope?.map (fun limit => ⟨part, none, true, limit⟩)
          else
            none
        | _ =>
          t.skip.skip.limitAfterScope?.map (fun limit =>
            if span.isEmpty then ⟨part, some value, false, limit⟩
            else ⟨part, none, true, limit⟩)
    | _ => none
  | _ => none

/-- Can the name of a part begin with this character? -/
def beginsPart (c : Char) : Bool := Text.isAlphanumeric c || c == '-' || c == ':' || c == '_'

/-- The directive that a text stands for. A single word is a level if it can be, otherwise the name
of a part. -/
def directive? (t : DirectiveText) : Option LogDirective :=
  match t.shape with
  | [] => none
  | '[' :: _ => t.skip.scoped? ""
  | c :: _ =>
    if beginsPart c then
      let (part, after) := t.splitAt (fun c => c == '=' || c == '[')
      match after.shape with
      | [] =>
        match LogLevel.limit? t.rest with
        | some limit => some (.general limit)
        | none => some ⟨t.rest, none, false, some .trace⟩
      | '=' :: _ => after.skip.level?.map (fun limit => ⟨part, none, false, limit⟩)
      | _ => after.skip.scoped? part
    else
      none

end DirectiveText

/-! ## Filters -/

/-- The filter that a text stands for. Without any directive only errors are shown. -/
def LogFilter.ofText? (text : String) : Option LogFilter := do
  let parts := (text.toList.splitOn ',').filter (· ≠ [])
  match ← parts.mapM (fun part => (DirectiveText.ofList part).directive?) with
  | [] => pure (.upTo (some .error))
  | directives => pure ⟨directives⟩

end WhileLang
