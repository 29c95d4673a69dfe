import WhileLang.Token.Scanner
import WhileLang.Viewer.Theme

/-!
# Highlighting a line of source

A line is cut into words, single symbols and perhaps a comment at its end. Words are runs of
letters, digits and underscores, which is coarser than the tokens of the language, but can be
told without reading the lines before, and in a line where no token starts.
-/

namespace WhileLang

inductive Role where
  | typeName | truthValue | keyword | number | name
  | comment
  | parenthesis | operator | other
deriving DecidableEq, Repr

namespace Role

def isWord : Role → Bool
  | typeName | truthValue | keyword | number | name => true
  | comment | parenthesis | operator | other => false

def style : Role → Style
  | typeName => .colored Theme.typeName
  | truthValue | number => .colored Theme.number
  | keyword => (Style.colored Theme.keyword).inBold
  | name | other => .colored Theme.text
  | comment => .colored Theme.comment
  | parenthesis => .colored Theme.primary
  | operator => .colored Theme.operator

def ofWord (word : List Char) : Role :=
  match TokenKind.keyword? (String.ofList word) with
  | some .intWord | some .boolWord => typeName
  | some .trueWord | some .falseWord => truthValue
  | some _ => keyword
  | none => if (word.head?.map Char.isDigit).getD false then number else name

/-- The role of a character outside words and comments. -/
def ofSymbol (c : Char) : Role :=
  if c ∈ ['(', ')'] then parenthesis
  else if c ∈ ['<', '>', '=', '!', '+', '-', '*', '/', ':'] then operator
  else other

end Role

/-- A piece of a line and what it is. -/
structure Highlight where
  role : Role
  text : List Char
deriving DecidableEq, Repr

namespace Highlight

def span (h : Highlight) : Span := ⟨String.ofList h.text, h.role.style⟩

theorem length_dropWhile_le (p : Char → Bool) (cs : List Char) :
    (cs.dropWhile p).length ≤ cs.length :=
  (List.dropWhile_sublist p).length_le

/-- The pieces of a line, from left to right. -/
def pieces : List Char → List Highlight
  | [] => []
  | c :: cs =>
    if isWordPart c then
      have := length_dropWhile_le isWordPart cs
      ⟨.ofWord (c :: cs.takeWhile isWordPart), c :: cs.takeWhile isWordPart⟩ ::
        pieces (cs.dropWhile isWordPart)
    else if c = '/' ∧ cs.head? = some '/' then
      [⟨.comment, c :: cs⟩]
    else
      ⟨.ofSymbol c, [c]⟩ :: pieces cs
termination_by cs => cs.length

def ofLine (line : String) : List Highlight := pieces line.toList

end Highlight

end WhileLang
