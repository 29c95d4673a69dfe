import WhileLang.Text.Unicode

/-!
# Single characters in patterns

A pattern is a regular expression. What is asked here is only whether a text is one, not what it
matches. This module has what a pattern says of single characters: characters that stand for
themselves, and what is written with a backslash.

No tables of Unicode properties are at hand for patterns. So classes such as the digits, the edges
of words and the neglect of case are known only for ASCII, with the mode `unicode` switched off.
Without that mode places are bytes, and nothing may match a byte beyond ASCII, which could be only
part of a character: so nothing may be negated there.
-/

namespace WhileLang

namespace Pattern

/-- How a pattern is read. A pattern can change its own modes. -/
structure Modes where
  ignoreCase : Bool
  unicode : Bool
  /-- White space and comments between the parts of the pattern do not count. -/
  verbose : Bool
deriving DecidableEq, Repr

def Modes.standard : Modes := ⟨false, true, false⟩

/-- Drops white space and comments, which go from a number sign to the end of the line. -/
def dropGap (inComment : Bool) : List Char → List Char
  | [] => []
  | c :: cs =>
    if inComment then dropGap (c != '\n') cs
    else if Text.isSpace c then dropGap false cs
    else if c = '#' then dropGap true cs
    else c :: cs

namespace Modes

def skip (m : Modes) (cs : List Char) : List Char := if m.verbose then dropGap false cs else cs

/-- The next character that counts. After a number sign that is the next character of the
comment. -/
def peek? (m : Modes) (cs : List Char) : Option Char :=
  if m.verbose then
    match cs.dropWhile Text.isSpace with
    | '#' :: comment => (comment.dropWhile Text.isSpace).head?
    | rest => rest.head?
  else
    cs.head?

/-- Is the case of letters to be neglected where it is not known? -/
def foldsUnicode (m : Modes) : Bool := m.ignoreCase && m.unicode

end Modes

inductive Atom where
  /-- One character. It may be written as the number of a byte. -/
  | character (c : Char) (isByte : Bool)
  /-- A digit, white space or part of a word; or else anything but that. -/
  | property (negated : Bool)
  /-- Between a word and what is no word. -/
  | wordEdge
  /-- At the beginning or the end of the text. -/
  | textEdge
deriving DecidableEq, Repr

def beyondAscii (c : Char) : Bool := 0x80 ≤ c.toNat

/-- How deep several things beside each other are nested. Together they count as one level more,
unless there is only one. -/
def togetherDepth : List Nat → Nat
  | [] => 0
  | [depth] => depth
  | depths => depths.foldl max 0 + 1

/-- Can an atom stand in a pattern outside of brackets? -/
def Atom.stands (m : Modes) : Atom → Bool
  | character c isByte => !m.foldsUnicode && (m.unicode || !isByte || !beyondAscii c)
  | property negated => !m.unicode && !negated
  | wordEdge => !m.unicode
  | textEdge => true

/-! ## Backslashes -/

def hexDigit? (c : Char) : Option Nat :=
  if c.isDigit then some (c.toNat - '0'.toNat)
  else if 'a' ≤ c ∧ c ≤ 'f' then some (c.toNat - 'a'.toNat + 10)
  else if 'A' ≤ c ∧ c ≤ 'F' then some (c.toNat - 'A'.toNat + 10)
  else none

/-- The number that so many hexadecimal digits write after those with the value `value`. -/
def hexNumber? (m : Modes) : Nat → Nat → List Char → Option (Nat × List Char)
  | 0, value, cs => some (value, cs)
  | n + 1, value, cs =>
    match m.skip cs with
    | [] => none
    | c :: cs => do hexNumber? m n (16 * value + (← hexDigit? c)) cs

/-- The character with a number of so many hexadecimal digits. -/
def hexCharacter? (m : Modes) (digits : Nat) (cs : List Char) : Option (Atom × List Char) := do
  let (value, rest) ← hexNumber? m digits 0 cs
  if value.isValidChar then some (.character (Char.ofNat value) (digits == 2), rest) else none

/-- The atom after a backslash. References to groups and classes by property are not known. -/
def escape? (m : Modes) : List Char → Option (Atom × List Char)
  | [] => none
  | c :: cs =>
    match c with
    | 'x' => hexCharacter? m 2 cs
    | 'u' => hexCharacter? m 4 cs
    | 'U' => hexCharacter? m 8 cs
    | 'd' | 's' | 'w' => some (.property false, cs)
    | 'D' | 'S' | 'W' => some (.property true, cs)
    | 'b' | 'B' | '<' | '>' => some (.wordEdge, cs)
    | 'A' | 'z' => some (.textEdge, cs)
    | 'a' => some (.character '\x07' false, cs)
    | 't' => some (.character '\t' false, cs)
    | 'n' => some (.character '\n' false, cs)
    | 'v' => some (.character '\x0b' false, cs)
    | 'f' => some (.character '\x0c' false, cs)
    | 'r' => some (.character '\r' false, cs)
    | c => if beyondAscii c || c.isAlphanum then none else some (.character c false, cs)

end Pattern

end WhileLang
