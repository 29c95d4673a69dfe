/-!
# Positions in a text

A position is a line, counted from one, and a column. The text starts at line 1, column 0;
the first character of a line stands in column 1. `Position.past` is the position after one
more character, so that the position of a character is the position after the text that
ends with it.
-/

namespace WhileLang

/-- A line, counted from one, and a column of it. -/
structure Position where
  line : Nat
  column : Nat
deriving DecidableEq, Repr

namespace Position

/-- The position before the first character of a text. -/
def start : Position := ⟨1, 0⟩

instance : Inhabited Position := ⟨start⟩

/-- One column further on the same line. -/
def nextColumn (p : Position) : Position := ⟨p.line, p.column + 1⟩

def nextLine (p : Position) : Position := ⟨p.line + 1, 0⟩

/-- The position after one more character: a line feed starts the line below, and any other
character takes one column. -/
def past (p : Position) (c : Char) : Position :=
  if c = '\n' then p.nextLine else p.nextColumn

def pastAll (p : Position) (cs : List Char) : Position := cs.foldl past p

/-- The written form `line:column`. -/
def text (p : Position) : String := toString p.line ++ ":" ++ toString p.column

@[simp] theorem pastAll_nil (p : Position) : p.pastAll [] = p := rfl

@[simp] theorem pastAll_cons (p : Position) (c : Char) (cs : List Char) :
    p.pastAll (c :: cs) = (p.past c).pastAll cs := rfl

@[simp] theorem pastAll_append (p : Position) (cs ds : List Char) :
    p.pastAll (cs ++ ds) = (p.pastAll cs).pastAll ds := by
  simp [pastAll]

end Position

end WhileLang
