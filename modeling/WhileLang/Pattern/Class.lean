import WhileLang.Pattern.Basic

/-!
# Classes in brackets

    class ::= "[" [ "^" ] union { operation union } "]"
    union ::= { atom | atom "-" atom | "[:" [ "^" ] name ":]" | class }
    operation ::= "&&" | "--" | "~~"

Dashes at the beginning stand for themselves, and so does a closing bracket that is first of all.
-/

namespace WhileLang

namespace Pattern

/-- A class whose closing bracket has not been read. -/
structure OpenClass where
  /-- Has nothing been read of it but dashes? -/
  fresh : Bool
  /-- The depth of what stands before the last operation. -/
  before? : Option Nat
  /-- The depths of the parts since then, the last one first. -/
  parts : List Nat
deriving DecidableEq, Repr

namespace OpenClass

def start : OpenClass := ⟨true, none, []⟩

def depth (o : OpenClass) : Nat :=
  match o.before? with
  | none => togetherDepth o.parts
  | some left => togetherDepth [left, togetherDepth o.parts]

def add (o : OpenClass) (depth : Nat) (fresh : Bool) : OpenClass :=
  { o with parts := depth :: o.parts, fresh }

def operate (o : OpenClass) : OpenClass := ⟨false, some o.depth, []⟩

end OpenClass

def Atom.standsInClass (m : Modes) : Atom → Bool
  | character c _ => !m.foldsUnicode && (m.unicode || !beyondAscii c)
  | property negated => !m.unicode && !negated
  | wordEdge | textEdge => false

/-- The atom at the beginning of a text. -/
def classAtom? (m : Modes) : List Char → Option (Atom × List Char)
  | [] => none
  | '\\' :: cs => escape? m cs
  | c :: cs => some (.character c false, cs)

/-- What is left after a single atom or a range from one character to another. -/
def classRange? (m : Modes) (cs : List Char) : Option (List Char) := do
  let (first, rest) ← classAtom? m cs
  let single := if first.standsInClass m then some rest else none
  match m.skip rest with
  | '-' :: after =>
    if m.peek? after = some ']' ∨ m.peek? after = some '-' then single
    else
      let (last, rest) ← classAtom? m (m.skip after)
      match first, last with
      | .character a _, .character b _ =>
        if a ≤ b ∧ first.standsInClass m ∧ last.standsInClass m then some rest else none
      | _, _ => none
  | _ => single

/-- The names of the classes of ASCII characters. -/
def asciiClassNames : List String :=
  ["alnum", "alpha", "ascii", "blank", "cntrl", "digit", "graph", "lower", "print", "punct",
    "space", "upper", "word", "xdigit"]

/-- The name of a class after its opening bracket, and whether it is negated. -/
def asciiClass? (cs : List Char) : Option (Bool × List Char) :=
  match cs with
  | ':' :: cs =>
    let negated := cs.head? == some '^'
    let cs := if negated then cs.tail else cs
    match cs.dropWhile (· != ':') with
    | ':' :: ']' :: rest =>
      if String.ofList (cs.takeWhile (· != ':')) ∈ asciiClassNames then some (negated, rest)
      else none
    | _ => none
  | _ => none

inductive ClassToken where
  /-- A part with nothing nested in it. -/
  | part (fresh : Bool)
  | operation
  | opening
  | closing

/-- What is left after the opening of a class, given what follows its bracket. -/
def classOpening? (m : Modes) (cs : List Char) : Option (List Char) :=
  match m.skip cs with
  | '^' :: rest => if m.unicode then some rest else none
  | rest => some rest

def classToken? (m : Modes) (o : OpenClass) (cs : List Char) : Option (ClassToken × List Char) :=
  let literal := fun fresh rest => if m.foldsUnicode then none else some (.part fresh, rest)
  let range := (classRange? m cs).map (fun rest => (.part false, rest))
  match cs with
  | ']' :: rest => if o.fresh && o.parts.isEmpty then literal false rest else some (.closing, rest)
  | '[' :: rest =>
    match asciiClass? rest with
    | some (negated, rest) => if negated && !m.unicode then none else literal false rest
    | none => (classOpening? m rest).map (fun rest => (.opening, rest))
  | '&' :: '&' :: rest | '~' :: '~' :: rest => some (.operation, rest)
  | '-' :: rest =>
    if o.fresh then literal true rest
    else if rest.head? = some '-' then some (.operation, rest.tail)
    else range
  | _ => range

/-- Reads a class inside of others up to the closing bracket of the outermost one: its depth, and
what is left. -/
def readClass? (m : Modes) (o : OpenClass) (outer : List OpenClass) (cs : List Char) :
    Option (Nat × List Char) :=
  match classToken? m o (m.skip cs) with
  | none => none
  | some (token, rest) =>
    if rest.length < cs.length then
      match token with
      | .part fresh => readClass? m (o.add 0 fresh) outer rest
      | .operation => readClass? m o.operate outer rest
      | .opening => readClass? m .start (o :: outer) rest
      | .closing =>
        match outer with
        | [] => some (o.depth + 1, rest)
        | around :: outer => readClass? m (around.add (o.depth + 1) false) outer rest
    else
      none
termination_by cs.length

/-- Reads a class after its opening bracket. -/
def class? (m : Modes) (cs : List Char) : Option (Nat × List Char) := do
  readClass? m .start [] (← classOpening? m cs)

end Pattern

end WhileLang
