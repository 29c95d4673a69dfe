import WhileLang.Pattern.Class

/-!
# Which texts are patterns

    pattern ::= branch { "|" branch }
    branch  ::= { piece { ( "*" | "+" | "?" ) [ "?" ] } | "(?" modes ")" }
    piece   ::= atom | class | "." | "^" | "$" | group
    group   ::= "(" pattern ")" | "(?" modes ":" pattern ")" | "(?" [ "P" ] "<" name ">" pattern ")"

Modes set inside a group end with it. Numbers of repetitions, which stand in braces, are not known:
the patterns that are read here stand in braces themselves.

* `isPattern` reads a text once from left to right, with the open groups on a stack.
-/

namespace WhileLang

namespace Pattern

inductive BranchPiece where
  /-- A change of modes, which cannot be repeated. -/
  | setting
  /-- Anything else, nested so deep. -/
  | node (depth : Nat)
deriving DecidableEq, Repr

def BranchPiece.depth : BranchPiece → Nat
  | setting => 0
  | node depth => depth

/-- A group whose closing parenthesis has not been read: what was read around it. -/
structure OpenGroup where
  modes : Modes
  branches : List Nat
  pieces : List BranchPiece
deriving DecidableEq, Repr

structure Progress where
  modes : Modes
  /-- The depths of the branches before the current one. -/
  branches : List Nat
  /-- The pieces of the current branch, the last one first. -/
  pieces : List BranchPiece
  /-- The groups around it, the innermost one first. -/
  outer : List OpenGroup
  /-- The names of all groups so far. -/
  names : List (List Char)
deriving DecidableEq, Repr

namespace Progress

def start : Progress := ⟨.standard, [], [], [], []⟩

def depth (p : Progress) : Nat :=
  togetherDepth (togetherDepth (p.pieces.map BranchPiece.depth) :: p.branches)

def add (p : Progress) (piece : BranchPiece) : Progress := { p with pieces := piece :: p.pieces }

def nextBranch (p : Progress) : Progress :=
  { p with
    branches := togetherDepth (p.pieces.map BranchPiece.depth) :: p.branches
    pieces := [] }

def openGroup (p : Progress) (modes : Modes) : Progress :=
  { p with
    modes
    branches := []
    pieces := []
    outer := ⟨p.modes, p.branches, p.pieces⟩ :: p.outer }

def closeGroup? (p : Progress) : Option Progress :=
  match p.outer with
  | [] => none
  | group :: outer =>
    some ⟨group.modes, group.branches, .node (p.depth + 1) :: group.pieces, outer, p.names⟩

def repeat? (p : Progress) : Option Progress :=
  match p.pieces with
  | .node depth :: pieces => some { p with pieces := .node (depth + 1) :: pieces }
  | _ => none

end Progress

/-! ## Groups -/

/-- Changes modes as a text says. What stands after the minus sign is switched off. -/
def settings? (m : Modes) (text : List Char) : Option Modes :=
  let known := ['i', 'm', 's', 'U', 'u', 'R', 'x', '-']
  if text.all (· ∈ known) ∧ text.Nodup ∧ text.getLast? ≠ some '-' then
    let on := text.takeWhile (· != '-')
    let set := fun letter old => if letter ∈ text then decide (letter ∈ on) else old
    some ⟨set 'i' m.ignoreCase, set 'u' m.unicode, set 'x' m.verbose⟩
  else
    none

/-- Can a group be called this? -/
def isGroupName : List Char → Bool
  | [] => false
  | c :: cs =>
    (c == '_' || Text.isAlphabetic c) &&
      cs.all (fun c => c ∈ ['_', '.', '[', ']'] || Text.isAlphanumeric c)

/-- The beginning of a group with a name. -/
def namedGroup? (p : Progress) (cs : List Char) : Option (Progress × List Char) :=
  let name := cs.takeWhile (· != '>')
  match cs.dropWhile (· != '>') with
  | [] => none
  | _ :: rest =>
    if isGroupName name && !p.names.contains name then
      some ({ p.openGroup p.modes with names := name :: p.names }, rest)
    else
      none

/-- The beginning of a group with modes of its own, or a change of modes. -/
def settingGroup? (p : Progress) (cs : List Char) : Option (Progress × List Char) := do
  let ends := fun c => c == ':' || c == ')'
  let text := cs.takeWhile (fun c => !ends c)
  let modes ← settings? p.modes text
  match cs.dropWhile (fun c => !ends c) with
  | ':' :: rest => some (p.openGroup modes, rest)
  | ')' :: rest => if text.isEmpty then none else some ({ p.add .setting with modes }, rest)
  | _ => none

/-- What an opening parenthesis begins. -/
def group? (p : Progress) (cs : List Char) : Option (Progress × List Char) :=
  match p.modes.skip cs with
  | '?' :: 'P' :: '<' :: rest => namedGroup? p rest
  | '?' :: '<' :: rest => namedGroup? p rest
  | '?' :: rest => settingGroup? p rest
  | rest => some (p.openGroup p.modes, rest)

/-! ## The whole pattern -/

/-- Adds an atom that can stand where it is. -/
def atom? (p : Progress) (atom : Atom) : Option Progress :=
  if atom.stands p.modes then some (p.add (.node 0)) else none

/-- Reads what begins with a character. -/
def step? (p : Progress) (c : Char) (rest : List Char) : Option (Progress × List Char) :=
  match c with
  | '(' => group? p rest
  | ')' => p.closeGroup?.map (fun p => (p, rest))
  | '|' => some (p.nextBranch, rest)
  | '[' => do
    let (depth, rest) ← class? p.modes rest
    some (p.add (.node depth), rest)
  | '*' | '+' | '?' =>
    p.repeat?.map (fun p => (p, if rest.head? = some '?' then rest.tail else rest))
  | '\x7b' => none
  | '.' => if p.modes.unicode then some (p.add (.node 0), rest) else none
  | '^' | '$' => some (p.add (.node 0), rest)
  | '\\' => do
    let (atom, rest) ← escape? p.modes rest
    (atom? p atom).map (fun p => (p, rest))
  | c => (atom? p (.character c false)).map (fun p => (p, rest))

def readAll? (p : Progress) (cs : List Char) : Option Progress :=
  match p.modes.skip cs with
  | [] => some p
  | c :: rest =>
    match step? p c rest with
    | none => none
    | some (p, rest) => if rest.length < cs.length then readAll? p rest else none
termination_by cs.length

def maxDepth : Nat := 250

def isPattern (text : List Char) : Bool :=
  match readAll? .start text with
  | none => false
  | some p => p.outer.isEmpty && p.depth ≤ maxDepth

end Pattern

end WhileLang
