import WhileLang.Tree.Basic

/-!
# Trees on one line

A node is written as its tag, followed by its children in parentheses up to the last one that
is present; an absent child before it is written `NIL`. `Tree.oneLine` keeps the pieces still
to be written on a stack, onto which a node pushes its children from the last to the first
(`pushChildren_eq` says what comes of it). `Tree.rendering` says the same form by recursion on the
tree.
-/

namespace WhileLang

namespace Tree

/-- A piece of a line still to be written. -/
inductive Piece where
  | text (s : String)
  | tree (t : Tree)

namespace Piece

/-- A child of a node. An absent one has a mark. -/
def ofChild : Tree → Piece
  | nil => text "NIL"
  | node kind p c0 c1 c2 => tree (node kind p c0 c1 c2)

/-- The number of steps needed to write a tree. -/
def treeWeight : Tree → Nat
  | nil => 1
  | node _ _ c0 c1 c2 => treeWeight c0 + treeWeight c1 + treeWeight c2 + 5

def weight : Piece → Nat
  | text _ => 1
  | tree t => treeWeight t

@[simp] theorem weight_text (s : String) : (text s).weight = 1 := rfl

@[simp] theorem weight_ofChild (t : Tree) : (ofChild t).weight = treeWeight t := by
  cases t <;> rfl

def stackWeight : List Piece → Nat
  | [] => 0
  | x :: stack => x.weight + stackWeight stack

theorem stackWeight_append (xs stack : List Piece) :
    stackWeight (xs ++ stack) = stackWeight xs + stackWeight stack := by
  induction xs with
  | nil => simp [stackWeight]
  | cons x xs ih =>
    rw [List.cons_append, stackWeight, stackWeight, ih]
    omega

end Piece

/-- The place of the last child that is present, looked for from the right. -/
def lastPresent? : List Tree → Option Nat
  | [] => none
  | c :: cs =>
    match lastPresent? cs with
    | some place => some (place + 1)
    | none => if c.isNil then none else some 0

/-- Pushes a child, and what divides it from the one before. -/
def pushChild (child : Tree × Nat) (stack : List Piece) : List Piece :=
  let stack := .ofChild child.1 :: stack
  if 0 < child.2 then .text ", " :: stack else stack

/-- Pushes what is to be written after a node's tag: its children up to the last one present, in
parentheses. They come off the stack from the first on, and so the last is pushed first. -/
def pushChildren (c0 c1 c2 : Tree) (stack : List Piece) : List Piece :=
  let children := [c0, c1, c2]
  match lastPresent? children with
  | none => stack
  | some last =>
    .text "(" :: (children.take (last + 1)).zipIdx.foldr pushChild (.text ")" :: stack)

/-- What follows a node's tag: its children up to the last one present, in parentheses. -/
def childPieces : Tree → Tree → Tree → List Piece
  | nil, nil, nil => []
  | c0, nil, nil => [.text "(", .ofChild c0, .text ")"]
  | c0, c1, nil => [.text "(", .ofChild c0, .text ", ", .ofChild c1, .text ")"]
  | c0, c1, c2 =>
    [.text "(", .ofChild c0, .text ", ", .ofChild c1, .text ", ", .ofChild c2, .text ")"]

theorem pushChildren_eq (c0 c1 c2 : Tree) (stack : List Piece) :
    pushChildren c0 c1 c2 stack = childPieces c0 c1 c2 ++ stack := by
  cases c0 <;> cases c1 <;> cases c2 <;> rfl

theorem treeWeight_pos (t : Tree) : 1 ≤ Piece.treeWeight t := by
  cases t <;> simp [Piece.treeWeight]

theorem stackWeight_pushChildren_lt (kind : NodeKind) (p : Position) (c0 c1 c2 : Tree)
    (stack : List Piece) :
    Piece.stackWeight (pushChildren c0 c1 c2 stack) <
      Piece.treeWeight (node kind p c0 c1 c2) + Piece.stackWeight stack := by
  have h0 := treeWeight_pos c0
  have h1 := treeWeight_pos c1
  have h2 := treeWeight_pos c2
  rw [pushChildren_eq, Piece.stackWeight_append, Nat.add_lt_add_iff_right]
  unfold childPieces
  split <;>
    simp only [Piece.stackWeight, Piece.weight_text, Piece.weight_ofChild, Piece.treeWeight] <;>
      omega

/-- Writes a stack of pieces after `line`, its first entry first. -/
def writePieces (line : String) : List Piece → String
  | [] => line
  | .text s :: stack => writePieces (line ++ s) stack
  | .tree nil :: stack => writePieces (line ++ "NIL") stack
  | .tree (node kind p c0 c1 c2) :: stack =>
    have := stackWeight_pushChildren_lt kind p c0 c1 c2 stack
    writePieces (line ++ kind.tag) (pushChildren c0 c1 c2 stack)
termination_by stack => Piece.stackWeight stack
decreasing_by
  all_goals
    simp only [Piece.stackWeight, Piece.weight, Piece.treeWeight] at *
    omega

def oneLine (t : Tree) : String := writePieces "" [.tree t]

/-- Some children of a node in parentheses. -/
def parenthesised (parts : List String) : String := "(" ++ String.intercalate ", " parts ++ ")"

/-- A tree on one line, said by recursion. -/
def rendering : Tree → String
  | nil => "NIL"
  | node kind _ nil nil nil => kind.tag
  | node kind _ c0 nil nil => kind.tag ++ parenthesised [c0.rendering]
  | node kind _ c0 c1 nil => kind.tag ++ parenthesised [c0.rendering, c1.rendering]
  | node kind _ c0 c1 c2 =>
    kind.tag ++ parenthesised [c0.rendering, c1.rendering, c2.rendering]

end Tree

end WhileLang
