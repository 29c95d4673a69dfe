import Mathlib.Data.List.DropRight
import WhileLang.Proofs.Building.Shapes

/-!
# What is written on one line

A tree is written piece by piece from a stack. Which pieces a node pushes there is decided by its
last child that is present: the children up to it are written, with a separator between them, and
those after it are left out (`pushChildren_eq`, `childPieces_eq`). All that is on the stack is
written in turn, so a node is written as the recursion on its children says (`oneLine_node`).
-/

namespace WhileLang

namespace Tree

/-- The children up to the last one that is present. -/
def upToLast (c0 c1 c2 : Tree) : List Tree := [c0, c1, c2].rdropWhile isNil

/-- The pieces of a node after its tag are the children up to the last one, with separators between
them and parentheses around them. -/
theorem childPieces_eq (c0 c1 c2 : Tree) :
    childPieces c0 c1 c2 =
      if upToLast c0 c1 c2 = [] then []
      else
        .text "(" ::
          (((upToLast c0 c1 c2).map Piece.ofChild).intersperse (.text ", ") ++ [.text ")"]) := by
  cases c0 <;> cases c1 <;> cases c2 <;> rfl

/-- Pieces with separators between them are written as their characters with separators. -/
theorem characters_intersperse (separator : String) (ts : List Tree) :
    ((ts.map Piece.ofChild).intersperse (.text separator)).flatMap Piece.characters =
      (separator.intercalate (ts.map rendering)).toList := by
  induction ts with
  | nil => rfl
  | cons t ts ih =>
    cases ts with
    | nil => simp
    | cons u us =>
      simp only [List.map_cons, List.intersperse_cons_cons, List.flatMap_cons,
        String.intercalate_cons_cons, String.toList_append] at ih ⊢
      rw [ih, List.append_assoc, Piece.characters_ofChild, Piece.characters_text]

theorem oneLine_eq_rendering (t : Tree) : t.oneLine = t.rendering := by
  apply String.toList_injective
  rw [oneLine, toList_writePieces]
  exact List.append_nil _

/-- The recursion, without regard to which child is the last. -/
theorem rendering_node (kind : NodeKind) (p : Position) (c0 c1 c2 : Tree) :
    (node kind p c0 c1 c2).rendering =
      if upToLast c0 c1 c2 = [] then kind.tag
      else kind.tag ++ parenthesised ((upToLast c0 c1 c2).map rendering) := by
  apply String.toList_injective
  rw [toList_rendering_node, childPieces_eq]
  split
  · exact List.append_nil _
  · rw [List.flatMap_cons, List.flatMap_append, characters_intersperse, parenthesised]
    simp

/-- **A line is written as the recursion says.** A node without children is written as its tag.
Otherwise the children up to the last one that is present follow in parentheses, and an absent child
among them has a mark. -/
theorem oneLine_node (kind : NodeKind) (p : Position) (c0 c1 c2 : Tree) :
    (node kind p c0 c1 c2).oneLine = (node kind p c0 c1 c2).rendering ∧
      (node kind p c0 c1 c2).oneLine =
        if c0 = nil ∧ c1 = nil ∧ c2 = nil then kind.tag
        else
          kind.tag ++ "(" ++
            ", ".intercalate ((upToLast c0 c1 c2).map fun c =>
              if c = nil then "NIL" else c.oneLine) ++ ")" := by
  have hcell : (fun c : Tree => if c = nil then "NIL" else c.oneLine) = rendering := by
    funext c
    cases c with
    | nil => rfl
    | node => exact oneLine_eq_rendering _
  have hnone : upToLast c0 c1 c2 = [] ↔ c0 = nil ∧ c1 = nil ∧ c2 = nil := by
    rw [upToLast, List.rdropWhile_eq_nil_iff]
    simp
  refine ⟨oneLine_eq_rendering _, ?_⟩
  rw [oneLine_eq_rendering, rendering_node, hcell, parenthesised]
  simp only [hnone, String.append_assoc]

-- A gap before the last child is marked, and one after it is not.
example :
    let name (text : String) : Tree := leaf text ⟨1, 1⟩
    (node .conditional ⟨1, 1⟩ (name "c") nil (name "e")).oneLine = "IF(c, NIL, e)" ∧
      (node .conditional ⟨1, 1⟩ nil (name "t") nil).oneLine = "IF(NIL, t)" := by
  simp only [oneLine_eq_rendering]
  decide

end Tree

end WhileLang
