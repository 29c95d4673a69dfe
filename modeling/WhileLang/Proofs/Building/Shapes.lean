import WhileLang.Proofs.Building.Grafting
import WhileLang.Token.Basic
import WhileLang.Tree.OneLine

/-!
# Shapes

A token, a tree or a builder without its positions is its shape. Where a tree grows depends on
its shape only, so every operation of a builder can be followed on shapes (`shape_graft`), and
trees of one shape are written alike (`Tree.oneLine_shape`). What a stack of pieces writes is said
piece by piece (`Tree.toList_writePieces`).
-/

namespace WhileLang

namespace Token

/-- The token with its position forgotten. -/
def shape (t : Token) : Token := ⟨t.kind, t.value, .start⟩

theorem shape_eq_iff {t t' : Token} :
    t.shape = t'.shape ↔ t.kind = t'.kind ∧ t.value = t'.value := by
  simp [shape]

end Token

namespace Tree

@[simp] theorem shape_leaf (text : String) (p : Position) :
    (leaf text p).shape = leaf text .start := rfl

@[simp] theorem shape_unary (kind : NodeKind) (p : Position) (t : Tree) :
    (unary kind p t).shape = unary kind .start t.shape := rfl

@[simp] theorem shape_pair (kind : NodeKind) (p : Position) (l r : Tree) :
    (pair kind p l r).shape = pair kind .start l.shape r.shape := rfl

@[simp] theorem isNil_shape (t : Tree) : t.shape.isNil = t.isNil := by cases t <;> rfl

@[simp] theorem shape_child (t : Tree) (slot : Slot) :
    (t.child slot).shape = t.shape.child slot := by
  cases t <;> cases slot <;> rfl

@[simp] theorem shape_setChild (t : Tree) (slot : Slot) (u : Tree) :
    (t.setChild slot u).shape = t.shape.setChild slot u.shape := by
  cases t <;> cases slot <;> rfl

@[simp] theorem shape_descend (t : Tree) (path : List Slot) :
    (t.descend path).shape = t.shape.descend path := by
  induction path generalizing t with
  | nil => rfl
  | cons slot path ih =>
    rw [descend, ih, shape_child]
    rfl

theorem shape_modifyAt {f g : Tree → Tree} (hfg : ∀ t, (f t).shape = g t.shape) (t : Tree)
    (path : List Slot) : (t.modifyAt f path).shape = t.shape.modifyAt g path := by
  induction path generalizing t with
  | nil => exact hfg t
  | cons slot path ih =>
    rw [modifyAt, shape_setChild, ih, shape_child]
    rfl

/-- Forgetting positions twice forgets nothing more. -/
@[simp] theorem shape_shape (t : Tree) : t.shape.shape = t.shape := by
  induction t with
  | nil => rfl
  | node kind p c0 c1 c2 ih0 ih1 ih2 => simp only [shape, ih0, ih1, ih2]

/-! ## Trees on one line -/

/-- The piece with the positions of its tree forgotten. -/
def Piece.shape : Piece → Piece
  | text s => text s
  | tree t => tree t.shape

theorem childPieces_shape (c0 c1 c2 : Tree) :
    childPieces c0.shape c1.shape c2.shape = (childPieces c0 c1 c2).map Piece.shape := by
  cases c0 <;> cases c1 <;> cases c2 <;> rfl

theorem pushChildren_shape (c0 c1 c2 : Tree) (stack : List Piece) :
    pushChildren c0.shape c1.shape c2.shape (stack.map Piece.shape) =
      (pushChildren c0 c1 c2 stack).map Piece.shape := by
  rw [pushChildren_eq, pushChildren_eq, childPieces_shape, List.map_append]

theorem writePieces_shape (line : String) (stack : List Piece) :
    writePieces line (stack.map Piece.shape) = writePieces line stack := by
  induction line, stack using writePieces.induct with
  | case1 line => rfl
  | case2 line s stack ih =>
    rw [List.map_cons, Piece.shape, writePieces, writePieces, ih]
  | case3 line stack ih =>
    rw [List.map_cons, Piece.shape, shape, writePieces, writePieces, ih]
  | case4 line stack kind p c0 c1 c2 _ ih =>
    rw [← pushChildren_shape] at ih
    rw [List.map_cons, Piece.shape, shape, writePieces, writePieces, ih]

theorem oneLine_shape (t : Tree) : t.shape.oneLine = t.oneLine :=
  writePieces_shape "" [.tree t]

/-- The characters of a piece, as it is written. -/
def Piece.characters : Piece → List Char
  | text s => s.toList
  | tree t => t.rendering.toList

@[simp] theorem Piece.characters_text (s : String) : (text s).characters = s.toList := rfl

@[simp] theorem Piece.characters_ofChild (t : Tree) :
    (ofChild t).characters = t.rendering.toList := by
  cases t <;> rfl

theorem toList_rendering_node (kind : NodeKind) (p : Position) (c0 c1 c2 : Tree) :
    (node kind p c0 c1 c2).rendering.toList =
      kind.tag.toList ++ (childPieces c0 c1 c2).flatMap Piece.characters := by
  cases c0 <;> cases c1 <;> cases c2 <;>
    simp [rendering, childPieces, parenthesised]

/-- What is still on the stack will be written after the line, piece by piece. -/
theorem toList_writePieces (line : String) (stack : List Piece) :
    (writePieces line stack).toList = line.toList ++ stack.flatMap Piece.characters := by
  induction line, stack using writePieces.induct with
  | case1 line => rw [writePieces, List.flatMap_nil, List.append_nil]
  | case2 line s stack ih =>
    rw [writePieces, ih, String.toList_append, List.append_assoc]
    rfl
  | case3 line stack ih =>
    rw [writePieces, ih, String.toList_append, List.append_assoc]
    rfl
  | case4 line stack kind p c0 c1 c2 _ ih =>
    rw [writePieces, ih, pushChildren_eq, String.toList_append, List.flatMap_append,
      List.flatMap_cons, Piece.characters, toList_rendering_node]
    simp only [List.append_assoc]

end Tree

namespace TreeBuilder

/-- The builder with the positions of its tree forgotten. -/
def shape (b : TreeBuilder) : TreeBuilder := ⟨b.root.shape, b.cursor⟩

/-- Builders of one shape with the same tree are equal. -/
theorem eq_of_shape {b b' : TreeBuilder} (hshape : b.shape = b'.shape)
    (hroot : b.root = b'.root) : b = b' := by
  have hcursor := congrArg cursor hshape
  change b.cursor = b'.cursor at hcursor
  cases b
  cases b'
  cases hcursor
  cases hroot
  rfl

@[simp] theorem isEmpty_shape (b : TreeBuilder) : b.shape.isEmpty = b.isEmpty :=
  b.root.isNil_shape

@[simp] theorem shape_current (b : TreeBuilder) : b.current.shape = b.shape.current :=
  b.root.shape_descend b.cursor

@[simp] theorem shape_ofTree (t : Tree) : (ofTree t).shape = ofTree t.shape := rfl

theorem shape_graft (b sub : TreeBuilder) : (b.graft sub).shape = b.shape.graft sub.shape := by
  have hcurrent : b.shape.current.isNil = b.current.isNil := by
    rw [← shape_current, Tree.isNil_shape]
  have hroot : (b.root.modifyAt (·.setChild .child1 sub.root) b.cursor).shape =
      b.root.shape.modifyAt (·.setChild .child1 sub.root.shape) b.cursor :=
    Tree.shape_modifyAt (fun t => t.shape_setChild .child1 sub.root) b.root b.cursor
  unfold graft
  rw [isEmpty_shape, isEmpty_shape, hcurrent]
  split
  · rfl
  · split
    · rfl
    · split
      · rfl
      · simp only [shape, mk.injEq, and_true]
        exact hroot

theorem shape_wrap (b : TreeBuilder) (kind : NodeKind) (p : Position) (l r : Tree) :
    (b.wrap kind p l r).shape = b.shape.wrap kind .start l.shape r.shape := rfl

end TreeBuilder

end WhileLang
