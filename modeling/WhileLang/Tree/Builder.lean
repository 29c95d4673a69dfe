import WhileLang.Tree.Traversal

/-!
# Growing a tree at a cursor

A builder holds a tree and a cursor: the path from the root to the current node, where growth
goes on. A tree grows by a node (`TreeBuilder.add`), by all of another builder
(`TreeBuilder.graft`) and at the top (`TreeBuilder.wrap`).
-/

namespace WhileLang

namespace Tree

/-- The tree at the end of a path; empty if the path leaves the tree. -/
def descend (t : Tree) : List Slot → Tree
  | [] => t
  | slot :: path => (t.child slot).descend path

/-- Changes the tree at the end of a path. -/
def modifyAt (f : Tree → Tree) (t : Tree) : List Slot → Tree
  | [] => f t
  | slot :: path => t.setChild slot (modifyAt f (t.child slot) path)

/-- Puts a tree into the first slot if it is free, otherwise into the second. -/
def attach (t new : Tree) : Tree :=
  if (t.child .child0).isNil then t.setChild .child0 new else t.setChild .child1 new

end Tree

/-- A tree and the path from its root to the node where it grows. -/
structure TreeBuilder where
  root : Tree
  cursor : List Slot
deriving DecidableEq, Repr

namespace TreeBuilder

def empty : TreeBuilder := ⟨.nil, []⟩

/-- The builder that grows a tree at its root. -/
def ofTree (t : Tree) : TreeBuilder := ⟨t, []⟩

def isEmpty (b : TreeBuilder) : Bool := b.root.isNil

def current (b : TreeBuilder) : Tree := b.root.descend b.cursor

def rows (b : TreeBuilder) : List TreeRow := b.root.rows

/-- Adds a node below the current one. An empty builder takes it as its tree; a leaf is not
added below another node. -/
def add (b : TreeBuilder) (t : Tree) : TreeBuilder :=
  match t with
  | .nil => b
  | .node kind .. =>
    if b.isEmpty then ofTree t
    else if kind.isLeaf then b
    else { b with root := b.root.modifyAt (·.attach t) b.cursor }

/-- Puts the tree of `sub` into the second slot of the current node and goes on growing where
`sub` does. An empty builder becomes `sub`. -/
def graft (b sub : TreeBuilder) : TreeBuilder :=
  if sub.isEmpty then b
  else if b.isEmpty then sub
  else if b.current.isNil then b
  else
    { root := b.root.modifyAt (·.setChild .child1 sub.root) b.cursor
      cursor := b.cursor ++ .child1 :: sub.cursor }

/-- Makes the tree the first child of a new root, where growth goes on. -/
def wrap (b : TreeBuilder) (kind : NodeKind) (position : Position) (child1 child2 : Tree) :
    TreeBuilder :=
  ofTree (.node kind position b.root child1 child2)

end TreeBuilder

end WhileLang
