import WhileLang.Position

/-!
# Syntax trees

A tree is empty or a node with three child slots, each of which holds a tree again; an empty
tree in a slot is an absent child. `Tree.tag` is the name under which a tree appears in
tables.
-/

namespace WhileLang

inductive BinaryOp where
  | less | lessEqual | equal | notEqual | greaterEqual | greater
  | plus | minus | or
  | times | divide | and
deriving DecidableEq, Repr

def BinaryOp.tag : BinaryOp → String
  | less => "OP_LT"
  | lessEqual => "OP_EQLT"
  | equal => "OP_EQ"
  | notEqual => "OP_NOTEQ"
  | greaterEqual => "OP_GTEQ"
  | greater => "OP_GT"
  | plus => "OP_PLUS"
  | minus => "OP_MINUS"
  | or => "OP_OR"
  | times => "OP_MULT"
  | divide => "OP_DIV"
  | and => "OP_AND"

inductive NodeKind where
  /-- Two parts of a body, one after the other. -/
  | sequence
  /-- A declared name and its type. -/
  | declaration
  | var
  | assignment
  /-- A condition, a branch for it and perhaps one against it. -/
  | conditional
  /-- A condition and the body that runs while it holds. -/
  | loop
  | print
  | intLiteral
  | boolLiteral
  /-- The one unary operator, written with a minus sign or in words. -/
  | negation
  | binary (op : BinaryOp)
  /-- A name, a digit string, a truth value or a type, spelled as in the source. -/
  | leaf (text : String)
deriving DecidableEq, Repr

namespace NodeKind

/-- How a kind appears in tables: the tag of a construct, the spelling of a leaf. -/
def tag : NodeKind → String
  | sequence => "SEQ"
  | declaration => "DECL"
  | var => "VARIABLE"
  | assignment => "ASSIGNMENT"
  | conditional => "IF"
  | loop => "WHILE"
  | print => "PRINT"
  | intLiteral => "INT_LITERAL"
  | boolLiteral => "BOOL_LITERAL"
  | negation => "OP_NOT"
  | binary op => op.tag
  | leaf text => text

def isLeaf : NodeKind → Bool
  | leaf _ => true
  | _ => false

/-- The kinds of the language's constructs, all but the leaves. -/
def constructs : List NodeKind :=
  [sequence, declaration, var, assignment, conditional, loop, print, intLiteral,
    boolLiteral, negation] ++
  [BinaryOp.less, .lessEqual, .equal, .notEqual, .greaterEqual, .greater, .plus, .minus, .or,
    .times, .divide, .and].map binary

def ofTag? (tag : String) : Option NodeKind := constructs.find? (fun k => k.tag == tag)

end NodeKind

/-- A syntax tree; `nil` is the empty tree, which stands for an absent child. -/
inductive Tree where
  | nil
  | node (kind : NodeKind) (position : Position) (child0 child1 child2 : Tree)
deriving DecidableEq, Repr

inductive Slot where
  | child0 | child1 | child2
deriving DecidableEq, Repr

def Slot.index : Slot → Nat
  | child0 => 0
  | child1 => 1
  | child2 => 2

namespace Tree

instance : Inhabited Tree := ⟨nil⟩

/-! ## Building nodes -/

def leaf (text : String) (position : Position) : Tree :=
  node (.leaf text) position nil nil nil

/-- A node with one child, in the first slot. -/
def unary (kind : NodeKind) (position : Position) (child : Tree) : Tree :=
  node kind position child nil nil

/-- A node with two children, in the first two slots. -/
def pair (kind : NodeKind) (position : Position) (left right : Tree) : Tree :=
  node kind position left right nil

/-! ## Looking at nodes -/

def isNil : Tree → Bool
  | nil => true
  | node .. => false

def kind? : Tree → Option NodeKind
  | nil => none
  | node kind .. => some kind

/-- The root's name in tables; an empty tree is called `NIL`. -/
def tag : Tree → String
  | nil => "NIL"
  | node kind .. => kind.tag

def isLeaf : Tree → Bool
  | nil => false
  | node kind .. => kind.isLeaf

def child : Tree → Slot → Tree
  | nil, _ => nil
  | node _ _ c0 _ _, .child0 => c0
  | node _ _ _ c1 _, .child1 => c1
  | node _ _ _ _ c2, .child2 => c2

/-- The three children of the root, absent ones included. -/
def children (t : Tree) : List Tree := [t.child .child0, t.child .child1, t.child .child2]

/-- Puts a tree into a slot of the root; an empty tree has no slots. -/
def setChild : Tree → Slot → Tree → Tree
  | nil, _, _ => nil
  | node kind p _ c1 c2, .child0, t => node kind p t c1 c2
  | node kind p c0 _ c2, .child1, t => node kind p c0 t c2
  | node kind p c0 c1 _, .child2, t => node kind p c0 c1 t

def size : Tree → Nat
  | nil => 0
  | node _ _ c0 c1 c2 => c0.size + 1 + c1.size + c2.size

/-- The same tree with every position forgotten, so that two trees are equal up to positions if
their `shape`s are equal. -/
def shape : Tree → Tree
  | nil => nil
  | node kind _ c0 c1 c2 => node kind .start c0.shape c1.shape c2.shape

end Tree

end WhileLang
