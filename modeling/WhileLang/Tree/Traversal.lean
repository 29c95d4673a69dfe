import WhileLang.Tree.Basic

/-!
# Visiting the nodes of a tree in order

The first child comes before its node, the second and the third child after it. `Tree.nodes`
keeps the trees still to be visited on a stack of its own, so that a long chain of statements
needs no deep recursion; `Tree.inOrder` says the order by recursion on the tree.
-/

namespace WhileLang

/-- One line of a tree's table: a node's tag and position, and the tags of its children. -/
structure TreeRow where
  kind : String
  position : Position
  child0 : String
  child1 : String
  child2 : String
deriving DecidableEq, Repr

namespace Tree

def rootRow? : Tree → Option TreeRow
  | nil => none
  | node kind p c0 c1 c2 => some ⟨kind.tag, p, c0.tag, c1.tag, c2.tag⟩

/-- What a traversal still has to do. -/
inductive Visit where
  | expand (t : Tree)
  | root (t : Tree)

namespace Visit

/-- The number of steps needed for a tree. -/
def treeWeight : Tree → Nat
  | nil => 1
  | node _ _ c0 c1 c2 => treeWeight c0 + treeWeight c1 + treeWeight c2 + 2

/-- The number of steps that an entry of the stack needs. -/
def weight : Visit → Nat
  | expand t => treeWeight t
  | root _ => 1

def stackWeight : List Visit → Nat
  | [] => 0
  | v :: stack => v.weight + stackWeight stack

end Visit

/-- Adds to `visited` the nodes on a stack of visits, its first entry first. -/
def visitAll (visited : Array Tree) : List Visit → Array Tree
  | [] => visited
  | .root t :: stack => visitAll (visited.push t) stack
  | .expand nil :: stack => visitAll visited stack
  | .expand (node kind p c0 c1 c2) :: stack =>
    visitAll visited
      (.expand c0 :: .root (node kind p c0 c1 c2) :: .expand c1 :: .expand c2 :: stack)
termination_by stack => Visit.stackWeight stack
decreasing_by
  all_goals simp only [Visit.stackWeight, Visit.weight, Visit.treeWeight]
  all_goals omega

/-- The nodes of a tree in order, each as the tree below it. -/
def nodes (t : Tree) : List Tree := (visitAll #[] [.expand t]).toList

def nodeCount (t : Tree) : Nat := t.nodes.length

/-- The table of a tree, one row for each node in order. -/
def rows (t : Tree) : List TreeRow := t.nodes.filterMap rootRow?

/-- The nodes of a tree in order, said by recursion. -/
def inOrder : Tree → List Tree
  | nil => []
  | node kind p c0 c1 c2 =>
    inOrder c0 ++ node kind p c0 c1 c2 :: (inOrder c1 ++ inOrder c2)

end Tree

end WhileLang
