import WhileLang.Tree.Traversal

/-!
# The order of the nodes

The nodes of a tree are found with a stack of visits. What is still on the stack says which nodes
are still to come (`toList_visitAll`), so they come in the order that recursion on the tree says
(`nodes_eq_inOrder`), there are as many as this recursion counts (`nodeCount_eq_size`), and the rows
of a table stand where the nodes do (`map_position_rows`).
-/

namespace WhileLang

namespace Tree

/-- The nodes that a visit adds. -/
def Visit.pending : Visit → List Tree
  | expand t => t.inOrder
  | root t => [t]

/-- Induction on the steps of the traversal: every step keeps the nodes that were visited together
with those that are still to come. -/
theorem toList_visitAll (visited : Array Tree) (stack : List Visit) :
    (visitAll visited stack).toList = visited.toList ++ stack.flatMap Visit.pending := by
  fun_induction visitAll visited stack with
  | case1 visited => simp
  | case2 visited t stack ih =>
    rw [ih, Array.toList_push, List.flatMap_cons, Visit.pending, List.append_assoc]
  | case3 visited stack ih => rw [ih, List.flatMap_cons, Visit.pending, inOrder, List.nil_append]
  | case4 visited kind p c0 c1 c2 stack ih =>
    rw [ih]
    simp only [List.flatMap_cons, Visit.pending, inOrder, List.append_assoc, List.cons_append,
      List.nil_append]

theorem nodes_eq_inOrder (t : Tree) : t.nodes = t.inOrder := by
  rw [nodes, toList_visitAll]
  exact List.append_nil _

/-- The rows of a tree's table are those of its nodes, in order. -/
theorem map_rootRow?_nodes (t : Tree) : t.nodes.map rootRow? = t.rows.map some := by
  rw [rows, nodes_eq_inOrder]
  induction t with
  | nil => rfl
  | node kind p c0 c1 c2 ih0 ih1 ih2 =>
    simp only [inOrder, List.filterMap_append, List.filterMap_cons, rootRow?, List.map_append,
      List.map_cons, ih0, ih1, ih2]

/-! ## The number of nodes -/

@[simp] theorem nodeCount_nil : nil.nodeCount = 0 := by
  rw [nodeCount, nodes_eq_inOrder]
  rfl

theorem nodeCount_node (kind : NodeKind) (p : Position) (c0 c1 c2 : Tree) :
    (node kind p c0 c1 c2).nodeCount = c0.nodeCount + 1 + c1.nodeCount + c2.nodeCount := by
  simp only [nodeCount, nodes_eq_inOrder, inOrder, List.length_append, List.length_cons]
  omega

theorem nodeCount_eq_size (t : Tree) : t.nodeCount = t.size := by
  induction t with
  | nil => exact nodeCount_nil
  | node kind p c0 c1 c2 ih0 ih1 ih2 => rw [nodeCount_node, size, ih0, ih1, ih2]

/-! ## Positions -/

/-- Where the root stands. -/
def position? : Tree → Option Position
  | nil => none
  | node _ p .. => some p

/-- The positions of the nodes of a tree, in order. -/
def positions : Tree → List Position
  | nil => []
  | node _ p c0 c1 c2 => c0.positions ++ p :: (c1.positions ++ c2.positions)

theorem map_position_inOrder (t : Tree) :
    (t.inOrder.filterMap rootRow?).map TreeRow.position = t.positions := by
  induction t with
  | nil => rfl
  | node kind p c0 c1 c2 ih0 ih1 ih2 =>
    simp only [inOrder, positions, List.filterMap_append, List.filterMap_cons, rootRow?,
      List.map_append, List.map_cons, ih0, ih1, ih2]

theorem map_position?_nodes (t : Tree) : t.nodes.map position? = t.positions.map some := by
  rw [nodes_eq_inOrder]
  induction t with
  | nil => rfl
  | node kind p c0 c1 c2 ih0 ih1 ih2 =>
    simp only [inOrder, positions, position?, List.map_append, List.map_cons, ih0, ih1, ih2]

/-- The rows of a tree's table stand where its nodes do. -/
theorem map_position_rows (t : Tree) : t.rows.map TreeRow.position = t.positions := by
  rw [rows, nodes_eq_inOrder, map_position_inOrder]

end Tree

end WhileLang
