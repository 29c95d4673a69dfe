import Mathlib.Data.List.Forall2
import Mathlib.Data.List.Nodup
import WhileLang.Proofs.Building.Grafting
import WhileLang.Proofs.Building.Visiting

/-!
# The places of the nodes

Equal nodes may stand at several places of a tree, so that what is visited once is a place: the path
from the root to a node. The places in order are those of the first child, the root, and those of
the other two children. Every place of a node is among them exactly once (`mem_places_iff`,
`nodup_places`), and following them gives the nodes in order (`map_descend_places`).

The stack of visits makes no difference to this order, which is why the rows of a table and the
number of nodes may be read off from the places (`nodes_eq_places`).
-/

namespace WhileLang

namespace Tree

/-- The places of the nodes of a tree, in order. -/
def places : Tree → List (List Slot)
  | nil => []
  | node _ _ c0 c1 c2 =>
    c0.places.map (.child0 :: ·) ++
      [] :: (c1.places.map (.child1 :: ·) ++ c2.places.map (.child2 :: ·))

theorem mem_places_iff {t : Tree} {path : List Slot} :
    path ∈ t.places ↔ t.descend path ≠ nil := by
  induction t generalizing path with
  | nil => simp [places]
  | node kind p c0 c1 c2 ih0 ih1 ih2 =>
    cases path with
    | nil => simp [places, descend]
    | cons slot path => cases slot <;> simp [places, descend, child, ih0, ih1, ih2]

/-- Below different slots there are different places. -/
theorem disjoint_below {slot slot' : Slot} (h : slot ≠ slot') (paths paths' : List (List Slot)) :
    List.Disjoint (paths.map (slot :: ·)) (paths'.map (slot' :: ·)) := by
  intro path hpath hpath'
  obtain ⟨_, -, rfl⟩ := List.mem_map.mp hpath
  obtain ⟨_, -, heq⟩ := List.mem_map.mp hpath'
  exact h (List.cons.inj heq).1.symm

theorem nodup_places (t : Tree) : t.places.Nodup := by
  induction t with
  | nil => exact List.nodup_nil
  | node kind p c0 c1 c2 ih0 ih1 ih2 =>
    have hbelow (slot : Slot) {paths : List (List Slot)} (h : paths.Nodup) :
        (paths.map (slot :: ·)).Nodup := h.map List.cons_injective
    have hlater : (c1.places.map (.child1 :: ·) ++ c2.places.map (.child2 :: ·)).Nodup :=
      (hbelow _ ih1).append (hbelow _ ih2) (disjoint_below (by decide) _ _)
    have hroot : [] ∉ c1.places.map (.child1 :: ·) ++ c2.places.map (.child2 :: ·) := by simp
    refine (hbelow _ ih0).append (List.nodup_cons.mpr ⟨hroot, hlater⟩) ?_
    rw [List.disjoint_cons_right, List.disjoint_append_right]
    exact ⟨by simp, disjoint_below (by decide) _ _, disjoint_below (by decide) _ _⟩

theorem map_descend_places (t : Tree) : t.places.map t.descend = t.inOrder := by
  induction t with
  | nil => rfl
  | node kind p c0 c1 c2 ih0 ih1 ih2 =>
    rw [inOrder, ← ih0, ← ih1, ← ih2]
    simp only [places, List.map_append, List.map_cons, List.map_map]
    rfl

/-- Every place has its row in the table. -/
theorem forall₂_rows (t : Tree) :
    List.Forall₂ (fun path row => (t.descend path).rootRow? = some row) t.places t.rows := by
  have hrows : t.places.map (fun path => (t.descend path).rootRow?) = t.rows.map some := by
    rw [← map_rootRow?_nodes, nodes_eq_inOrder, ← map_descend_places, List.map_map]
    rfl
  rwa [← List.forall₂_eq_eq_eq, List.forall₂_map_left_iff, List.forall₂_map_right_iff] at hrows

theorem rootRow?_eq_some_iff {t : Tree} {row : TreeRow} :
    t.rootRow? = some row ↔
      ∃ kind p c0 c1 c2, t = node kind p c0 c1 c2 ∧
        row = ⟨kind.tag, p, c0.tag, c1.tag, c2.tag⟩ := by
  cases t <;> simp [rootRow?, eq_comm]

/-- **The stack walks a tree in order.** The nodes that are visited are those that the recursion on
the tree gives. Every place of a node is visited exactly once, and has the row of its node in the
table: its kind, its position, and the tags of its children. There are as many nodes as rows, and as
many as the recursion on the tree counts. -/
theorem nodes_eq_places (t : Tree) :
    t.nodes = t.inOrder ∧
      (t.places.Nodup ∧ (∀ path, path ∈ t.places ↔ t.descend path ≠ nil) ∧
        t.nodes = t.places.map t.descend) ∧
      List.Forall₂
        (fun path row => ∃ kind p c0 c1 c2, t.descend path = node kind p c0 c1 c2 ∧
          row = ⟨kind.tag, p, c0.tag, c1.tag, c2.tag⟩)
        t.places t.rows ∧
      t.nodeCount = t.rows.length ∧ t.nodeCount = t.size := by
  have hrows := t.forall₂_rows
  have hplaces : t.nodes = t.places.map t.descend := by rw [nodes_eq_inOrder, map_descend_places]
  refine ⟨t.nodes_eq_inOrder, ⟨t.nodup_places, fun _ => mem_places_iff, hplaces⟩,
    hrows.imp fun _ _ => rootRow?_eq_some_iff.mp, ?_, t.nodeCount_eq_size⟩
  rw [nodeCount, hplaces, List.length_map, hrows.length_eq]

end Tree

end WhileLang
