import WhileLang.Proofs.Building.Visiting
import WhileLang.Proofs.Language.OneLine

/-!
# The mark of an absent child

The table of a tree has `NIL` in the cell of a child that is absent. It also has the spelling of a
leaf in the cell of a leaf, and a name may be spelled `NIL` (`not_cell_eq_nil_iff`). In a tree that
was parsed there is no other way to read the mark wrongly: no construct and no other leaf is written
like it, and names are the first children of variables and declarations (`cell_eq_nil_iff`).
-/

namespace WhileLang

/-- The cell of a row for a child. -/
def TreeRow.cell (r : TreeRow) : Slot → String
  | .child0 => r.child0
  | .child1 => r.child1
  | .child2 => r.child2

theorem NodeKind.tag_ne_nil {kind : NodeKind} (h : kind.isLeaf = false) : kind.tag ≠ "NIL" := by
  have hall : ∀ kind ∈ constructs, kind.tag ≠ "NIL" := by decide
  exact hall kind (mem_constructs h)

namespace Tree

theorem cell_of_rootRow? {t : Tree} {r : TreeRow} (h : t.rootRow? = some r) (slot : Slot) :
    r.cell slot = (t.child slot).tag := by
  cases t with
  | nil => cases h
  | node =>
    cases h
    cases slot <;> rfl

/-! ## Cells that tell -/

/-- The child is the name of a variable or of a declaration, and is spelled like the mark. -/
def HasNilName (t : Tree) (slot : Slot) : Prop :=
  slot = .child0 ∧ (t.kind? = some .var ∨ t.kind? = some .declaration) ∧
    ∃ p, t.child slot = leaf "NIL" p

/-- The tag of a child tells whether it is there, unless it is a name that is spelled like the
mark. -/
def Tells (t : Tree) (slot : Slot) : Prop :=
  (t.child slot).tag = "NIL" ↔ t.child slot = nil ∨ t.HasNilName slot

variable {t : Tree} {slot : Slot}

/-- Constructs are not written like the mark. -/
theorem tells_of_inner (h : (t.child slot).isLeaf = false) : t.Tells slot := by
  constructor
  · intro htag
    left
    cases hchild : t.child slot with
    | nil => rfl
    | node kind =>
      rw [hchild] at h htag
      exact absurd htag (NodeKind.tag_ne_nil h)
  · rintro (hnil | ⟨-, -, p, hname⟩)
    · rw [hnil]
      rfl
    · rw [hname] at h
      cases h

/-- A leaf with another spelling is not written like the mark. -/
theorem tells_of_leaf {text : String} {p : Position} (h : t.child slot = leaf text p)
    (htext : text ≠ "NIL") : t.Tells slot := by
  unfold Tells HasNilName
  rw [h]
  constructor
  · exact fun htag => absurd htag htext
  · rintro (hnil | ⟨-, -, q, hname⟩)
    · cases hnil
    · cases hname
      exact absurd rfl htext

/-- A name is written like the mark if it is spelled like it. -/
theorem tells_of_name {name : String} {p : Position} (h : t.child .child0 = leaf name p)
    (hkind : t.kind? = some .var ∨ t.kind? = some .declaration) : t.Tells .child0 := by
  unfold Tells HasNilName
  rw [h]
  constructor
  · intro htag
    obtain rfl : name = "NIL" := htag
    exact .inr ⟨rfl, hkind, p, rfl⟩
  · rintro (hnil | ⟨-, -, q, hname⟩)
    · cases hnil
    · cases hname
      rfl

/-- A construct all of whose nodes tell which of their children are there. An absent tree counts as
one, for the sake of absent children. -/
structure Telling (t : Tree) : Prop where
  isLeaf : t.isLeaf = false
  tells : ∀ n ∈ t.inOrder, ∀ slot, n.Tells slot

namespace Telling

theorem nil : Telling nil := ⟨rfl, nofun⟩

/-- The nodes of a leaf have no children. -/
theorem tells_leaf (text : String) (p : Position) :
    ∀ n ∈ (leaf text p).inOrder, ∀ slot, n.Tells slot := by
  intro n hn slot
  obtain rfl : n = leaf text p := List.mem_singleton.mp hn
  apply tells_of_inner
  cases slot <;> rfl

/-- Of a node that tells, and of what is below it. -/
theorem of_children {kind : NodeKind} {p : Position} {c0 c1 c2 : Tree}
    (hkind : kind.isLeaf = false) (hroot : ∀ slot, (Tree.node kind p c0 c1 c2).Tells slot)
    (h0 : ∀ n ∈ c0.inOrder, ∀ slot, n.Tells slot) (h1 : ∀ n ∈ c1.inOrder, ∀ slot, n.Tells slot)
    (h2 : ∀ n ∈ c2.inOrder, ∀ slot, n.Tells slot) : Telling (.node kind p c0 c1 c2) := by
  refine ⟨hkind, ?_⟩
  intro n hn
  rcases List.mem_append.mp hn with hn | hn
  · exact h0 n hn
  · rcases List.mem_cons.mp hn with rfl | hn
    · exact hroot
    · rcases List.mem_append.mp hn with hn | hn
      · exact h1 n hn
      · exact h2 n hn

theorem node {kind : NodeKind} {p : Position} {c0 c1 c2 : Tree} (hkind : kind.isLeaf = false)
    (h0 : Telling c0) (h1 : Telling c1) (h2 : Telling c2) : Telling (.node kind p c0 c1 c2) := by
  refine of_children hkind (fun slot => tells_of_inner ?_) h0.tells h1.tells h2.tells
  cases slot with
  | child0 => exact h0.isLeaf
  | child1 => exact h1.isLeaf
  | child2 => exact h2.isLeaf

theorem unary {kind : NodeKind} {p : Position} {t : Tree} (hkind : kind.isLeaf = false)
    (h : Telling t) : Telling (unary kind p t) := node hkind h nil nil

theorem pair {kind : NodeKind} {p : Position} {l r : Tree} (hkind : kind.isLeaf = false)
    (hl : Telling l) (hr : Telling r) : Telling (pair kind p l r) := node hkind hl hr nil

theorem name (name : String) (p q : Position) : Telling (.unary .var p (.leaf name q)) := by
  refine of_children rfl ?_ (tells_leaf name q) nofun nofun
  intro slot
  cases slot with
  | child0 => exact tells_of_name rfl (.inl rfl)
  | child1 | child2 => exact tells_of_inner rfl

theorem literal {kind : NodeKind} {text : String} (hkind : kind.isLeaf = false)
    (htext : text ≠ "NIL") (p q : Position) : Telling (.unary kind p (.leaf text q)) := by
  refine of_children hkind ?_ (tells_leaf text q) nofun nofun
  intro slot
  cases slot with
  | child0 => exact tells_of_leaf rfl htext
  | child1 | child2 => exact tells_of_inner rfl

theorem declaration (name : String) {type : String} (htype : type ≠ "NIL") (p q q' : Position) :
    Telling (.pair .declaration p (.leaf name q) (.leaf type q')) := by
  refine of_children rfl ?_ (tells_leaf name q) (tells_leaf type q') nofun
  intro slot
  cases slot with
  | child0 => exact tells_of_name rfl (.inr rfl)
  | child1 => exact tells_of_leaf rfl htype
  | child2 => exact tells_of_inner rfl

end Telling

end Tree

/-! ## Parsed trees -/

namespace Grammar

open WhileLang.Tree

/-- The mark begins with no digit. -/
theorem IsNumeral.ne_nil {digits : String} (h : IsNumeral digits) : digits ≠ "NIL" := by
  rintro rfl
  exact absurd (h.2 'N' (by decide)) (by decide)

theorem WellFormedExpression.telling {t : Tree} (h : WellFormedExpression t) : t.Telling := by
  induction h with
  | name => exact .name _ _ _
  | number h => exact .literal rfl h.ne_nil _ _
  | truth h =>
    refine .literal rfl ?_ _ _
    rcases h with rfl | rfl <;> decide
  | negation _ ih => exact .unary rfl ih
  | binary _ _ ihl ihr => exact .pair rfl ihl ihr

theorem WellFormed.telling {part : ProgramPart} {t : Tree} (h : WellFormed part t) :
    t.Telling := by
  induction h with
  | program _ ih | statements _ ih | statement _ ih => exact ih
  | declaration _ ht _ ih =>
    refine .pair rfl (.declaration _ ?_ _ _ _) ih
    rcases ht with rfl | rfl <;> decide
  | next _ _ ihl ihr => exact .pair rfl ihl ihr
  | assignment _ h => exact .pair rfl (.name _ _ _) h.telling
  | conditional hc _ ih => exact .pair rfl hc.telling ih
  | alternative hc _ _ ihb ihd => exact .node rfl hc.telling ihb ihd
  | loop hc _ ih => exact .pair rfl hc.telling ih
  | print h => exact .unary rfl h.telling

/-- **Which cells have the mark.** In the table of a tree that was parsed, each row is that of a
node, and the cell of a child has the mark if the child is absent, or if the node is a variable or a
declaration whose name is spelled like the mark. No other cell has it. -/
theorem cell_eq_nil_iff {b : TreeBuilder} (h : Parsed b) {i : Nat} {row : TreeRow}
    (hrow : b.root.rows[i]? = some row) :
    ∃ n, b.root.nodes[i]? = some n ∧ n.rootRow? = some row ∧
      ∀ slot, row.cell slot = "NIL" ↔ n.child slot = .nil ∨ n.HasNilName slot := by
  have hsome : (b.root.nodes.map rootRow?)[i]? = some (some row) := by
    rw [map_rootRow?_nodes, List.getElem?_map, hrow]
    rfl
  rw [List.getElem?_map] at hsome
  obtain ⟨n, hn, hnode⟩ := Option.map_eq_some_iff.mp hsome
  refine ⟨n, hn, hnode, fun slot => ?_⟩
  have hmem : n ∈ b.root.inOrder := by
    rw [← nodes_eq_inOrder]
    exact List.mem_of_getElem? hn
  rw [cell_of_rootRow? hnode]
  exact h.wellFormed.telling.tells n hmem slot

/-- A text that gives a name the spelling of the mark, the row of its variable, and the variable. -/
theorem exists_parsed_nil :
    ∃ b, (parseText .off "program p : NIL := 1 end").1 = .ok b ∧
      b.root.rows[1]? = some ⟨"VARIABLE", ⟨1, 13⟩, "NIL", "NIL", "NIL"⟩ ∧
      b.root.nodes[1]? = some (.unary .var ⟨1, 13⟩ (.leaf "NIL" ⟨1, 13⟩)) := by
  have hparsed : (parseText .off "program p : NIL := 1 end").1.toOption.map
        (fun b => (b.root.rows[1]?, b.root.nodes[1]?)) =
      some (some ⟨"VARIABLE", ⟨1, 13⟩, "NIL", "NIL", "NIL"⟩,
        some (.unary .var ⟨1, 13⟩ (.leaf "NIL" ⟨1, 13⟩))) := by decide +kernel
  cases hparse : (parseText .off "program p : NIL := 1 end").1 with
  | error e =>
    rw [hparse] at hparsed
    cases hparsed
  | ok b =>
    rw [hparse] at hparsed
    obtain ⟨hrow, hnode⟩ := Prod.mk.inj (Option.some.inj hparsed)
    exact ⟨b, rfl, hrow, hnode⟩

theorem cell_eq_nil_iff_variable :
    ∃ b n row, Parsed b ∧ b.root.rows[1]? = some row ∧ b.root.nodes[1]? = some n ∧
      row.cell .child0 = "NIL" ∧ row.cell .child1 = "NIL" ∧
      ∀ slot, row.cell slot = "NIL" ↔ n.child slot = .nil ∨ n.HasNilName slot := by
  obtain ⟨b, hb, hrow, -⟩ := exists_parsed_nil
  have hparsed : Parsed b := ⟨_, _, .inl hb⟩
  obtain ⟨n, hn, -, hcells⟩ := cell_eq_nil_iff hparsed hrow
  exact ⟨b, n, _, hparsed, hrow, hn, rfl, rfl, hcells⟩

/-- A child that is there can have the mark of an absent one. -/
theorem not_cell_eq_nil_iff :
    ¬∀ (source : String) (b : TreeBuilder), (parseText .off source).1 = .ok b →
      ∀ (i : Nat) (row : TreeRow) (n : Tree), b.root.rows[i]? = some row →
        b.root.nodes[i]? = some n → ∀ slot, (row.cell slot = "NIL" ↔ n.child slot = .nil) := by
  intro h
  obtain ⟨b, hb, hrow, hnode⟩ := exists_parsed_nil
  exact absurd ((h _ b hb 1 _ _ hrow hnode .child0).mp rfl) Tree.noConfusion

end Grammar

end WhileLang
