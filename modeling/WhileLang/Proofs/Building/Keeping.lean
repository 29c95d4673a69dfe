import WhileLang.Proofs.Building.Growing
import WhileLang.Proofs.Building.Visiting

/-!
# What growing keeps

A tree that is planted into a slot below a node of another tree replaces what was in that slot, and
changes nothing else (`Tree.AgreeOutside.plant`, `Tree.nodeCount_plant`). So nothing is lost where
the slot was free.

Adding a tree takes the first free slot of the current node, if there is one, and grafting takes the
second slot, free or not. Hence the first never loses a node as long as a slot is free, and the
second loses what was in its slot (`keeps_of_grown`). That no builder ever loses a node is false
(`not_grown_keeps`).
-/

namespace WhileLang

namespace Tree

/-! ## Places in a tree -/

/-- What a node is, its children apart. -/
def label? : Tree → Option (NodeKind × Position)
  | nil => none
  | node kind p _ _ _ => some (kind, p)

/-- The trees have the same nodes at the same places, but for the places in a slot. -/
def AgreeOutside (slot : List Slot) (t u : Tree) : Prop :=
  ∀ path, ¬slot <+: path → (u.descend path).label? = (t.descend path).label?

/-- Every node of `t` is a node of `u`, at the same place. -/
def Keeps (t u : Tree) : Prop :=
  ∀ path, t.descend path ≠ nil → (u.descend path).label? = (t.descend path).label?

/-- The place of a node is not in a slot that is free. -/
theorem AgreeOutside.keeps {slot : List Slot} {t u : Tree} (h : AgreeOutside slot t u)
    (hfree : t.descend slot = nil) : t.Keeps u := by
  intro path hpath
  apply h
  intro hslot
  exact descend_ne_nil_of_prefix hslot hpath hfree

/-! ## Planting -/

/-- Puts the tree `u` into a slot of the node at the end of a path. -/
def plant (t : Tree) (path : List Slot) (slot : Slot) (u : Tree) : Tree :=
  t.modifyAt (·.setChild slot u) path

theorem child_setChild_ne (t : Tree) {slot slot' : Slot} (h : slot' ≠ slot) (u : Tree) :
    (t.setChild slot u).child slot' = t.child slot' := by
  cases t with
  | nil => rw [setChild_nil]
  | node => cases slot <;> cases slot' <;> first | rfl | exact absurd rfl h

theorem label?_setChild (t : Tree) (slot : Slot) (u : Tree) :
    (t.setChild slot u).label? = t.label? := by
  cases t <;> cases slot <;> rfl

/-- A change inside one child is a change of the tree inside the slot of that child. -/
theorem agreeOutside_setChild {t u : Tree} {slot : Slot} {place : List Slot}
    (h : AgreeOutside place (t.child slot) u) :
    AgreeOutside (slot :: place) t (t.setChild slot u) := by
  intro path hpath
  cases path with
  | nil => exact label?_setChild t slot u
  | cons slot' path =>
    show (((t.setChild slot u).child slot').descend path).label? = _
    by_cases hslot : slot' = slot
    · subst hslot
      by_cases ht : t = nil
      · rw [ht, setChild_nil]
        rfl
      · rw [child_setChild ht]
        apply h
        exact fun hplace => hpath (List.cons_prefix_cons.mpr ⟨rfl, hplace⟩)
    · rw [child_setChild_ne t hslot]
      rfl

theorem AgreeOutside.plant (t : Tree) (path : List Slot) (slot : Slot) (u : Tree) :
    AgreeOutside (path ++ [slot]) t (t.plant path slot u) := by
  induction path generalizing t with
  | nil =>
    apply agreeOutside_setChild
    exact fun path hpath => absurd List.nil_prefix hpath
  | cons slot' path ih => exact agreeOutside_setChild (ih (t.child slot'))

/-- What is planted is there. -/
theorem descend_plant {t : Tree} {path : List Slot} (h : t.descend path ≠ nil) (slot : Slot)
    (u : Tree) : (t.plant path slot u).descend (path ++ [slot]) = u := by
  unfold plant
  rw [descend_append, descend_modifyAt _ h]
  exact child_setChild h slot u

theorem nodeCount_setChild {t : Tree} (ht : t ≠ nil) (slot : Slot) (u : Tree) :
    (t.setChild slot u).nodeCount + (t.child slot).nodeCount = t.nodeCount + u.nodeCount := by
  cases t with
  | nil => exact absurd rfl ht
  | node kind p c0 c1 c2 =>
    cases slot <;> simp only [setChild, child, nodeCount_node] <;> omega

/-- The nodes of what is planted come in place of those that were in the slot. -/
theorem nodeCount_plant {t : Tree} {path : List Slot} (h : t.descend path ≠ nil) (slot : Slot)
    (u : Tree) :
    (t.plant path slot u).nodeCount + (t.descend (path ++ [slot])).nodeCount =
      t.nodeCount + u.nodeCount := by
  induction path generalizing t with
  | nil => exact nodeCount_setChild h slot u
  | cons slot' path ih =>
    have ht : t ≠ nil := by
      rintro rfl
      exact h (descend_nil _)
    have hchild := ih (t := t.child slot') h
    have hroot := nodeCount_setChild ht slot' ((t.child slot').plant path slot u)
    show (t.setChild slot' ((t.child slot').plant path slot u)).nodeCount +
      ((t.child slot').descend (path ++ [slot])).nodeCount = _
    omega

/-! ## Free slots -/

/-- The first of the two slots for growth that is free. -/
def freeSlot? (t : Tree) : Option Slot :=
  if (t.child .child0).isNil then some .child0
  else if (t.child .child1).isNil then some .child1
  else none

theorem freeSlot?_eq_some {t : Tree} {slot : Slot} (h : t.freeSlot? = some slot) :
    t.child slot = nil ∧ ∀ u, t.attach u = t.setChild slot u := by
  unfold freeSlot? at h
  split at h
  · next h0 =>
    cases h
    exact ⟨isNil_eq_true_iff.mp h0, fun u => if_pos h0⟩
  · next h0 =>
    split at h
    · next h1 =>
      cases h
      exact ⟨isNil_eq_true_iff.mp h1, fun u => if_neg h0⟩
    · cases h

/-- A change depends on what it makes of the tree at the end of the path. -/
theorem modifyAt_congr {f g : Tree → Tree} {t : Tree} {path : List Slot}
    (h : f (t.descend path) = g (t.descend path)) : t.modifyAt f path = t.modifyAt g path := by
  induction path generalizing t with
  | nil => exact h
  | cons slot path ih => exact congrArg (t.setChild slot) (ih h)

end Tree

/-! ## Builders -/

namespace TreeBuilder

open WhileLang.Tree

variable {b sub : TreeBuilder} {t : Tree}

/-- An inner node is added in the first free slot of the current node. -/
theorem root_add_of_freeSlot? {slot : Slot} (hroot : b.root ≠ .nil) (ht : t ≠ .nil)
    (hleaf : t.isLeaf = false) (h : b.current.freeSlot? = some slot) :
    (b.add t).root = b.root.plant b.cursor slot t := by
  cases t with
  | nil => exact absurd rfl ht
  | node kind p c0 c1 c2 =>
    have hkind : kind.isLeaf = false := hleaf
    simp only [add, isEmpty, hkind, Bool.false_eq_true, if_false, isNil_eq_true_iff, hroot]
    exact modifyAt_congr ((freeSlot?_eq_some h).2 _)

/-- A builder is grafted into the second slot of the current node. -/
theorem root_graft (hroot : b.root ≠ .nil) (hcurrent : b.current ≠ .nil)
    (hsub : sub.root ≠ .nil) :
    (b.graft sub).root = b.root.plant b.cursor .child1 sub.root := by
  rw [graft_eq hsub hroot hcurrent]
  rfl

theorem descend_cursor_append (b : TreeBuilder) (slot : Slot) :
    b.root.descend (b.cursor ++ [slot]) = b.current.child slot :=
  descend_append b.root b.cursor [slot]

/-- **What growing keeps.** An inner node is added in the first free slot of the current node, if
there is one: then all nodes stay where they are, and there are as many more as are added. A builder
is grafted into the second slot of the current node: then all nodes stay that are not in this slot,
which are all nodes if it is free, and those in it give way to the nodes that are grafted. -/
theorem keeps_of_grown (b : TreeBuilder) (h : Grown b) (hroot : b.root ≠ .nil) :
    (∀ t slot, t ≠ .nil → t.isLeaf = false → b.current.freeSlot? = some slot →
      b.root.Keeps (b.add t).root ∧
        (b.add t).root.nodeCount = b.root.nodeCount + t.nodeCount ∧
        (b.add t).root.descend (b.cursor ++ [slot]) = t) ∧
      ∀ sub : TreeBuilder, Grown sub → sub.root ≠ .nil →
        b.root.AgreeOutside (b.cursor ++ [.child1]) (b.graft sub).root ∧
          (b.current.child .child1 = .nil → b.root.Keeps (b.graft sub).root) ∧
          (b.graft sub).root.nodeCount + (b.current.child .child1).nodeCount =
            b.root.nodeCount + sub.root.nodeCount ∧
          (b.graft sub).root.descend (b.cursor ++ [.child1]) = sub.root := by
  have hcurrent := h.anchored.current_ne_nil hroot
  constructor
  · intro t slot ht hleaf hslot
    have hfree : b.root.descend (b.cursor ++ [slot]) = .nil := by
      rw [descend_cursor_append]
      exact (freeSlot?_eq_some hslot).1
    have hcount := nodeCount_plant hcurrent slot t
    rw [hfree, nodeCount_nil, Nat.add_zero] at hcount
    rw [root_add_of_freeSlot? hroot ht hleaf hslot]
    exact ⟨(AgreeOutside.plant b.root b.cursor slot t).keeps hfree, hcount,
      descend_plant hcurrent slot t⟩
  · intro sub _ hsub
    have hagree := AgreeOutside.plant b.root b.cursor .child1 sub.root
    have hcount := nodeCount_plant hcurrent .child1 sub.root
    rw [descend_cursor_append] at hcount
    rw [root_graft hroot hcurrent hsub]
    refine ⟨hagree, fun hfree => hagree.keeps ?_, hcount, descend_plant hcurrent _ _⟩
    rwa [descend_cursor_append]

/-- A print statement is added to a sequence with one part, and a loop is grafted in its place. -/
theorem keeps_of_grown_sequence :
    let print : Tree := .node .print ⟨1, 3⟩ .nil .nil .nil
    let loop := ofTree (.node .loop ⟨1, 4⟩ .nil .nil .nil)
    let b := (ofTree (.node .sequence ⟨1, 1⟩ .nil .nil .nil)).add
      (.node .declaration ⟨1, 2⟩ .nil .nil .nil)
    Grown b ∧ b.root ≠ .nil ∧ b.current.freeSlot? = some .child1 ∧
      b.root.Keeps (b.add print).root ∧
      (b.add print).root.nodeCount = b.root.nodeCount + print.nodeCount ∧
      (b.add print).current.child .child1 = print ∧
      (b.add print).root.AgreeOutside [.child1] ((b.add print).graft loop).root ∧
      ((b.add print).graft loop).root.nodeCount + print.nodeCount =
        (b.add print).root.nodeCount + loop.root.nodeCount := by
  intro print loop b
  have hb : Grown b := .add _ (.ofTree _)
  have hroot : b.root ≠ .nil := by decide
  have hslot : b.current.freeSlot? = some .child1 := by decide
  obtain ⟨hkeeps, hadded, -⟩ :=
    (keeps_of_grown b hb hroot).1 print .child1 (by decide) (by decide) hslot
  obtain ⟨hagree, -, hgrafted, -⟩ :=
    (keeps_of_grown (b.add print) (.add print hb) (by decide)).2 loop (.ofTree _) (by decide)
  exact ⟨hb, hroot, hslot, hkeeps, hadded, by decide, hagree, hgrafted⟩

/-- An inner node that is added where no slot is free, and a builder that is grafted where the
second slot is not free, both put an end to what was in the second slot. -/
theorem not_grown_keeps :
    (¬∀ (b : TreeBuilder) (t : Tree), Grown b → b.root ≠ .nil → t ≠ .nil → t.isLeaf = false →
        b.root.Keeps (b.add t).root ∧
            (b.add t).root.nodeCount = b.root.nodeCount + t.nodeCount ∨
          b.current.freeSlot? = none ∧ b.add t = b) ∧
      ¬∀ b sub : TreeBuilder, Grown b → b.root ≠ .nil → Grown sub → sub.root ≠ .nil →
        b.root.Keeps (b.graft sub).root := by
  let b := ((ofTree (.node .sequence ⟨1, 1⟩ .nil .nil .nil)).add
    (.node .declaration ⟨1, 2⟩ .nil .nil .nil)).add (.node .print ⟨1, 3⟩ .nil .nil .nil)
  let t : Tree := .node .loop ⟨1, 4⟩ .nil .nil .nil
  have hb : Grown b := .add _ (.add _ (.ofTree _))
  have hroot : b.root ≠ .nil := by decide
  have hprint : b.root.descend [.child1] ≠ .nil := by decide
  constructor
  · intro h
    rcases h b t hb hroot (by decide) (by decide) with ⟨hkeeps, -⟩ | ⟨-, heq⟩
    · exact absurd (hkeeps [.child1] hprint) (by decide)
    · exact absurd heq (by decide)
  · intro h
    have hkeeps := h b (ofTree t) hb hroot (.ofTree t) (by decide)
    exact absurd (hkeeps [.child1] hprint) (by decide)

end TreeBuilder

end WhileLang
