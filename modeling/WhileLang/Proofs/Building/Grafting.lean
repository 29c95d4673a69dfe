import WhileLang.Tree.Builder

/-!
# Grafting

What is grafted onto a tree stands below its current node, and growth goes on in the grafted
part. So it does not matter in which order several parts are grafted (`graft_assoc`), which is
why a chain of declarations may be assembled from its front.
-/

namespace WhileLang

/-! ## Paths -/

namespace Tree

@[simp] theorem isNil_eq_true_iff {t : Tree} : t.isNil = true ↔ t = .nil := by
  cases t <;> simp [isNil]

@[simp] theorem child_nil (slot : Slot) : Tree.nil.child slot = .nil := by cases slot <;> rfl

@[simp] theorem setChild_nil (slot : Slot) (u : Tree) : Tree.nil.setChild slot u = .nil := by
  cases slot <;> rfl

theorem child_setChild {t : Tree} (ht : t ≠ .nil) (slot : Slot) (u : Tree) :
    (t.setChild slot u).child slot = u := by
  cases t with
  | nil => exact absurd rfl ht
  | node => cases slot <;> rfl

@[simp] theorem setChild_setChild (t : Tree) (slot : Slot) (u v : Tree) :
    (t.setChild slot u).setChild slot v = t.setChild slot v := by
  cases t <;> cases slot <;> rfl

theorem setChild_ne_nil {t : Tree} (ht : t ≠ .nil) (slot : Slot) (u : Tree) :
    t.setChild slot u ≠ .nil := by
  cases t with
  | nil => exact absurd rfl ht
  | node => cases slot <;> exact Tree.noConfusion

@[simp] theorem descend_nil (path : List Slot) : Tree.nil.descend path = .nil := by
  induction path with
  | nil => rfl
  | cons slot path ih => simpa [descend] using ih

theorem descend_append (t : Tree) (path path' : List Slot) :
    t.descend (path ++ path') = (t.descend path).descend path' := by
  induction path generalizing t with
  | nil => rfl
  | cons slot path ih => exact ih (t.child slot)

theorem modifyAt_append (f : Tree → Tree) (t : Tree) (path path' : List Slot) :
    t.modifyAt f (path ++ path') = t.modifyAt (fun u => u.modifyAt f path') path := by
  induction path generalizing t with
  | nil => rfl
  | cons slot path ih => exact congrArg (t.setChild slot) (ih (t.child slot))

theorem modifyAt_modifyAt (f g : Tree → Tree) (t : Tree) (path : List Slot) :
    (t.modifyAt f path).modifyAt g path = t.modifyAt (fun u => g (f u)) path := by
  induction path generalizing t with
  | nil => rfl
  | cons slot path ih =>
    cases t with
    | nil => simp [modifyAt]
    | node kind p c0 c1 c2 =>
      simp only [modifyAt]
      rw [child_setChild (by simp), setChild_setChild, ih]

theorem descend_modifyAt (f : Tree → Tree) {t : Tree} {path : List Slot}
    (h : t.descend path ≠ .nil) : (t.modifyAt f path).descend path = f (t.descend path) := by
  induction path generalizing t with
  | nil => rfl
  | cons slot path ih =>
    have ht : t ≠ .nil := by
      rintro rfl
      exact h (descend_nil _)
    simp only [modifyAt, descend, child_setChild ht]
    exact ih h

theorem modifyAt_ne_nil {f : Tree → Tree} (hf : ∀ u, u ≠ .nil → f u ≠ .nil) {t : Tree}
    (ht : t ≠ .nil) (path : List Slot) : t.modifyAt f path ≠ .nil := by
  cases path with
  | nil => exact hf t ht
  | cons slot path => exact setChild_ne_nil ht slot _

end Tree

/-! ## Builders -/

namespace TreeBuilder

theorem graft_of_root_eq_nil (b : TreeBuilder) {sub : TreeBuilder} (h : sub.root = .nil) :
    b.graft sub = b := by
  simp [graft, isEmpty, h]

theorem root_eq_nil_graft {b sub : TreeBuilder} (hb : b.root = .nil) (hsub : sub.root ≠ .nil) :
    b.graft sub = sub := by
  simp [graft, isEmpty, hb, hsub]

theorem current_eq_nil_graft {b : TreeBuilder} (sub : TreeBuilder) (hb : b.root ≠ .nil)
    (hcurrent : b.current = .nil) : b.graft sub = b := by
  simp [graft, isEmpty, hb, hcurrent]

theorem graft_eq {b sub : TreeBuilder} (hsub : sub.root ≠ .nil) (hb : b.root ≠ .nil)
    (hcurrent : b.current ≠ .nil) :
    b.graft sub = ⟨b.root.modifyAt (·.setChild .child1 sub.root) b.cursor,
      b.cursor ++ .child1 :: sub.cursor⟩ := by
  simp [graft, isEmpty, hsub, hb, hcurrent]

/-- Below a node with one child the grafted tree is the second one. -/
theorem ofTree_unary_graft (kind : NodeKind) (p : Position) (t : Tree) {sub : TreeBuilder}
    (h : sub.root ≠ .nil) :
    (ofTree (.unary kind p t)).graft sub = ⟨.pair kind p t sub.root, .child1 :: sub.cursor⟩ := by
  rw [graft_eq h Tree.noConfusion Tree.noConfusion]
  rfl

theorem root_graft_ne_nil {b : TreeBuilder} (sub : TreeBuilder) (h : b.root ≠ .nil) :
    (b.graft sub).root ≠ .nil := by
  by_cases hsub : sub.root = .nil
  · rwa [graft_of_root_eq_nil b hsub]
  · by_cases hcurrent : b.current = .nil
    · rwa [current_eq_nil_graft sub h hcurrent]
    · rw [graft_eq hsub h hcurrent]
      exact Tree.modifyAt_ne_nil (fun u hu => Tree.setChild_ne_nil hu _ _) h b.cursor

/-- The current node of the grafted part becomes the current node. -/
theorem current_graft {b sub : TreeBuilder} (hsub : sub.root ≠ .nil) (hb : b.root ≠ .nil)
    (hcurrent : b.current ≠ .nil) : (b.graft sub).current = sub.current := by
  have hnode : b.root.descend b.cursor ≠ .nil := hcurrent
  rw [graft_eq hsub hb hcurrent]
  unfold current
  rw [Tree.descend_append, Tree.descend_modifyAt _ hnode, Tree.descend, Tree.child_setChild hnode]

/-- Grafting is associative. -/
theorem graft_assoc (a b c : TreeBuilder) : (a.graft b).graft c = a.graft (b.graft c) := by
  by_cases hc : c.root = .nil
  · rw [graft_of_root_eq_nil _ hc, graft_of_root_eq_nil _ hc]
  by_cases hb : b.root = .nil
  · rw [graft_of_root_eq_nil a hb, root_eq_nil_graft hb hc]
  have hbc := root_graft_ne_nil c hb
  by_cases ha : a.root = .nil
  · rw [root_eq_nil_graft ha hb, root_eq_nil_graft ha hbc]
  by_cases hacur : a.current = .nil
  · rw [current_eq_nil_graft b ha hacur, current_eq_nil_graft c ha hacur,
      current_eq_nil_graft _ ha hacur]
  have hab := root_graft_ne_nil b ha
  have habcur := current_graft hb ha hacur
  by_cases hbcur : b.current = .nil
  · rw [current_eq_nil_graft c hb hbcur, current_eq_nil_graft c hab (habcur.trans hbcur)]
  -- All three are there and can grow: the tree changes at the same place either way.
  rw [graft_eq hc hab (habcur ▸ hbcur), graft_eq hbc ha hacur, graft_eq hb ha hacur,
    graft_eq hc hb hbcur]
  simp only [mk.injEq, List.append_assoc, List.cons_append, and_true]
  rw [Tree.modifyAt_append, Tree.modifyAt_modifyAt]
  congr 1
  funext u
  cases u with
  | nil => simp [Tree.modifyAt]
  | node kind p c0 c1 c2 => simp [Tree.modifyAt, Tree.setChild, Tree.child]

end TreeBuilder

end WhileLang
