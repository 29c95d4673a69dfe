import WhileLang.Proofs.Building.Grafting

/-!
# Builders that grow

Which builders there are: those that the operations make (`Grown`). Whatever was done before, the
cursor of such a builder leads down through second children to a node of its tree (`Anchored`), so
the tree can always grow, and nothing that has a root loses it (`cursor_of_grown`). An empty builder
has an empty cursor, so that the builders are a monoid under grafting (`graft_monoid`).
-/

namespace WhileLang

namespace Tree

theorem attach_ne_nil {t : Tree} (ht : t ≠ .nil) (u : Tree) : t.attach u ≠ .nil := by
  unfold attach
  split
  · exact setChild_ne_nil ht .child0 u
  · exact setChild_ne_nil ht .child1 u

/-- On the way to a node there are nodes only. -/
theorem descend_ne_nil_of_prefix {t : Tree} {path path' : List Slot} (h : path <+: path')
    (hend : t.descend path' ≠ .nil) : t.descend path ≠ .nil := by
  obtain ⟨rest, rfl⟩ := h
  intro hnil
  rw [descend_append, hnil, descend_nil] at hend
  exact hend rfl

end Tree

namespace TreeBuilder

/-! ## What the operations make -/

/-- A builder that the operations make, from nothing or from a tree. The trees that it grows by are
arbitrary. -/
inductive Grown : TreeBuilder → Prop where
  | empty : Grown .empty
  | ofTree (t : Tree) : Grown (.ofTree t)
  | add {b : TreeBuilder} (t : Tree) (h : Grown b) : Grown (b.add t)
  | graft {b sub : TreeBuilder} (h : Grown b) (hsub : Grown sub) : Grown (b.graft sub)
  | wrap {b : TreeBuilder} (kind : NodeKind) (position : Position) (child1 child2 : Tree)
      (h : Grown b) : Grown (b.wrap kind position child1 child2)

/-- Adding a tree changes nothing, makes it the root, or attaches it to the current node. -/
theorem add_cases (b : TreeBuilder) (t : Tree) :
    b.add t = b ∨ b.root = .nil ∧ b.add t = ofTree t ∨
      b.root ≠ .nil ∧ b.add t = ⟨b.root.modifyAt (·.attach t) b.cursor, b.cursor⟩ := by
  cases t with
  | nil => exact .inl rfl
  | node kind p c0 c1 c2 =>
    by_cases hroot : b.root = .nil
    · exact .inr (.inl ⟨hroot, by simp [add, isEmpty, hroot]⟩)
    · by_cases hleaf : kind.isLeaf = true
      · exact .inl (by simp [add, isEmpty, hroot, hleaf])
      · exact .inr (.inr ⟨hroot, by simp [add, isEmpty, hroot, hleaf]⟩)

section Roots

variable {b : TreeBuilder}

theorem root_add_ne_nil (h : b.root ≠ .nil) (t : Tree) : (b.add t).root ≠ .nil := by
  rcases b.add_cases t with heq | ⟨hroot, -⟩ | ⟨-, heq⟩
  · rwa [heq]
  · exact absurd hroot h
  · rw [heq]
    exact Tree.modifyAt_ne_nil (fun u hu => Tree.attach_ne_nil hu t) h b.cursor

theorem root_wrap_ne_nil (b : TreeBuilder) (kind : NodeKind) (p : Position) (l r : Tree) :
    (b.wrap kind p l r).root ≠ .nil := Tree.noConfusion

/-- Whatever a builder with a root is grafted onto has a root then. -/
theorem root_graft_ne_nil_of_sub (host : TreeBuilder) (h : b.root ≠ .nil) :
    (host.graft b).root ≠ .nil := by
  by_cases hhost : host.root = .nil
  · rwa [root_eq_nil_graft hhost h]
  · exact root_graft_ne_nil b hhost

end Roots

/-! ## The cursor -/

/-- The cursor leads down through second children to a node of the tree. -/
structure Anchored (b : TreeBuilder) : Prop where
  cursor_eq_nil : b.root = .nil → b.cursor = []
  eq_child1 : ∀ slot ∈ b.cursor, slot = .child1
  current_ne_nil : b.root ≠ .nil → b.current ≠ .nil

namespace Anchored

variable {b sub : TreeBuilder}

theorem ofTree (t : Tree) : Anchored (ofTree t) := ⟨fun _ => rfl, nofun, id⟩

theorem eq_empty (h : Anchored b) (hroot : b.root = .nil) : b = .empty := by
  have hcursor := h.cursor_eq_nil hroot
  obtain ⟨root, cursor⟩ := b
  cases hroot
  cases hcursor
  rfl

/-- The current node may lose its second child, but the cursor goes no further than to that node. -/
theorem add (h : Anchored b) (t : Tree) : Anchored (b.add t) := by
  rcases b.add_cases t with heq | ⟨-, heq⟩ | ⟨hroot, heq⟩
  · rwa [heq]
  · rw [heq]
    exact ofTree t
  · have hcurrent : b.root.descend b.cursor ≠ .nil := h.current_ne_nil hroot
    have hadded := root_add_ne_nil hroot t
    rw [heq] at hadded ⊢
    refine ⟨fun hnil => absurd hnil hadded, h.eq_child1, fun _ => ?_⟩
    unfold current
    rw [Tree.descend_modifyAt _ hcurrent]
    exact Tree.attach_ne_nil hcurrent t

theorem graft (h : Anchored b) (hsub : Anchored sub) : Anchored (b.graft sub) := by
  by_cases hs : sub.root = .nil
  · rwa [graft_of_root_eq_nil b hs]
  · by_cases hb : b.root = .nil
    · rwa [root_eq_nil_graft hb hs]
    · have hcurrent := h.current_ne_nil hb
      refine ⟨fun hnil => absurd hnil (root_graft_ne_nil sub hb), ?_, fun _ => ?_⟩
      · rw [graft_eq hs hb hcurrent]
        intro slot hslot
        rcases List.mem_append.mp hslot with hslot | hslot
        · exact h.eq_child1 slot hslot
        · rcases List.mem_cons.mp hslot with rfl | hslot
          · rfl
          · exact hsub.eq_child1 slot hslot
      · rw [current_graft hs hb hcurrent]
        exact hsub.current_ne_nil hs

end Anchored

/-- Induction on how the builder was made: every operation keeps the cursor anchored. -/
theorem Grown.anchored {b : TreeBuilder} (h : Grown b) : Anchored b := by
  induction h with
  | empty => exact .ofTree .nil
  | ofTree t => exact .ofTree t
  | add t _ ih => exact ih.add t
  | graft _ _ ih ihsub => exact ih.graft ihsub
  | wrap kind p l r _ _ => exact .ofTree _

/-- **The cursor of a builder.** It leads from the root down through second children, all of which
are there, to a current node. Only in an empty builder there is none, and then the cursor is empty.
No operation makes a builder with a root empty, neither when it grows nor when it is grafted. -/
theorem cursor_of_grown (b : TreeBuilder) (h : Grown b) :
    (b.root = .nil → b.cursor = []) ∧
      (b.root ≠ .nil → (∀ slot ∈ b.cursor, slot = .child1) ∧ b.current ≠ .nil ∧
        ∀ path, path <+: b.cursor → b.root.descend path ≠ .nil) ∧
      (b.root ≠ .nil → (∀ t, (b.add t).root ≠ .nil) ∧ (∀ sub, (b.graft sub).root ≠ .nil) ∧
        (∀ host : TreeBuilder, (host.graft b).root ≠ .nil) ∧
        ∀ kind p l r, (b.wrap kind p l r).root ≠ .nil) := by
  have hb := h.anchored
  refine ⟨hb.cursor_eq_nil, fun hroot => ⟨hb.eq_child1, hb.current_ne_nil hroot, ?_⟩,
    fun hroot => ⟨root_add_ne_nil hroot, fun sub => root_graft_ne_nil sub hroot,
      fun host => root_graft_ne_nil_of_sub host hroot, b.root_wrap_ne_nil⟩⟩
  intro path hpath
  exact Tree.descend_ne_nil_of_prefix hpath (hb.current_ne_nil hroot)

/-- A part is grafted, and its second child replaced by another tree. -/
theorem cursor_of_grown_replaced :
    Grown (((ofTree (.node .sequence .start .nil .nil .nil)).graft
        (ofTree (.pair .loop .start (.leaf "a" .start) (.leaf "b" .start)))).add
          (.unary .print .start .nil)) ∧
      (((ofTree (.node .sequence .start .nil .nil .nil)).graft
        (ofTree (.pair .loop .start (.leaf "a" .start) (.leaf "b" .start)))).add
          (.unary .print .start .nil)).current ≠ .nil := by
  have h : Grown (((ofTree (.node .sequence .start .nil .nil .nil)).graft
      (ofTree (.pair .loop .start (.leaf "a" .start) (.leaf "b" .start)))).add
        (.unary .print .start .nil)) := .add _ (.graft (.ofTree _) (.ofTree _))
  exact ⟨h, ((cursor_of_grown _ h).2.1 (by decide)).2.1⟩

/-! ## Grafting as a monoid -/

/-- **Grafting is a monoid.** It does not matter in which order three builders are grafted onto each
other, and an empty builder leaves any other as it is, on either side. -/
theorem graft_monoid (a b c e : TreeBuilder) (ha : Grown a) (he : Grown e)
    (hempty : e.isEmpty = true) :
    (a.graft b).graft c = a.graft (b.graft c) ∧ a.graft e = a ∧ e.graft a = a := by
  have hnil : e.root = .nil := Tree.isNil_eq_true_iff.mp hempty
  refine ⟨graft_assoc a b c, graft_of_root_eq_nil a hnil, ?_⟩
  by_cases hroot : a.root = .nil
  · rw [graft_of_root_eq_nil e hroot, he.anchored.eq_empty hnil, ha.anchored.eq_empty hroot]
  · exact root_eq_nil_graft hnil hroot

/-- Two sequences and a print statement, and nothing, made of nothing and nothing. -/
theorem graft_monoid_sequences :
    Grown (empty.graft empty) ∧ (empty.graft empty).isEmpty = true ∧
      Grown (ofTree (.unary .sequence .start (.leaf "a" .start))) ∧
      ((ofTree (.unary .sequence .start (.leaf "a" .start))).graft
          (ofTree (.unary .sequence .start (.leaf "b" .start)))).graft
          (ofTree (.unary .print .start (.leaf "c" .start))) =
        (ofTree (.unary .sequence .start (.leaf "a" .start))).graft
          ((ofTree (.unary .sequence .start (.leaf "b" .start))).graft
            (ofTree (.unary .print .start (.leaf "c" .start)))) ∧
      (ofTree (.unary .sequence .start (.leaf "a" .start))).graft (empty.graft empty) =
        ofTree (.unary .sequence .start (.leaf "a" .start)) ∧
      (empty.graft empty).graft (ofTree (.unary .sequence .start (.leaf "a" .start))) =
        ofTree (.unary .sequence .start (.leaf "a" .start)) := by
  have hnone : Grown (empty.graft empty) := .graft .empty .empty
  have ha : Grown (ofTree (.unary .sequence .start (.leaf "a" .start))) := .ofTree _
  exact ⟨hnone, by decide, ha, graft_monoid _ _ _ _ ha hnone (by decide)⟩

end TreeBuilder

end WhileLang
