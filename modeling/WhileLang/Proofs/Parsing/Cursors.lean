import WhileLang.Proofs.Building.Shapes
import WhileLang.Proofs.Parsing.Programs

/-!
# Where a parsed program would grow

The rules leave the cursor of a builder where the sequences of its tree end, on the way down
through second children (`atEnd_of_run_program`). So the tree of a program determines its cursor
(`AtEnd.cursor_eq_of_shape`).

As for the trees themselves, declarations are known by what they make of a body after them
(`OpensEnd`).
-/

namespace WhileLang

open Grammar WhileLang.Parser TokenStream

/-- The way down through the second children of sequences. -/
def Tree.spine : Tree → List Slot
  | .node .sequence _ _ c1 _ => .child1 :: c1.spine
  | _ => []

@[simp] theorem Tree.spine_shape (t : Tree) : t.shape.spine = t.spine := by
  induction t with
  | nil => rfl
  | node kind p c0 c1 c2 _ ih1 _ =>
    cases kind with
    | sequence => exact congrArg (Slot.child1 :: ·) ih1
    | _ => rfl

namespace Grammar

/-- The builder has a tree, and grows where the sequences of this tree end. -/
structure AtEnd (b : TreeBuilder) : Prop where
  root_ne_nil : b.root ≠ .nil
  cursor_eq : b.cursor = b.root.spine

/-- A builder at its end is at its end again after it was grafted onto this one. -/
def OpensEnd (b : TreeBuilder) : Prop := ∀ sub, AtEnd sub → AtEnd (b.graft sub)

theorem AtEnd.cursor_eq_of_shape {b b' : TreeBuilder} (h : AtEnd b) (h' : AtEnd b')
    (hroot : b.root.shape = b'.root.shape) : b.cursor = b'.cursor := by
  rw [h.cursor_eq, h'.cursor_eq, ← Tree.spine_shape, hroot, Tree.spine_shape]

/-- A sequence that has room in its second slot. -/
theorem opensEnd_sequence (p : Position) (t : Tree) :
    OpensEnd (.ofTree (.unary .sequence p t)) := by
  intro sub h
  rw [TreeBuilder.ofTree_unary_graft _ _ _ h.root_ne_nil]
  exact ⟨Tree.noConfusion, congrArg (Slot.child1 :: ·) h.cursor_eq⟩

theorem opensEnd_empty : OpensEnd .empty := by
  intro sub h
  rwa [TreeBuilder.root_eq_nil_graft rfl h.root_ne_nil]

theorem OpensEnd.graft {b c : TreeBuilder} (hb : OpensEnd b) (hc : OpensEnd c) :
    OpensEnd (b.graft c) := by
  intro sub h
  rw [TreeBuilder.graft_assoc]
  exact hb _ (hc sub h)

theorem reads_optionalDeclarations_opensEnd :
    Reads optionalDeclarations (fun _ b => OpensEnd b) :=
  reads_optionalDeclarations_of opensEnd_empty
    (reads_declarations_of (reads_declaration_of fun _ _ s _ _ _ => opensEnd_sequence s.position _)
      fun _ _ _ _ => OpensEnd.graft)

/-- No statement is a sequence. -/
theorem Starts.atEnd {us : List Token} {b : TreeBuilder} (h : Starts us b) : AtEnd b := by
  obtain ⟨t, ht, rfl⟩ := h
  refine ⟨ht.ne_nil, ?_⟩
  cases ht <;> rfl

theorem reads_body_atEnd : Reads body (fun _ b => AtEnd b) := by
  rw [body_eq]
  have hstatements : Reads (statementsWith body) (fun _ b => AtEnd b) :=
    reads_statementsWith_of reads_body (fun _ _ => Starts.atEnd)
      fun _ s _ b next _ _ hnext => opensEnd_sequence s.position b.root next hnext.atEnd
  refine Reads.inRule ((reads_optionalDeclarations_opensEnd.bind fun declared =>
    hstatements.bind fun statements => reads_pure _).mono ?_) _
  rintro us b ⟨_, _, declared, rfl, hdeclared, _, _, statements, rfl, hs, rfl, rfl⟩
  exact hdeclared statements hs

/-- The cursor of a program is at the end of the sequences of its tree. -/
theorem atEnd_of_run_program {s : TokenStream} {b : TreeBuilder}
    (h : (run program s).1 = .ok b) : AtEnd b := by
  cases hhead : s.head with
  | error e =>
    rw [eq_failure_of_head hhead] at h
    cases h
  | ok t =>
    have hreads : Reads program (fun _ b => AtEnd b) :=
      reads_program_of reads_body_atEnd fun _ _ _ _ _ _ _ _ _ hb _ => hb
    have hran := hreads.ran s ⟨t, hhead⟩
    generalize run program s = o at h hran
    cases hran with
    | success _ _ hb =>
      cases h
      exact hb
    | mismatch | unreadable => cases h

end Grammar

end WhileLang
