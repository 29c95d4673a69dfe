import WhileLang.Proofs.Building.Grafting
import WhileLang.Proofs.Parsing.Expressions

/-!
# What the rules for programs read

`reads_program`: the rule for programs reads the phrases that `ProgramTree` describes.

A builder that declarations have made is known by what it makes of the body after them
(`Opens`). Since grafting is associative, so is growing by declarations, and neither the loop
for declarations nor the body that may have none is a special case.
-/

namespace WhileLang

namespace Grammar

open WhileLang.Parser TokenStream

/-- The tokens are a part of a program, and the builder has its tree. -/
def Built (part : ProgramPart) : Phrases TreeBuilder := fun us b => ProgramTree part us b.root

/-- The tokens and a body after them are a body, whose tree the builder makes of the other's. -/
def Opens : Phrases TreeBuilder := fun us b =>
  ∀ vs sub, ProgramTree .body vs sub.root → ProgramTree .body (us ++ vs) (b.graft sub).root

theorem exists_statementTree : ∃ us t, ProgramTree .statement us t := by
  obtain ⟨us, t, h⟩ := exists_expressionTree
  exact ⟨⟨.printWord, "", .start⟩ :: us, _, .print rfl h⟩

theorem exists_built_body : ∃ us b, Built .body us b := by
  obtain ⟨us, t, h⟩ := exists_statementTree
  exact ⟨us, .ofTree t, .statements (.statement h)⟩

/-! ## Declarations -/

theorem opens_empty : Opens [] .empty := by
  intro vs sub h
  have hsub : TreeBuilder.empty.graft sub = sub := TreeBuilder.root_eq_nil_graft rfl h.ne_nil
  rwa [hsub]

theorem Opens.append {us vs : List Token} {b c : TreeBuilder} (hb : Opens us b)
    (hc : Opens vs c) : Opens (us ++ vs) (b.graft c) := by
  intro ws sub h
  rw [TreeBuilder.graft_assoc, List.append_assoc]
  exact hb _ _ (hc ws sub h)

theorem root_declarationTree_graft (w n s : Token) {sub : TreeBuilder} (h : sub.root ≠ .nil) :
    ((TreeBuilder.ofTree (declarationTree w n s)).graft sub).root =
      .pair .sequence s.position (.pair .declaration w.position
        (.leaf n.value n.position) (.leaf w.kind.text w.position)) sub.root := by
  rw [declarationTree, TreeBuilder.ofTree_unary_graft _ _ _ h]

theorem mem_typeWords_iff {k : TokenKind} : k ∈ typeWords ↔ k = .boolWord ∨ k = .intWord := by
  simp [typeWords]

theorem opens_declarationTree {w n s : Token} (hw : w.kind ∈ typeWords)
    (hn : n.kind = .identifier) (hs : s.kind = .semicolon) :
    Opens [w, n, s] (.ofTree (declarationTree w n s)) := by
  intro vs sub h
  rw [root_declarationTree_graft w n s h.ne_nil]
  exact .declaration (mem_typeWords_iff.mp hw) hn hs h

section Declarations

variable {P : Phrases TreeBuilder}

theorem reads_declaration_of (hP : ∀ w n s : Token, w.kind ∈ typeWords → n.kind = .identifier →
    s.kind = .semicolon → P [w, n, s] (.ofTree (declarationTree w n s))) :
    Reads declaration P := by
  refine Reads.inRule (((reads_expect (by decide)).bind fun w => (reads_expect (by simp)).bind
    fun n => (reads_expect (by simp)).bind fun s => reads_pure _).mono ?_) _
  rintro us b ⟨_, _, w, rfl, ⟨rfl, hw⟩, _, _, n, rfl, ⟨rfl, hn⟩, _, _, s, rfl, ⟨rfl, hs⟩, rfl, rfl⟩
  exact hP w n s hw (by simpa using hn) (by simpa using hs)

/-- Declarations are what grafting makes of declarations. -/
theorem reads_declarations_of (hone : Reads declaration P)
    (hmore : ∀ us vs b c, P us b → P vs c → P (us ++ vs) (b.graft c)) :
    Reads declarations P := by
  let S (b : TreeBuilder) : Phrases TreeBuilder := fun us b' => ∃ c, P us c ∧ b' = b.graft c
  refine Reads.inRule ((hone.bind fun first =>
    reads_iterate (S := S) (fun b => ?_) first).mono ?_) _
  · refine reads_peek_bind fun k => ?_
    by_cases hk : k ∈ typeWords
    · rw [if_pos hk]
      refine (hone.bind fun c => reads_pure _).mono ?_
      rintro us r ⟨vs, _, c, rfl, hc, rfl, rfl⟩
      exact ⟨c, by rwa [List.append_nil], rfl⟩
    · rw [if_neg hk]
      refine (reads_pure _).mono ?_
      rintro us r ⟨rfl, rfl⟩
      rfl
  · rintro us b ⟨vs, ws, first, rfl, hfirst, hrest⟩
    refine Phrases.Repeated.grow (P := P) ?_ hfirst hrest
    rintro us vs b _ hb ⟨c, hc, rfl⟩
    exact hmore us vs b c hb hc

theorem reads_optionalDeclarations_of (hempty : P [] .empty) (h : Reads declarations P) :
    Reads optionalDeclarations P := by
  refine reads_peek_bind fun k => ?_
  by_cases hk : k ∈ typeWords
  · rw [if_pos hk]
    exact h
  · rw [if_neg hk]
    refine (reads_pure _).mono ?_
    rintro us b ⟨rfl, rfl⟩
    exact hempty

end Declarations

theorem reads_optionalDeclarations : Reads optionalDeclarations Opens :=
  reads_optionalDeclarations_of opens_empty
    (reads_declarations_of (reads_declaration_of fun _ _ _ => opens_declarationTree)
      fun _ _ _ _ => Opens.append)

/-! ## Statements -/

theorem reads_assignment : Reads assignment (ProgramTree .statement) := by
  refine Reads.inRule (((reads_expect (by simp)).bind fun n => (reads_expect (by simp)).bind
    fun s => reads_expression.bind fun t => reads_pure _).mono ?_) _
  rintro us t ⟨_, _, n, rfl, ⟨rfl, hn⟩, _, _, s, rfl, ⟨rfl, hs⟩, vs, _, value, rfl, h, rfl, rfl⟩
  rw [List.append_nil]
  exact .assignment (by simpa using hn) (by simpa using hs) h

theorem reads_print : Reads print (ProgramTree .statement) := by
  refine Reads.inRule (((reads_expect (by simp)).bind fun w =>
    reads_expression.bind fun t => reads_pure _).mono ?_) _
  rintro us t ⟨_, _, w, rfl, ⟨rfl, hw⟩, vs, _, value, rfl, h, rfl, rfl⟩
  rw [List.append_nil]
  exact .print (by simpa using hw) h

/-- The branch against the condition, with its word, or nothing. -/
def Branch : Phrases Tree := fun us t =>
  us = [] ∧ t = .nil ∨ ∃ e vs, us = e :: vs ∧ e.kind = .elseWord ∧ ProgramTree .body vs t

variable {p : Parser TreeBuilder}

theorem reads_elseWith (h : Reads p (Built .body)) : Reads (elseWith p) Branch := by
  refine Reads.mono (Reads.bind_perhaps (reads_take? _) (reads_pure _) fun r =>
    h.bind fun b => reads_pure _) ?_
  rintro us t (⟨rfl, rfl⟩ | ⟨_, _, e, rfl, ⟨rfl, he⟩, vs, _, b, rfl, hb, rfl, rfl⟩)
  · exact .inl ⟨rfl, rfl⟩
  · rw [List.append_nil]
    exact .inr ⟨e.2, vs, rfl, by simpa using he, hb⟩

theorem reads_conditionalWith (h : Reads p (Built .body)) :
    Reads (conditionalWith p) (ProgramTree .statement) := by
  refine Reads.inRule (((reads_expect (by simp)).bind fun i => reads_expression.bind
    fun c => (reads_expect (by simp)).bind fun w => h.bind fun b => (reads_elseWith h).bind
    fun d => (reads_expect (by simp)).bind fun f => reads_pure _).mono ?_) _
  rintro us t ⟨_, _, i, rfl, ⟨rfl, hi⟩, vs, _, c, rfl, hc, _, _, w, rfl, ⟨rfl, hw⟩, ws, _, b, rfl,
    hb, _, _, d, rfl, hd, _, _, f, rfl, ⟨rfl, hf⟩, rfl, rfl⟩
  have hi : i.kind = .ifWord := by simpa using hi
  have hw : w.kind = .thenWord := by simpa using hw
  have hf : f.kind = .fiWord := by simpa using hf
  rcases hd with ⟨rfl, rfl⟩ | ⟨e, us, rfl, he, hd⟩
  · exact .conditional hi hc hw hb hf
  · exact .alternative hi hc hw hb he hd hf

theorem reads_iterativeWith (h : Reads p (Built .body)) :
    Reads (iterativeWith p) (ProgramTree .statement) := by
  refine Reads.inRule (((reads_expect (by simp)).bind fun w => reads_expression.bind
    fun c => (reads_expect (by simp)).bind fun d => h.bind fun b => (reads_expect (by simp)).bind
    fun o => reads_pure _).mono ?_) _
  rintro us t ⟨_, _, w, rfl, ⟨rfl, hw⟩, vs, _, c, rfl, hc, _, _, d, rfl, ⟨rfl, hd⟩, ws, _, b, rfl,
    hb, _, _, o, rfl, ⟨rfl, ho⟩, rfl, rfl⟩
  exact .loop (by simpa using hw) hc (by simpa using hd) hb (by simpa using ho)

/-- The tokens are a statement, and the builder grows its tree at the root. -/
def Starts : Phrases TreeBuilder := fun us b => ∃ t, ProgramTree .statement us t ∧ b = .ofTree t

theorem Starts.built {us : List Token} {b : TreeBuilder} (h : Starts us b) :
    Built .statement us b := by
  obtain ⟨t, ht, rfl⟩ := h
  exact ht

theorem reads_ofTree {p : Parser Tree} (h : Reads p (ProgramTree .statement)) :
    Reads (TreeBuilder.ofTree <$> p) Starts := by
  refine (h.map TreeBuilder.ofTree).mono ?_
  rintro us b ⟨vs, _, t, rfl, ht, rfl, rfl⟩
  rw [List.append_nil]
  exact ⟨t, ht, rfl⟩

theorem reads_statementWith (h : Reads p (Built .body)) : Reads (statementWith p) Starts := by
  refine Reads.inRule (reads_peek_bind fun k => ?_) _
  split
  · exact reads_ofTree reads_assignment
  · exact reads_ofTree (reads_conditionalWith h)
  · exact reads_ofTree (reads_iterativeWith h)
  · exact reads_ofTree reads_print
  · obtain ⟨us, t, ht⟩ := exists_statementTree
    exact reads_unexpected ⟨us, .ofTree t, t, ht, rfl⟩ _

theorem root_wrap_graft {b : TreeBuilder} {kind : NodeKind} {q : Position} {sub : TreeBuilder}
    (h : sub.root ≠ .nil) :
    ((b.wrap kind q .nil .nil).graft sub).root = .pair kind q b.root sub.root :=
  congrArg TreeBuilder.root (TreeBuilder.ofTree_unary_graft kind q b.root h)

/-- Statements are a statement, or statements wrapped with one more grafted below. -/
theorem reads_statementsWith_of (h : Reads p (Built .body)) {P : Phrases TreeBuilder}
    (hone : ∀ us b, Starts us b → P us b)
    (hmore : ∀ us s vs b next, P us b → s.kind = .semicolon → Starts vs next →
      P (us ++ s :: vs) ((b.wrap .sequence s.position .nil .nil).graft next)) :
    Reads (statementsWith p) P := by
  have hstatement := reads_statementWith h
  let S (b : TreeBuilder) : Phrases TreeBuilder := fun us b' => ∃ s vs next, us = s :: vs ∧
    s.kind = .semicolon ∧ Starts vs next ∧
      b' = (b.wrap .sequence s.position .nil .nil).graft next
  refine Reads.inRule ((hstatement.bind fun first =>
    reads_iterate (S := S) (fun b => ?_) first).mono ?_) _
  · refine Reads.mono (Reads.bind_perhaps (reads_take? _) (reads_pure none) fun r =>
      hstatement.bind fun next => reads_pure _) ?_
    rintro us b' (⟨rfl, rfl⟩ | ⟨_, _, s, rfl, ⟨rfl, hs⟩, vs, _, next, rfl, hnext, rfl, rfl⟩)
    · rfl
    · rw [List.append_nil]
      exact ⟨s.2, vs, next, rfl, by simpa using hs, hnext, rfl⟩
  · rintro us b ⟨vs, ws, first, rfl, hfirst, hrest⟩
    refine Phrases.Repeated.grow (P := P) ?_ (hone vs first hfirst) hrest
    rintro us _ b _ hb ⟨s, vs, next, rfl, hs, hnext, rfl⟩
    exact hmore us s vs b next hb hs hnext

theorem reads_statementsWith (h : Reads p (Built .body)) :
    Reads (statementsWith p) (Built .statements) := by
  refine reads_statementsWith_of h (fun us b hb => .statement hb.built) ?_
  intro us s vs b next hb hs hnext
  unfold Built
  rw [root_wrap_graft hnext.built.ne_nil]
  exact .next hb hs hnext.built

/-! ## Bodies and programs -/

theorem reads_bodyWith (h : Reads p (Built .body)) : Reads (bodyWith p) (Built .body) := by
  refine Reads.inRule ((reads_optionalDeclarations.bind fun declared =>
    (reads_statementsWith h).bind fun statements => reads_pure _).mono ?_) _
  rintro us b ⟨vs, _, declared, rfl, hdeclared, ws, _, statements, rfl, hs, rfl, rfl⟩
  rw [List.append_nil]
  exact hdeclared ws statements (.statements hs)

theorem reads_body : Reads body (Built .body) :=
  reads_fix (fun _ => exists_built_body) (fun _ hp _ => reads_bodyWith (hp ())) ()

/-- The rule for programs gives the builder of the body. -/
theorem reads_program_of {P Q : Phrases TreeBuilder} (h : Reads body P)
    (hQ : ∀ w n c us e b, w.kind = .programWord → n.kind = .identifier → c.kind = .colon →
      P us b → e.kind = .endWord → Q (w :: n :: c :: (us ++ [e])) b) : Reads program Q := by
  refine Reads.inRule (((reads_expect (by simp)).bind fun w => (reads_expect (by simp)).bind
    fun n => (reads_expect (by simp)).bind fun c => h.bind fun b =>
    (reads_expect (by simp)).bind fun e => reads_pure _).mono ?_) _
  rintro us b ⟨_, _, w, rfl, ⟨rfl, hw⟩, _, _, n, rfl, ⟨rfl, hn⟩, _, _, c, rfl, ⟨rfl, hc⟩, vs, _, b,
    rfl, hb, _, _, e, rfl, ⟨rfl, he⟩, rfl, rfl⟩
  exact hQ w n c vs e b (by simpa using hw) (by simpa using hn) (by simpa using hc) hb
    (by simpa using he)

theorem reads_program : Reads program (Built .program) :=
  reads_program_of reads_body fun _ _ _ _ _ _ => .program

end Grammar

end WhileLang
