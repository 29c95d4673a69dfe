import WhileLang.Proofs.Parsing.Programs

/-!
# Tokens with a tree are parsed to it

The converse of soundness: on tokens that have a tree, in front of a token that cannot go on
with them, a rule gives that tree and leaves the rest.

* `ExpressionTree.found`, `ProgramTree.found`: what each rule does on the tokens of its part.
* `run_program_of_tree`: the rule for programs gives the tree of the tokens.
* `ProgramTree.eq_of_append`: no stream begins with two programs, and no program has two trees.

The parts that lean to the left come from loops. For these the statement is about the loop: from
the first operand, it reaches the state where it goes on from the tree.
-/

namespace WhileLang

namespace Grammar

open WhileLang.Parser TokenStream

/-! ## What can follow -/

/-- No operator of an expression. -/
def EndsExpression (k : TokenKind) : Prop := EndsSum k ∧ k.relation? = none

/-- Neither an operator nor a semicolon. -/
def EndsStatements (k : TokenKind) : Prop := EndsExpression k ∧ k ≠ .semicolon

theorem multiplicative?_additive {op : BinaryOp} (h : op.precedence = .additive) :
    op.kind.multiplicative? = none := by
  cases op <;> first | rfl | cases h

theorem endsSum_relation {op : BinaryOp} (h : op.precedence = .relation) : EndsSum op.kind := by
  cases op <;> first | exact ⟨rfl, rfl⟩ | cases h

/-! ## Chains of operators -/

/-- One round of a chain: an operator and the operand after it. -/
def chainStep (operator? : TokenKind → Option BinaryOp) (operand : Parser Tree) (left : Tree) :
    Parser (Option Tree) := do
  match ← take? operator? with
  | none => pure none
  | some (op, token) =>
    let right ← operand
    pure (some (.pair (.binary op) token.position left right))

theorem leftChain_eq (operator? : TokenKind → Option BinaryOp) (operand : Parser Tree) :
    leftChain operator? operand = operand >>= iterate (chainStep operator? operand) := rfl

variable {operator? : TokenKind → Option BinaryOp} {operand : Parser Tree}

theorem run_leftChain {s s' : TokenStream} {t : Tree} (h : run operand s = (.ok t, s')) :
    run (leftChain operator? operand) s = run (iterate (chainStep operator? operand) t) s' := by
  rw [leftChain_eq, run_bind_ok h]

theorem run_chain_more {o : Token} {op : BinaryOp} {vs : List Token} {s : TokenStream}
    {l r : Tree} (ho : operator? o.kind = some op) (hs : s.Readable)
    (h : run operand (vs ++ s) = (.ok r, s)) :
    run (iterate (chainStep operator? operand) l) (cons o (vs ++ s)) =
      run (iterate (chainStep operator? operand) (.pair (.binary op) o.position l r)) s := by
  apply run_iterate_some
  · unfold chainStep
    rw [run_bind_ok (run_take?_some ho (hs.append vs))]
    dsimp only
    rw [run_bind_ok h]
    rfl
  · rw [length_cons, length_append]
    omega

theorem run_chain_done {s : TokenStream} {k : TokenKind} {t : Tree} (hs : s.ahead? = some k)
    (hk : operator? k = none) :
    run (iterate (chainStep operator? operand) t) s = (.ok t, s) := by
  apply run_iterate_none
  unfold chainStep
  rw [run_bind_ok (run_take?_skip hs hk)]
  rfl

/-! ## Expressions -/

/-- What a rule does on the tokens of a part of an expression, with the tree of the part. -/
def ExpressionFound : ExpressionPart → List Token → Tree → Prop
  | .operand, us, t => ∀ s : TokenStream, s.Readable →
      run (operandWith expression) (us ++ s) = (.ok t, s)
  | .factor, us, t => ∀ s : TokenStream, s.Readable →
      run (factorWith expression) (us ++ s) = (.ok t, s)
  | .term, us, t => ∀ s : TokenStream, s.Readable →
      run (termWith expression) (us ++ s) =
        run (iterate (chainStep TokenKind.multiplicative? (factorWith expression)) t) s
  | .simpleExpression, us, t => ∀ (s : TokenStream) (k : TokenKind), s.ahead? = some k →
      k.multiplicative? = none →
      run (simpleExpressionWith expression) (us ++ s) =
        run (iterate (chainStep TokenKind.additive? (termWith expression)) t) s
  | .expression, us, t => ∀ (s : TokenStream) (k : TokenKind), s.ahead? = some k →
      EndsExpression k → run expression (us ++ s) = (.ok t, s)

theorem run_literal {w : Token} {s : TokenStream}
    (hw : w.kind ∈ [.trueWord, .falseWord, .number]) (hs : s.Readable) :
    run literal (cons w s) = (.ok (.ofLiteral w), s) := by
  unfold literal
  rw [run_inRule, run_bind_ok (run_expect_cons hw hs)]
  rfl

/-- The branch for the current token. -/
theorem run_operandWith {w : Token} {s : TokenStream} {k : TokenKind} (hw : w.kind = k) :
    run (operandWith expression) (cons w s) =
      run (match k with
        | .trueWord | .falseWord | .number => literal
        | .identifier => do
          let name ← expect [.identifier]
          pure (.ofName name)
        | .openParen => do
          let _ ← expect [.openParen]
          let inner ← expression
          closeParenthesis
          pure inner
        | _ => unexpected .operand) (cons w s) := by
  subst hw
  unfold operandWith
  exact run_bind_ok (run_peek (ahead?_cons w s)) _

theorem run_closeParenthesis {c : Token} {s : TokenStream} (hc : c.kind = .closeParen)
    (hs : s.Readable) : run closeParenthesis (cons c s) = (.ok (), s) := by
  unfold closeParenthesis
  rw [run_bind_ok (run_peek (ahead?_cons c s)), hc]
  dsimp only
  rw [run_bind_ok (run_expect_cons (by simp [hc]) hs)]
  rfl

/-- After an opening parenthesis, an expression and the end of the group are run. -/
theorem run_operandWith_openParen {o : Token} {s : TokenStream} (ho : o.kind = .openParen)
    (hs : s.Readable) :
    run (operandWith expression) (cons o s) =
      run (expression >>= fun inner => closeParenthesis >>= fun _ => pure inner) s := by
  rw [run_operandWith ho]
  exact run_bind_ok (run_expect_cons (by simp [ho]) hs) _

theorem run_group {o c : Token} {s rest : TokenStream} {t : Tree} (ho : o.kind = .openParen)
    (hc : c.kind = .closeParen) (hs : s.Readable) (hrest : rest.Readable)
    (h : run expression s = (.ok t, cons c rest)) :
    run (operandWith expression) (cons o s) = (.ok t, rest) := by
  rw [run_operandWith_openParen ho hs, run_bind_ok h, run_bind_ok (run_closeParenthesis hc hrest)]
  rfl

theorem run_signed {w : Token} {s rest : TokenStream} {t : Tree} (hw : w.kind ∈ signs)
    (hs : s.Readable) (h : run (operandWith expression) s = (.ok t, rest)) :
    run (factorWith expression) (cons w s) = (.ok (.unary .negation w.position t), rest) := by
  have hsign : w.kind.unary? = some () := unary?_eq_some_iff.mpr hw
  unfold factorWith
  rw [run_inRule, run_bind_ok (run_take?_some hsign hs)]
  dsimp only
  rw [run_bind_ok h]
  rfl

theorem run_relation {o : Token} {op : BinaryOp} {s s' rest : TokenStream} {l r : Tree}
    (ho : o.kind.relation? = some op) (hs' : s'.Readable)
    (hl : run (simpleExpressionWith expression) s = (.ok l, cons o s'))
    (hr : run (simpleExpressionWith expression) s' = (.ok r, rest)) :
    run expression s = (.ok (.pair (.binary op) o.position l r), rest) := by
  rw [expression_eq]
  unfold expressionWith
  rw [run_inRule, run_bind_ok hl, run_bind_ok (run_take?_some ho hs')]
  dsimp only
  rw [run_bind_ok hr]
  rfl

/-- No operand begins with a sign. -/
theorem run_unary_operand {us : List Token} {t : Tree} (h : ExpressionTree .operand us t)
    (s : TokenStream) : run (take? TokenKind.unary?) (us ++ s) = (.ok none, us ++ s) := by
  cases h with
  | number hw => exact run_take?_none _ (by rw [hw]; rfl)
  | truth hw => exact run_take?_none _ (by rcases hw with hw | hw <;> rw [hw] <;> rfl)
  | name hw => exact run_take?_none _ (by rw [hw]; rfl)
  | group ho _ _ => exact run_take?_none _ (by rw [ho]; rfl)

/-- A simple expression ends where no operator of a sum or a product follows. -/
theorem run_simpleExpressionWith {us : List Token} {t : Tree} {s : TokenStream} {k : TokenKind}
    (h : ExpressionFound .simpleExpression us t) (hs : s.ahead? = some k) (hk : EndsSum k) :
    run (simpleExpressionWith expression) (us ++ s) = (.ok t, s) := by
  rw [h s k hs hk.1, run_chain_done hs hk.2]

theorem ExpressionTree.found {part : ExpressionPart} {us : List Token} {t : Tree}
    (h : ExpressionTree part us t) : ExpressionFound part us t := by
  induction h with
  | @number w hw =>
    intro s hs
    rw [cons_append, nil_append, run_operandWith hw, run_literal (by simp [hw]) hs]
    simp [Tree.ofLiteral, hw]
  | @truth w hw =>
    intro s hs
    rw [cons_append, nil_append]
    rcases hw with hw | hw
    all_goals
      rw [run_operandWith hw, run_literal (by simp [hw]) hs]
      simp [Tree.ofLiteral, hw]
  | @name w hw =>
    intro s hs
    rw [cons_append, nil_append, run_operandWith hw]
    dsimp only
    rw [run_bind_ok (run_expect_cons (by simp [hw]) hs)]
    rfl
  | @group o c us t ho _ hc ih =>
    intro s hs
    have hclose : (cons c s).ahead? = some .closeParen := by rw [ahead?_cons, hc]
    have hinner := ih (cons c s) _ hclose ⟨⟨rfl, rfl⟩, rfl⟩
    have hreadable : (us ++ cons c s).Readable := (readable_cons c s).append us
    rw [cons_append, append_append, cons_append, nil_append]
    exact run_group ho hc hreadable hs hinner
  | plain h ih =>
    intro s hs
    unfold factorWith
    rw [run_inRule, run_bind_ok (run_unary_operand h s)]
    exact ih s hs
  | signed hsign h ih =>
    intro s hs
    rw [cons_append]
    exact run_signed hsign (hs.append _) (ih s hs)
  | factor h ih =>
    intro s hs
    unfold termWith
    rw [run_inRule, run_leftChain (ih s hs)]
  | product hl ho hop hr ihl ihr =>
    intro s hs
    rw [append_append, cons_append, ihl _ (readable_cons _ _)]
    exact run_chain_more ((operatorOf?_eq_some_iff .multiplicative).mpr ⟨ho, hop⟩) hs (ihr s hs)
  | term h ih =>
    intro s k hs hk
    unfold simpleExpressionWith
    rw [run_inRule]
    apply run_leftChain
    rw [ih s (readable_of_ahead? hs), run_chain_done hs hk]
  | @sum o op us vs l r hl ho hop hr ihl ihr =>
    intro s k hs hk
    have hmul : o.kind.multiplicative? = none := by rw [ho, multiplicative?_additive hop]
    rw [append_append, cons_append, ihl _ _ (ahead?_cons _ _) hmul]
    apply run_chain_more ((operatorOf?_eq_some_iff .additive).mpr ⟨ho, hop⟩) (readable_of_ahead? hs)
    rw [ihr s (readable_of_ahead? hs), run_chain_done hs hk]
  | simple h ih =>
    intro s k hs hk
    rw [expression_eq]
    unfold expressionWith
    rw [run_inRule, run_bind_ok (run_simpleExpressionWith ih hs hk.1),
      run_bind_ok (run_take?_skip hs hk.2)]
    rfl
  | @relation o op us vs l r hl ho hop hr ihl ihr =>
    intro s k hs hk
    have hend : EndsSum o.kind := ho ▸ endsSum_relation hop
    have hrelation : o.kind.relation? = some op :=
      (operatorOf?_eq_some_iff .relation).mpr ⟨ho, hop⟩
    have hreadable : (vs ++ s).Readable := (readable_of_ahead? hs).append vs
    have hleft := run_simpleExpressionWith ihl (ahead?_cons o (vs ++ s)) hend
    have hright := run_simpleExpressionWith ihr hs hk.1
    rw [append_append, cons_append]
    exact run_relation hrelation hreadable hleft hright

/-! ## Statements -/

/-- One round of the statements: a semicolon and the statement after it. -/
def statementStep (p : Parser TreeBuilder) (tree : TreeBuilder) : Parser (Option TreeBuilder) := do
  match ← take? (fun k => if k = .semicolon then some () else none) with
  | none => pure none
  | some (_, semicolon) =>
    let next ← statementWith p
    pure (some ((tree.wrap .sequence semicolon.position .nil .nil).graft next))

theorem statementsWith_eq (p : Parser TreeBuilder) :
    statementsWith p = inRule .statements (statementWith p >>= iterate (statementStep p)) := rfl

/-- One round of the declarations. -/
def declarationStep (tree : TreeBuilder) : Parser (Option TreeBuilder) := do
  if (← peek) ∈ typeWords then
    let next ← declaration
    pure (some (tree.graft next))
  else
    pure none

theorem declarations_eq :
    declarations = inRule .declarations (declaration >>= iterate declarationStep) := rfl

/-- The rest of a body after its first declarations. -/
def bodyAfter (tree : TreeBuilder) : Parser TreeBuilder := do
  let declared ← iterate declarationStep tree
  let statements ← statementsWith body
  pure (declared.graft statements)

/-- What a rule does on the tokens of a part of a program, with the tree of the part. -/
def ProgramFound : ProgramPart → List Token → Tree → Prop
  | .statement, us, t => ∀ (s : TokenStream) (k : TokenKind), s.ahead? = some k →
      EndsExpression k → ∃ b, b.root = t ∧ run (statementWith body) (us ++ s) = (.ok b, s)
  | .statements, us, t => ∀ (s : TokenStream) (k : TokenKind), s.ahead? = some k →
      EndsExpression k → ∃ b, b.root = t ∧
        run (statementsWith body) (us ++ s) = run (iterate (statementStep body) b) s
  | .body, us, t => ∀ (s : TokenStream) (k : TokenKind), s.ahead? = some k →
      EndsStatements k → ∃ b, b.root = t ∧ run body (us ++ s) = (.ok b, s) ∧
        ∀ a, run (bodyAfter a) (us ++ s) = (.ok (a.graft b), s)
  | .program, us, t => ∀ s : TokenStream, s.Readable →
      ∃ b, b.root = t ∧ run program (us ++ s) = (.ok b, s)

/-- The branch for the current token. -/
theorem run_statementWith {p : Parser TreeBuilder} {w : Token} {s : TokenStream} {k : TokenKind}
    (hw : w.kind = k) :
    run (statementWith p) (cons w s) =
      run (match k with
        | .identifier => TreeBuilder.ofTree <$> assignment
        | .ifWord => TreeBuilder.ofTree <$> conditionalWith p
        | .whileWord => TreeBuilder.ofTree <$> iterativeWith p
        | .printWord => TreeBuilder.ofTree <$> print
        | _ => unexpected .statement) (cons w s) := by
  subst hw
  unfold statementWith
  rw [run_inRule]
  exact run_bind_ok (run_peek (ahead?_cons w s)) _

theorem run_ofTree {p : Parser Tree} {s s' : TokenStream} {t : Tree}
    (h : run p s = (.ok t, s')) :
    ∃ b, b.root = t ∧ run (TreeBuilder.ofTree <$> p) s = (.ok b, s') :=
  ⟨.ofTree t, rfl, by rw [run_map, h]⟩

/-- The words that begin a statement. -/
def statementWords : List TokenKind := [.identifier, .ifWord, .whileWord, .printWord]

theorem ProgramTree.exists_word {part : ProgramPart} {us : List Token} {t : Tree}
    (h : ProgramTree part us t) (hpart : part = .statement ∨ part = .statements) :
    ∃ w vs, us = w :: vs ∧ w.kind ∈ statementWords := by
  induction h with
  | program | statements | declaration => simp at hpart
  | statement _ ih => exact ih (.inl rfl)
  | next _ _ _ ih _ =>
    obtain ⟨w, vs, rfl, hw⟩ := ih (.inr rfl)
    exact ⟨w, _, rfl, hw⟩
  | assignment hn => exact ⟨_, _, rfl, by simp [statementWords, hn]⟩
  | conditional hi => exact ⟨_, _, rfl, by simp [statementWords, hi]⟩
  | alternative hi => exact ⟨_, _, rfl, by simp [statementWords, hi]⟩
  | loop hw => exact ⟨_, _, rfl, by simp [statementWords, hw]⟩
  | print hw => exact ⟨_, _, rfl, by simp [statementWords, hw]⟩

/-- Statements are no declaration. -/
theorem notMem_typeWords {k : TokenKind} (h : k ∈ statementWords) : k ∉ typeWords := by
  simp only [statementWords, List.mem_cons, List.not_mem_nil, or_false] at h
  rcases h with rfl | rfl | rfl | rfl <;> decide

theorem run_expect_one {k : TokenKind} {t : Token} {s : TokenStream} (h : t.kind = k)
    (hs : s.Readable) : run (expect [k]) (cons t s) = (.ok t, s) :=
  run_expect_cons (by simp [h]) hs

theorem run_declaration {w n s : Token} {rest : TokenStream} (hw : w.kind ∈ typeWords)
    (hn : n.kind = .identifier) (hs : s.kind = .semicolon) (hrest : rest.Readable) :
    run declaration (cons w (cons n (cons s rest))) =
      (.ok (.ofTree (declarationTree w n s)), rest) := by
  unfold declaration
  rw [run_inRule, run_bind_ok (run_expect_cons hw (readable_cons _ _)),
    run_bind_ok (run_expect_one hn (readable_cons _ _)), run_bind_ok (run_expect_one hs hrest)]
  rfl

theorem run_statements_more {s : Token} {vs : List Token} {rest : TokenStream}
    {b next : TreeBuilder} (hs : s.kind = .semicolon) (hrest : rest.Readable)
    (h : run (statementWith body) (vs ++ rest) = (.ok next, rest)) :
    run (iterate (statementStep body) b) (cons s (vs ++ rest)) =
      run (iterate (statementStep body)
        ((b.wrap .sequence s.position .nil .nil).graft next)) rest := by
  apply run_iterate_some
  · unfold statementStep
    rw [run_bind_ok (run_take?_some (a := ()) (by simp [hs]) (hrest.append vs))]
    dsimp only
    rw [run_bind_ok h]
    rfl
  · rw [length_cons, length_append]
    omega

theorem run_statements_done {s : TokenStream} {k : TokenKind} {b : TreeBuilder}
    (hs : s.ahead? = some k) (hk : k ≠ .semicolon) :
    run (iterate (statementStep body) b) s = (.ok b, s) := by
  apply run_iterate_none
  unfold statementStep
  rw [run_bind_ok (run_take?_skip hs (by simp [hk]))]
  rfl

theorem run_declarations_more {w n s : Token} {rest : TokenStream} {a : TreeBuilder}
    (hw : w.kind ∈ typeWords) (hn : n.kind = .identifier) (hs : s.kind = .semicolon)
    (hrest : rest.Readable) :
    run (iterate declarationStep a) (cons w (cons n (cons s rest))) =
      run (iterate declarationStep (a.graft (.ofTree (declarationTree w n s)))) rest := by
  apply run_iterate_some
  · unfold declarationStep
    rw [run_bind_ok (run_peek (ahead?_cons w _)), if_pos hw,
      run_bind_ok (run_declaration hw hn hs hrest)]
    rfl
  · simp only [length_cons]
    omega

theorem run_declarations_done {s : TokenStream} {k : TokenKind} {a : TreeBuilder}
    (hs : s.ahead? = some k) (hk : k ∉ typeWords) :
    run (iterate declarationStep a) s = (.ok a, s) := by
  apply run_iterate_none
  unfold declarationStep
  rw [run_bind_ok (run_peek hs), if_neg hk]
  rfl

/-- A declaration and the rest of a body are a body. -/
theorem run_body_declaration {w n s : Token} {rest : TokenStream} (hw : w.kind ∈ typeWords)
    (hn : n.kind = .identifier) (hs : s.kind = .semicolon) (hrest : rest.Readable) :
    run body (cons w (cons n (cons s rest))) =
      run (bodyAfter (.ofTree (declarationTree w n s))) rest := by
  have hdeclared : run optionalDeclarations (cons w (cons n (cons s rest))) =
      run (iterate declarationStep (.ofTree (declarationTree w n s))) rest := by
    unfold optionalDeclarations
    rw [run_bind_ok (run_peek (ahead?_cons w _)), if_pos hw, declarations_eq, run_inRule,
      run_bind_ok (run_declaration hw hn hs hrest)]
  rw [body_eq]
  unfold bodyWith bodyAfter
  rw [run_inRule, run_bind, run_bind, hdeclared]

/-- Statements are a body, and the rest of one. -/
theorem run_body_statements {s rest : TokenStream} {k : TokenKind} {b : TreeBuilder}
    (hs : s.ahead? = some k) (hk : k ∉ typeWords)
    (h : run (statementsWith body) s = (.ok b, rest)) (hb : b.root ≠ .nil) (a : TreeBuilder) :
    run body s = (.ok b, rest) ∧ run (bodyAfter a) s = (.ok (a.graft b), rest) := by
  constructor
  · have hdeclared : run optionalDeclarations s = (.ok .empty, s) := by
      unfold optionalDeclarations
      rw [run_bind_ok (run_peek hs), if_neg hk]
      rfl
    rw [body_eq]
    unfold bodyWith
    rw [run_inRule, run_bind_ok hdeclared, run_bind_ok h, TreeBuilder.root_eq_nil_graft rfl hb]
    rfl
  · unfold bodyAfter
    rw [run_bind_ok (run_declarations_done hs hk), run_bind_ok h]
    rfl

theorem run_elseWith_none {s : TokenStream} {k : TokenKind} (hs : s.ahead? = some k)
    (hk : k ≠ .elseWord) : run (elseWith body) s = (.ok .nil, s) := by
  unfold elseWith
  rw [run_bind_ok (run_take?_skip hs (by simp [hk]))]
  rfl

theorem run_elseWith_some {e : Token} {s rest : TokenStream} {b : TreeBuilder}
    (he : e.kind = .elseWord) (hs : s.Readable) (h : run body s = (.ok b, rest)) :
    run (elseWith body) (cons e s) = (.ok b.root, rest) := by
  unfold elseWith
  rw [run_bind_ok (run_take?_some (a := ()) (by simp [he]) hs)]
  dsimp only
  rw [run_bind_ok h]
  rfl

/-! ## One rule after the other -/

section

variable {s s' s'' rest : TokenStream} {c d : Tree} {b : TreeBuilder}

theorem run_assignment {n e : Token} (hn : n.kind = .identifier) (he : e.kind = .assign)
    (hs : s.Readable) (hc : run expression s = (.ok c, rest)) :
    run assignment (cons n (cons e s)) =
      (.ok (.pair .assignment e.position (.ofName n) c), rest) := by
  unfold Grammar.assignment
  rw [run_inRule, run_bind_ok (run_expect_one hn (readable_cons _ _)),
    run_bind_ok (run_expect_one he hs), run_bind_ok hc]
  rfl

theorem run_print {w : Token} (hw : w.kind = .printWord) (hs : s.Readable)
    (hc : run expression s = (.ok c, rest)) :
    run print (cons w s) = (.ok (.unary .print w.position c), rest) := by
  unfold Grammar.print
  rw [run_inRule, run_bind_ok (run_expect_one hw hs), run_bind_ok hc]
  rfl

theorem run_conditional {i w f : Token} (hi : i.kind = .ifWord) (hw : w.kind = .thenWord)
    (hf : f.kind = .fiWord) (hs : s.Readable) (hs' : s'.Readable) (hrest : rest.Readable)
    (hc : run expression s = (.ok c, cons w s')) (hb : run body s' = (.ok b, s''))
    (hd : run (elseWith body) s'' = (.ok d, cons f rest)) :
    run (conditionalWith body) (cons i s) =
      (.ok (.node .conditional i.position c b.root d), rest) := by
  unfold conditionalWith
  rw [run_inRule, run_bind_ok (run_expect_one hi hs), run_bind_ok hc,
    run_bind_ok (run_expect_one hw hs'), run_bind_ok hb, run_bind_ok hd,
    run_bind_ok (run_expect_one hf hrest)]
  rfl

theorem run_loop {w o e : Token} (hw : w.kind = .whileWord) (ho : o.kind = .doWord)
    (he : e.kind = .odWord) (hs : s.Readable) (hs' : s'.Readable) (hrest : rest.Readable)
    (hc : run expression s = (.ok c, cons o s')) (hb : run body s' = (.ok b, cons e rest)) :
    run (iterativeWith body) (cons w s) = (.ok (.pair .loop w.position c b.root), rest) := by
  unfold iterativeWith
  rw [run_inRule, run_bind_ok (run_expect_one hw hs), run_bind_ok hc,
    run_bind_ok (run_expect_one ho hs'), run_bind_ok hb, run_bind_ok (run_expect_one he hrest)]
  rfl

theorem run_program {w n o e : Token} (hw : w.kind = .programWord)
    (hn : n.kind = .identifier) (ho : o.kind = .colon) (he : e.kind = .endWord)
    (hs : s.Readable) (hrest : rest.Readable) (hb : run body s = (.ok b, cons e rest)) :
    run program (cons w (cons n (cons o s))) = (.ok b, rest) := by
  unfold Grammar.program
  rw [run_inRule, run_bind_ok (run_expect_one hw (readable_cons _ _)),
    run_bind_ok (run_expect_one hn (readable_cons _ _)), run_bind_ok (run_expect_one ho hs),
    run_bind_ok hb, run_bind_ok (run_expect_one he hrest)]
  rfl

end

theorem ProgramTree.found {part : ProgramPart} {us : List Token} {t : Tree}
    (h : ProgramTree part us t) : ProgramFound part us t := by
  induction h with
  | @program w n c e us t hw hn hc h he ih =>
    intro s hs
    have hend : (cons e s).ahead? = some .endWord := by rw [ahead?_cons, he]
    obtain ⟨b, hroot, hb, -⟩ := ih _ _ hend ⟨⟨⟨rfl, rfl⟩, rfl⟩, nofun⟩
    have hreadable : (us ++ cons e s).Readable := (readable_cons e s).append us
    simp only [cons_append, append_append, nil_append]
    exact ⟨b, hroot, run_program hw hn hc he hreadable hs hb⟩
  | statements h ih =>
    intro s k hs hk
    obtain ⟨b, hroot, hb⟩ := ih s k hs hk.1
    rw [run_statements_done hs hk.2] at hb
    obtain ⟨w, vs, rfl, hw⟩ := h.exists_word (.inr rfl)
    have hbody := run_body_statements (ahead?_cons w _) (notMem_typeWords hw) hb
      (hroot ▸ h.ne_nil)
    exact ⟨b, hroot, (hbody .empty).1, fun a => (hbody a).2⟩
  | @declaration w n s us t hw hn hs h ih =>
    intro rest k hrest hk
    obtain ⟨b, hroot, -, hb⟩ := ih rest k hrest hk
    have hreadable : (us ++ rest).Readable := (readable_of_ahead? hrest).append us
    have hw := mem_typeWords_iff.mpr hw
    refine ⟨(TreeBuilder.ofTree (declarationTree w n s)).graft b, ?_, ?_, fun a => ?_⟩
    · rw [root_declarationTree_graft w n s (hroot ▸ h.ne_nil), hroot]
    · simp only [cons_append]
      rw [run_body_declaration hw hn hs hreadable, hb]
    · have hmore := run_declarations_more (a := a) hw hn hs hreadable
      have hafter := hb (a.graft (.ofTree (declarationTree w n s)))
      simp only [cons_append]
      unfold bodyAfter at hafter ⊢
      rw [run_bind, hmore, ← run_bind, hafter, TreeBuilder.graft_assoc]
  | statement h ih =>
    intro s k hs hk
    obtain ⟨b, hroot, hb⟩ := ih s k hs hk
    refine ⟨b, hroot, ?_⟩
    rw [statementsWith_eq, run_inRule, run_bind_ok hb]
  | @next s us vs l r hl hs hr ihl ihr =>
    intro rest k hrest hk
    have hsemicolon : (cons s (vs ++ rest)).ahead? = some .semicolon := by rw [ahead?_cons, hs]
    obtain ⟨b, hroot, hb⟩ := ihl _ _ hsemicolon ⟨⟨rfl, rfl⟩, rfl⟩
    obtain ⟨c, hcroot, hc⟩ := ihr rest k hrest hk
    refine ⟨(b.wrap .sequence s.position .nil .nil).graft c, ?_, ?_⟩
    · rw [root_wrap_graft (hcroot ▸ hr.ne_nil), hroot, hcroot]
    · rw [append_append, cons_append, hb,
        run_statements_more hs (readable_of_ahead? hrest) hc]
  | @assignment n s us t hn hs h =>
    intro rest k hrest hk
    have hreadable : (us ++ rest).Readable := (readable_of_ahead? hrest).append us
    simp only [cons_append]
    rw [run_statementWith hn]
    exact run_ofTree (run_assignment hn hs hreadable (h.found rest k hrest hk))
  | @conditional i w f us vs c b hi hc hw hb hf ih =>
    intro rest k hrest hk
    have hthen : (cons w (vs ++ cons f rest)).ahead? = some .thenWord := by
      rw [ahead?_cons, hw]
    have hfi : (cons f rest).ahead? = some .fiWord := by rw [ahead?_cons, hf]
    have hcondition := hc.found _ _ hthen ⟨⟨rfl, rfl⟩, rfl⟩
    obtain ⟨branch, rfl, hbranch, -⟩ := ih _ _ hfi ⟨⟨⟨rfl, rfl⟩, rfl⟩, nofun⟩
    have hbodyReadable : (vs ++ cons f rest).Readable := (readable_cons f rest).append vs
    have hconditionReadable := (readable_cons w (vs ++ cons f rest)).append us
    simp only [cons_append, append_append, nil_append]
    rw [run_statementWith hi]
    exact run_ofTree (run_conditional hi hw hf hconditionReadable hbodyReadable
      (readable_of_ahead? hrest) hcondition hbranch (run_elseWith_none hfi nofun))
  | @alternative i w e f us vs ws c b d hi hc hw hb he hd hf ihb ihd =>
    intro rest k hrest hk
    have hthen : (cons w (vs ++ cons e (ws ++ cons f rest))).ahead? = some .thenWord := by
      rw [ahead?_cons, hw]
    have helse : (cons e (ws ++ cons f rest)).ahead? = some .elseWord := by rw [ahead?_cons, he]
    have hfi : (cons f rest).ahead? = some .fiWord := by rw [ahead?_cons, hf]
    have hcondition := hc.found _ _ hthen ⟨⟨rfl, rfl⟩, rfl⟩
    obtain ⟨branch, rfl, hbranch, -⟩ := ihb _ _ helse ⟨⟨⟨rfl, rfl⟩, rfl⟩, nofun⟩
    obtain ⟨otherwise, rfl, hotherwise, -⟩ := ihd _ _ hfi ⟨⟨⟨rfl, rfl⟩, rfl⟩, nofun⟩
    have helseReadable : (ws ++ cons f rest).Readable := (readable_cons f rest).append ws
    have hbodyReadable := (readable_cons e (ws ++ cons f rest)).append vs
    have hconditionReadable := (readable_cons w (vs ++ cons e (ws ++ cons f rest))).append us
    simp only [cons_append, append_append, nil_append]
    rw [run_statementWith hi]
    exact run_ofTree (run_conditional hi hw hf hconditionReadable hbodyReadable
      (readable_of_ahead? hrest) hcondition hbranch (run_elseWith_some he helseReadable hotherwise))
  | @loop w d o us vs c b hw hc hd hb ho ih =>
    intro rest k hrest hk
    have hdo : (cons d (vs ++ cons o rest)).ahead? = some .doWord := by rw [ahead?_cons, hd]
    have hod : (cons o rest).ahead? = some .odWord := by rw [ahead?_cons, ho]
    have hcondition := hc.found _ _ hdo ⟨⟨rfl, rfl⟩, rfl⟩
    obtain ⟨repeated, rfl, hrepeated, -⟩ := ih _ _ hod ⟨⟨⟨rfl, rfl⟩, rfl⟩, nofun⟩
    have hbodyReadable : (vs ++ cons o rest).Readable := (readable_cons o rest).append vs
    have hconditionReadable := (readable_cons d (vs ++ cons o rest)).append us
    simp only [cons_append, append_append, nil_append]
    rw [run_statementWith hw]
    exact run_ofTree (run_loop hw hd ho hconditionReadable hbodyReadable
      (readable_of_ahead? hrest) hcondition hrepeated)
  | @print w us t hw h =>
    intro rest k hrest hk
    have hreadable : (us ++ rest).Readable := (readable_of_ahead? hrest).append us
    simp only [cons_append]
    rw [run_statementWith hw]
    exact run_ofTree (run_print hw hreadable (h.found rest k hrest hk))

/-! ## Programs -/

/-- The rule for programs gives the tree of the tokens, whatever follows. -/
theorem run_program_of_tree {us : List Token} {t : Tree} (h : ProgramTree .program us t)
    {s : TokenStream} (hs : s.Readable) :
    ∃ b, b.root = t ∧ run program (us ++ s) = (.ok b, s) := h.found s hs

/-- A stream begins with at most one program, and this has one tree. -/
theorem ProgramTree.eq_of_append {us us' : List Token} {t t' : Tree} {s s' : TokenStream}
    (h : ProgramTree .program us t) (h' : ProgramTree .program us' t') (hs : s.Readable)
    (hs' : s'.Readable) (heq : us ++ s = us' ++ s') : t = t' ∧ s = s' := by
  obtain ⟨b, rfl, hb⟩ := run_program_of_tree h hs
  obtain ⟨b', rfl, hb'⟩ := run_program_of_tree h' hs'
  rw [heq, hb'] at hb
  cases hb
  exact ⟨rfl, rfl⟩

end Grammar

end WhileLang
