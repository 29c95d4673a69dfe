import WhileLang.Proofs.Parsing.Parallel

/-!
# The rules run in parallel

`runAlike_program`: over tokens of the same shape, the rule for programs finds trees of the same
shape, or the same errors at the same places. Every rule is followed part by part.
-/

namespace WhileLang

namespace Grammar

open WhileLang.Parser TokenStream

variable {r r' : TokenStream}

/-! ## Expressions -/

/-- A token that is looked for and then used, or something else if it is not there. -/
theorem runAlike_take?_bind {α β γ : Type} {er : β → γ} {accepts : TokenKind → Option α}
    {f f' : Option (α × Token) → Parser β} (hfront : SameFront r r')
    (hnone : RunAlike r r' er (f none) (f' none))
    (hsome : ∀ a t t', t.shape = t'.shape →
      RunAlike r r' er (f (some (a, t))) (f' (some (a, t')))) :
    RunAlike r r' er (take? accepts >>= f) (take? accepts >>= f') := by
  refine (runAlike_take? hfront accepts).bind fun o o' h => ?_
  rcases o with _ | ⟨a, t⟩ <;> rcases o' with _ | ⟨a', t'⟩
  · exact hnone
  · cases h
  · cases h
  · simp only [takenShape, Option.map_some, Option.some.injEq, Prod.mk.injEq] at h
    obtain ⟨rfl, ht⟩ := h
    exact hsome a t t' ht

theorem runAlike_leftChain (hfront : SameFront r r') (operator? : TokenKind → Option BinaryOp)
    {p p' : Parser Tree} (h : RunAlike r r' Tree.shape p p') :
    RunAlike r r' Tree.shape (leftChain operator? p) (leftChain operator? p') := by
  refine h.bind fun first first' hfirst => ?_
  refine runAlike_iterate hfront (fun left left' hleft => ?_) hfirst
  refine runAlike_take?_bind hfront (runAlike_pure rfl) fun op t t' ht => ?_
  refine h.bind fun right right' hright => runAlike_pure ?_
  simp [hleft, hright]

theorem shape_ofName {t t' : Token} (h : t.shape = t'.shape) :
    (Tree.ofName t).shape = (Tree.ofName t').shape := by
  simp [Tree.ofName, (Token.shape_eq_iff.mp h).2]

theorem shape_ofLiteral {t t' : Token} (h : t.shape = t'.shape) :
    (Tree.ofLiteral t).shape = (Tree.ofLiteral t').shape := by
  obtain ⟨hk, hv⟩ := Token.shape_eq_iff.mp h
  unfold Tree.ofLiteral
  rw [hk]
  split <;> simp [hv]

theorem runAlike_literal (hfront : SameFront r r') : RunAlike r r' Tree.shape literal literal :=
  ((runAlike_expect hfront _).bind fun _ _ ht => runAlike_pure (shape_ofLiteral ht)).inRule _

theorem runAlike_closeParenthesis (hfront : SameFront r r') :
    RunAlike r r' (fun u : Unit => u) closeParenthesis closeParenthesis := by
  refine runAlike_peek_bind hfront fun k => ?_
  split
  · exact (runAlike_expect hfront _).bind fun _ _ _ => runAlike_pure rfl
  · split
    · exact runAlike_pure rfl
    · exact runAlike_unexpected hfront _

variable {p p' : Parser Tree}

theorem runAlike_operandWith (hfront : SameFront r r') (h : RunAlike r r' Tree.shape p p') :
    RunAlike r r' Tree.shape (operandWith p) (operandWith p') := by
  refine runAlike_peek_bind hfront fun k => ?_
  split
  any_goals exact runAlike_literal hfront
  · exact (runAlike_expect hfront _).bind fun _ _ ht => runAlike_pure (shape_ofName ht)
  · refine (runAlike_expect hfront _).bind fun _ _ _ => h.bind fun inner inner' hinner => ?_
    exact (runAlike_closeParenthesis hfront).bind fun _ _ _ => runAlike_pure hinner
  · exact runAlike_unexpected hfront _

theorem runAlike_factorWith (hfront : SameFront r r') (h : RunAlike r r' Tree.shape p p') :
    RunAlike r r' Tree.shape (factorWith p) (factorWith p') := by
  have hoperand := runAlike_operandWith hfront h
  refine (runAlike_take?_bind hfront hoperand fun _ t t' ht => ?_).inRule _
  refine hoperand.bind fun operand operand' hshape => runAlike_pure ?_
  simp [hshape]

theorem runAlike_simpleExpressionWith (hfront : SameFront r r')
    (h : RunAlike r r' Tree.shape p p') :
    RunAlike r r' Tree.shape (simpleExpressionWith p) (simpleExpressionWith p') :=
  have hterm : RunAlike r r' Tree.shape (termWith p) (termWith p') :=
    (runAlike_leftChain hfront _ (runAlike_factorWith hfront h)).inRule _
  (runAlike_leftChain hfront _ hterm).inRule _

theorem runAlike_expressionWith (hfront : SameFront r r') (h : RunAlike r r' Tree.shape p p') :
    RunAlike r r' Tree.shape (expressionWith p) (expressionWith p') := by
  have hsimple := runAlike_simpleExpressionWith hfront h
  refine (hsimple.bind fun left left' hleft => ?_).inRule _
  refine runAlike_take?_bind hfront (runAlike_pure hleft) fun op t t' ht => ?_
  refine hsimple.bind fun right right' hright => runAlike_pure ?_
  simp [hleft, hright]

theorem runAlike_expression (hfront : SameFront r r') :
    RunAlike r r' Tree.shape expression expression :=
  runAlike_fix (fun u : Unit => u) (fun _ => receding_expression)
    (fun _ _ hp _ _ _ => runAlike_expressionWith hfront (hp () () rfl)) hfront rfl

/-! ## Declarations -/

theorem shape_declarationTree {w w' n n' s s' : Token} (hw : w.shape = w'.shape)
    (hn : n.shape = n'.shape) :
    (declarationTree w n s).shape = (declarationTree w' n' s').shape := by
  simp [declarationTree, (Token.shape_eq_iff.mp hw).1, (Token.shape_eq_iff.mp hn).2]

theorem runAlike_declaration (hfront : SameFront r r') :
    RunAlike r r' TreeBuilder.shape declaration declaration := by
  refine ((runAlike_expect hfront _).bind fun w w' hw => (runAlike_expect hfront _).bind
    fun n n' hn => (runAlike_expect hfront _).bind fun s s' _ => runAlike_pure ?_).inRule _
  exact congrArg (TreeBuilder.mk · []) (shape_declarationTree hw hn)

theorem runAlike_declarations (hfront : SameFront r r') :
    RunAlike r r' TreeBuilder.shape declarations declarations := by
  have hdeclaration := runAlike_declaration hfront
  refine (hdeclaration.bind fun first first' hfirst =>
    runAlike_iterate hfront (fun b b' hb => ?_) hfirst).inRule _
  refine runAlike_peek_bind hfront fun k => ?_
  split
  · refine hdeclaration.bind fun next next' hnext => runAlike_pure ?_
    simp [TreeBuilder.shape_graft, hb, hnext]
  · exact runAlike_pure rfl

theorem runAlike_optionalDeclarations (hfront : SameFront r r') :
    RunAlike r r' TreeBuilder.shape optionalDeclarations optionalDeclarations := by
  refine runAlike_peek_bind hfront fun k => ?_
  split
  · exact runAlike_declarations hfront
  · exact runAlike_pure rfl

/-! ## Statements -/

theorem runAlike_assignment (hfront : SameFront r r') :
    RunAlike r r' Tree.shape assignment assignment := by
  refine ((runAlike_expect hfront _).bind fun n n' hn => (runAlike_expect hfront _).bind
    fun s s' _ => (runAlike_expression hfront).bind fun t t' ht => runAlike_pure ?_).inRule _
  simp [shape_ofName hn, ht]

theorem runAlike_print (hfront : SameFront r r') : RunAlike r r' Tree.shape print print := by
  refine ((runAlike_expect hfront _).bind fun w w' _ =>
    (runAlike_expression hfront).bind fun t t' ht => runAlike_pure ?_).inRule _
  simp [ht]

variable {q q' : Parser TreeBuilder}

theorem shape_root {b b' : TreeBuilder} (h : b.shape = b'.shape) :
    b.root.shape = b'.root.shape := congrArg TreeBuilder.root h

theorem runAlike_elseWith (hfront : SameFront r r') (h : RunAlike r r' TreeBuilder.shape q q') :
    RunAlike r r' Tree.shape (elseWith q) (elseWith q') :=
  runAlike_take?_bind hfront (runAlike_pure rfl) fun _ _ _ _ =>
    h.bind fun _ _ hb => runAlike_pure (shape_root hb)

theorem runAlike_conditionalWith (hfront : SameFront r r')
    (h : RunAlike r r' TreeBuilder.shape q q') :
    RunAlike r r' Tree.shape (conditionalWith q) (conditionalWith q') := by
  refine ((runAlike_expect hfront _).bind fun i i' _ => (runAlike_expression hfront).bind
    fun c c' hc => (runAlike_expect hfront _).bind fun _ _ _ => h.bind fun b b' hb =>
    (runAlike_elseWith hfront h).bind fun d d' hd => (runAlike_expect hfront _).bind
    fun _ _ _ => runAlike_pure ?_).inRule _
  simp only [Tree.shape, hc, shape_root hb, hd]

theorem runAlike_iterativeWith (hfront : SameFront r r')
    (h : RunAlike r r' TreeBuilder.shape q q') :
    RunAlike r r' Tree.shape (iterativeWith q) (iterativeWith q') := by
  refine ((runAlike_expect hfront _).bind fun w w' _ => (runAlike_expression hfront).bind
    fun c c' hc => (runAlike_expect hfront _).bind fun _ _ _ => h.bind fun b b' hb =>
    (runAlike_expect hfront _).bind fun _ _ _ => runAlike_pure ?_).inRule _
  simp [hc, shape_root hb]

theorem runAlike_ofTree {p p' : Parser Tree} (h : RunAlike r r' Tree.shape p p') :
    RunAlike r r' TreeBuilder.shape (TreeBuilder.ofTree <$> p) (TreeBuilder.ofTree <$> p') :=
  h.map _ fun _ _ ht => congrArg TreeBuilder.ofTree ht

theorem runAlike_statementWith (hfront : SameFront r r')
    (h : RunAlike r r' TreeBuilder.shape q q') :
    RunAlike r r' TreeBuilder.shape (statementWith q) (statementWith q') := by
  refine (runAlike_peek_bind hfront fun k => ?_).inRule _
  split
  · exact runAlike_ofTree (runAlike_assignment hfront)
  · exact runAlike_ofTree (runAlike_conditionalWith hfront h)
  · exact runAlike_ofTree (runAlike_iterativeWith hfront h)
  · exact runAlike_ofTree (runAlike_print hfront)
  · exact runAlike_unexpected hfront _

theorem runAlike_statementsWith (hfront : SameFront r r')
    (h : RunAlike r r' TreeBuilder.shape q q') :
    RunAlike r r' TreeBuilder.shape (statementsWith q) (statementsWith q') := by
  have hstatement := runAlike_statementWith hfront h
  refine (hstatement.bind fun first first' hfirst =>
    runAlike_iterate hfront (fun b b' hb => ?_) hfirst).inRule _
  refine runAlike_take?_bind hfront (runAlike_pure rfl) fun _ t t' _ => ?_
  refine hstatement.bind fun next next' hnext => runAlike_pure ?_
  simp [TreeBuilder.shape_graft, TreeBuilder.shape_wrap, hb, hnext]

/-! ## Bodies and programs -/

theorem runAlike_bodyWith (hfront : SameFront r r') (h : RunAlike r r' TreeBuilder.shape q q') :
    RunAlike r r' TreeBuilder.shape (bodyWith q) (bodyWith q') := by
  refine ((runAlike_optionalDeclarations hfront).bind fun d d' hd =>
    (runAlike_statementsWith hfront h).bind fun s s' hs => runAlike_pure ?_).inRule _
  rw [TreeBuilder.shape_graft, TreeBuilder.shape_graft, hd, hs]

theorem runAlike_body (hfront : SameFront r r') :
    RunAlike r r' TreeBuilder.shape body body :=
  runAlike_fix (fun u : Unit => u) (fun _ => receding_body)
    (fun _ _ hp _ _ _ => runAlike_bodyWith hfront (hp () () rfl)) hfront rfl

theorem runAlike_program (hfront : SameFront r r') :
    RunAlike r r' TreeBuilder.shape program program :=
  ((runAlike_expect hfront _).bind fun _ _ _ => (runAlike_expect hfront _).bind fun _ _ _ =>
    (runAlike_expect hfront _).bind fun _ _ _ => (runAlike_body hfront).bind fun _ _ hb =>
    (runAlike_expect hfront _).bind fun _ _ _ => runAlike_pure hb).inRule _

end Grammar

end WhileLang
