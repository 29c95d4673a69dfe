import WhileLang.Proofs.Language.Trees
import WhileLang.Proofs.Parsing.Exits

/-!
# What the rules for expressions read

`reads_expression`: the rule for expressions reads the phrases that `ExpressionTree` describes.

The one place that needs more than the phrases of its parts is the end of an expression in
parentheses: `closeParenthesis` also lets an operator pass, without consuming it. No such
operator can follow an expression.
-/

namespace WhileLang

namespace Grammar

open WhileLang.Parser TokenStream

/-! ## Operators -/

/-- The operator of a level that a token kind stands for. -/
def operatorOf? : Precedence → TokenKind → Option BinaryOp
  | .relation => TokenKind.relation?
  | .additive => TokenKind.additive?
  | .multiplicative => TokenKind.multiplicative?

theorem operatorOf?_eq_some_iff (level : Precedence) {k : TokenKind} {op : BinaryOp} :
    operatorOf? level k = some op ↔ k = op.kind ∧ op.precedence = level := by
  constructor
  · intro h
    cases level <;> cases k <;> simp only [operatorOf?, TokenKind.relation?, TokenKind.additive?,
      TokenKind.multiplicative?, reduceCtorEq, Option.some.injEq] at h
    all_goals
      subst h
      exact ⟨rfl, rfl⟩
  · rintro ⟨rfl, rfl⟩
    cases op <;> rfl

theorem unary?_eq_some_iff {k : TokenKind} {u : Unit} : k.unary? = some u ↔ k ∈ signs := by
  cases k <;> simp [TokenKind.unary?, signs]

/-! ## Operands -/

theorem expressionTree_ofLiteral {w : Token} (h : w.kind ∈ [.trueWord, .falseWord, .number]) :
    ExpressionTree .operand [w] (.ofLiteral w) := by
  obtain ⟨kind, value, p⟩ := w
  simp only [List.mem_cons, List.not_mem_nil, or_false] at h
  rcases h with rfl | rfl | rfl
  · exact .truth (.inl rfl)
  · exact .truth (.inr rfl)
  · exact .number rfl

theorem reads_literal : Reads literal (ExpressionTree .operand) := by
  refine Reads.inRule (((reads_expect (by simp)).bind fun w => reads_pure _).mono ?_) _
  rintro us t ⟨_, _, w, rfl, ⟨rfl, hw⟩, rfl, rfl⟩
  exact expressionTree_ofLiteral hw

theorem eq_closeParen_of_mem {k : TokenKind} (h : k ∈ afterParenthesised) (hk : EndsSum k) :
    k = .closeParen := by
  simp only [afterParenthesised, List.mem_cons, List.not_mem_nil, or_false] at h
  rcases h with rfl | rfl | rfl | rfl | rfl | rfl | rfl
  · rfl
  all_goals exact absurd hk (by simp [EndsSum, TokenKind.multiplicative?, TokenKind.additive?])

/-- The closing parenthesis of a group. -/
def Closing : Phrases Unit := fun us _ => ∃ c : Token, us = [c] ∧ c.kind = .closeParen

theorem exists_closing : ∃ us u, Closing us u :=
  ⟨[.ofKind .closeParen .start], (), _, rfl, rfl⟩

/-- Where an expression has ended, only a closing parenthesis closes a group. -/
theorem ran_closeParenthesis {s : TokenStream} {k : TokenKind} (hs : s.ahead? = some k)
    (hk : EndsSum k) : Ran Closing s (run closeParenthesis s) := by
  unfold closeParenthesis
  rw [run_bind_ok (run_peek hs)]
  split
  · refine (((reads_expect (by simp)).bind fun _ => reads_pure ()).mono ?_).ran s
      (readable_of_ahead? hs)
    rintro us u ⟨_, _, c, rfl, ⟨rfl, hc⟩, rfl, -⟩
    exact ⟨c, rfl, by simpa using hc⟩
  · next hne =>
    have hmem : k ∉ afterParenthesised := fun h => hne (eq_closeParen_of_mem h hk)
    rw [if_neg hmem]
    exact (reads_unexpected exists_closing _).ran s (readable_of_ahead? hs)

theorem reads_operandWith {p : Parser Tree} (h : Reads p (ExpressionTree .expression))
    (hexit : Exits EndsSum p) : Reads (operandWith p) (ExpressionTree .operand) := by
  refine reads_peek_bind fun k => ?_
  split
  any_goals exact reads_literal
  · refine ((reads_expect (by simp)).bind fun w => reads_pure _).mono ?_
    rintro us t ⟨_, _, w, rfl, ⟨rfl, hw⟩, rfl, rfl⟩
    exact .name (by simpa using hw)
  · have hinner : Reads (p >>= fun inner => closeParenthesis >>= fun _ => pure inner)
        (Phrases.andThen (ExpressionTree .expression) fun t =>
          Closing.andThen fun _ => .nothing t) := by
      refine h.bind_after (fun t => ?_) fun s t rest hrun hrest => ?_
      · obtain ⟨us, u, hu⟩ := exists_closing
        exact ⟨us ++ [], t, us, [], u, rfl, hu, rfl, rfl⟩
      · obtain ⟨c, hc⟩ := hrest
        have hahead := ahead?_of_head hc
        exact (ran_closeParenthesis hahead (hexit s t rest hrun _ hahead)).bind
          (fun _ => ⟨[], t, rfl, rfl⟩) fun _ rest _ hrest => (reads_pure t).ran rest hrest
    refine ((reads_expect (by simp)).bind fun o => hinner).mono ?_
    rintro us t ⟨_, _, o, rfl, ⟨rfl, ho⟩, vs, _, _, rfl, ht, _, _, _, rfl, ⟨c, rfl, hc⟩, rfl, rfl⟩
    exact .group (by simpa using ho) ht hc
  · exact reads_unexpected ⟨_, _, .number (w := ⟨.number, "", .start⟩) rfl⟩ _

/-! ## Factors, terms and sums -/

theorem reads_factorWith {p : Parser Tree} (h : Reads p (ExpressionTree .expression))
    (hexit : Exits EndsSum p) : Reads (factorWith p) (ExpressionTree .factor) := by
  have hoperand := reads_operandWith h hexit
  refine Reads.inRule (((reads_take? _).bind_perhaps hoperand fun s =>
    hoperand.bind fun t => reads_pure _).mono ?_) _
  rintro us t (ht | ⟨_, _, s, rfl, ⟨rfl, hs⟩, vs, _, operand, rfl, ht, rfl, rfl⟩)
  · exact .plain ht
  · rw [List.append_nil]
    exact .signed (unary?_eq_some_iff.mp hs) ht

/-- An operator and the operand after it, which go on from the tree on their left. -/
def Operation (operator? : TokenKind → Option BinaryOp) (D : Phrases Tree) (l : Tree) :
    Phrases Tree := fun us t => ∃ (o : Token) (op : BinaryOp) (vs : List Token) (r : Tree),
  us = o :: vs ∧ operator? o.kind = some op ∧ D vs r ∧ t = .pair (.binary op) o.position l r

theorem reads_leftChain {operator? : TokenKind → Option BinaryOp} {operand : Parser Tree}
    {D : Phrases Tree} (h : Reads operand D) :
    Reads (leftChain operator? operand)
      (D.andThen (Phrases.Repeated (Operation operator? D))) := by
  refine h.bind fun first => reads_iterate (fun l => ?_) first
  refine Reads.mono (Reads.bind_perhaps (reads_take? _) (reads_pure none) fun r =>
    h.bind fun t => reads_pure _) ?_
  rintro us t (⟨rfl, rfl⟩ | ⟨_, _, r, rfl, ⟨rfl, hop⟩, vs, _, right, rfl, hright, rfl, rfl⟩)
  · rfl
  · rw [List.append_nil]
    exact ⟨r.2, r.1, vs, right, rfl, hop, hright, rfl⟩

theorem reads_termWith {p : Parser Tree} (h : Reads p (ExpressionTree .expression))
    (hexit : Exits EndsSum p) : Reads (termWith p) (ExpressionTree .term) := by
  refine Reads.inRule ((reads_leftChain (reads_factorWith h hexit)).mono ?_) _
  rintro us t ⟨vs, ws, first, rfl, hfirst, hmore⟩
  refine Phrases.Repeated.grow (P := ExpressionTree .term) ?_ (.factor hfirst) hmore
  rintro us _ l _ hl ⟨o, op, vs, r, rfl, ho, hr, rfl⟩
  obtain ⟨ho, hop⟩ := (operatorOf?_eq_some_iff .multiplicative).mp ho
  exact .product hl ho hop hr

theorem reads_simpleExpressionWith {p : Parser Tree} (h : Reads p (ExpressionTree .expression))
    (hexit : Exits EndsSum p) :
    Reads (simpleExpressionWith p) (ExpressionTree .simpleExpression) := by
  refine Reads.inRule ((reads_leftChain (reads_termWith h hexit)).mono ?_) _
  rintro us t ⟨vs, ws, first, rfl, hfirst, hmore⟩
  refine Phrases.Repeated.grow (P := ExpressionTree .simpleExpression) ?_ (.term hfirst) hmore
  rintro us _ l _ hl ⟨o, op, vs, r, rfl, ho, hr, rfl⟩
  obtain ⟨ho, hop⟩ := (operatorOf?_eq_some_iff .additive).mp ho
  exact .sum hl ho hop hr

/-! ## Expressions -/

theorem reads_expressionWith {p : Parser Tree} (h : Reads p (ExpressionTree .expression))
    (hexit : Exits EndsSum p) : Reads (expressionWith p) (ExpressionTree .expression) := by
  have hsimple := reads_simpleExpressionWith h hexit
  refine Reads.inRule ((hsimple.bind fun l => (reads_take? _).bind_perhaps (reads_pure l) fun r =>
    hsimple.bind fun t => reads_pure _).mono ?_) _
  rintro us t ⟨us, _, l, rfl, hl, ⟨rfl, rfl⟩ | ⟨_, _, r, rfl, ⟨rfl, ho⟩, vs, _, right, rfl, hright,
    rfl, rfl⟩⟩
  · rw [List.append_nil]
    exact .simple hl
  · obtain ⟨ho, hop⟩ := (operatorOf?_eq_some_iff .relation).mp ho
    rw [List.append_nil]
    exact .relation hl ho hop hright

theorem exists_expressionTree : ∃ us t, ExpressionTree .expression us t :=
  ⟨[⟨.number, "", .start⟩], _, .simple (.term (.factor (.plain (.number rfl))))⟩

theorem reads_expression : Reads expression (ExpressionTree .expression) :=
  reads_fix_of_exits (fun _ => exists_expressionTree) (fun p _ => exits_expressionWith (p ()))
    (fun _ hp hexit _ => reads_expressionWith (hp ()) (hexit ())) ()

end Grammar

end WhileLang
