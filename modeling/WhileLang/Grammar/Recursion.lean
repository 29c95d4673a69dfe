import WhileLang.Grammar.Program

/-!
# The recursive rules satisfy their equations

`Parser.fix` lets a recursive rule call itself only after a token was consumed. The rules of the
grammar never call themselves otherwise, so they satisfy the equations one would write down for
them:

* `Grammar.expression_eq`: an expression is `expressionWith` of expressions;
* `Grammar.body_eq`: a body is `bodyWith` of bodies.

Two facts about parsers lead there. No parser makes the stream longer (`Receding`), and a rule
that consumes a token first depends on the rule it is given only on shorter streams (`Agree`).
-/

namespace WhileLang

namespace Parser

variable {α β : Type}

/-! ## Parsers never lengthen the stream -/

/-- Whatever the parser does, it leaves a stream that is not longer. -/
def Receding (p : Parser α) : Prop := ∀ tracing s, (p tracing s).rest.length ≤ s.length

/-- Where the parser succeeds, it leaves a shorter stream. -/
def Consuming (p : Parser α) : Prop :=
  ∀ tracing s a, (p tracing s).result = .ok a → (p tracing s).rest.length < s.length

theorem receding_pure (a : α) : Receding (pure a : Parser α) := fun _ s => Nat.le_refl s.length

theorem Receding.bind {p : Parser α} {f : α → Parser β} (hp : Receding p)
    (hf : ∀ a, Receding (f a)) : Receding (p >>= f) := by
  intro tracing s
  have h := hp tracing s
  change (andThen p f tracing s).rest.length ≤ s.length
  unfold andThen
  split
  · next e rest events he =>
    rw [he] at h
    exact h
  · next a rest events ha =>
    rw [ha] at h
    exact Nat.le_trans (hf a tracing rest) h

theorem Receding.map {p : Parser α} (f : α → β) (h : Receding p) : Receding (f <$> p) :=
  h.bind fun a => receding_pure (f a)

theorem receding_peek : Receding peek := by
  intro _ s
  unfold peek
  split <;> exact Nat.le_refl _

theorem receding_unexpected (e : Expected) : Receding (unexpected e : Parser α) := by
  intro _ s
  unfold unexpected
  split <;> exact Nat.le_refl _

theorem take?_rest_length (accepts : TokenKind → Option α) (tracing : Tracing) (s : TokenStream) :
    (∃ r, (take? accepts tracing s).result = .ok (some r) ∧
        (take? accepts tracing s).rest.length < s.length) ∨
      (∀ r, (take? accepts tracing s).result ≠ .ok (some r)) ∧
        (take? accepts tracing s).rest = s := by
  obtain ⟨_ | ⟨t, ts⟩, ending, _, rfl⟩ := s
  · right
    simp [take?]
  · simp only [take?]
    split
    · right
      simp
    · split
      · right
        simp
      · left
        exact ⟨_, rfl, by simp [TokenStream.tail]⟩

theorem receding_take? (accepts : TokenKind → Option α) : Receding (take? accepts) := by
  intro tracing s
  rcases take?_rest_length accepts tracing s with ⟨_, _, h⟩ | ⟨_, h⟩
  · exact Nat.le_of_lt h
  · exact Nat.le_of_eq (congrArg TokenStream.length h)

theorem receding_expect (kinds : List TokenKind) : Receding (expect kinds) := by
  refine (receding_take? _).bind fun r => ?_
  cases r with
  | none => exact receding_unexpected _
  | some r => exact receding_pure r.2

theorem Receding.inRule {p : Parser α} (rule : RuleName) (hp : Receding p) :
    Receding (p.inRule rule) := by
  intro tracing s
  have h := hp tracing s
  unfold Parser.inRule
  dsimp only
  split
  all_goals
    next he =>
      rw [he] at h
      exact h

theorem Receding.ite {c : Prop} [Decidable c] {p q : Parser α} (hp : Receding p)
    (hq : Receding q) : Receding (if c then p else q) := by
  split
  · exact hp
  · exact hq

/-- A recursive parser lengthens nothing if its body does not, given parsers that do not. -/
theorem receding_fix {body : (β → Parser α) → β → Parser α}
    (hbody : ∀ p, (∀ b, Receding (p b)) → ∀ b, Receding (body p b)) (b : β) :
    Receding (fix body b) := by
  intro tracing s
  generalize hn : s.length = n
  induction n using Nat.strongRecOn generalizing b tracing s with
  | ind n ih =>
    rw [fix, ← hn]
    refine hbody _ (fun b' tracing' s' => ?_) b tracing s
    split
    · next hlt => exact ih s'.length (hn ▸ hlt) b' tracing' s' rfl
    · exact receding_unexpected _ tracing' s'

theorem receding_iterate {step : α → Parser (Option α)} (hstep : ∀ a, Receding (step a)) (a : α) :
    Receding (iterate step a) := by
  refine receding_fix (fun again hagain a => (hstep a).bind fun r => ?_) a
  cases r with
  | none => exact receding_pure a
  | some a' => exact hagain a'

/-! ## Parsers that agree on short streams -/

/-- The parsers do the same on streams of fewer than `n` tokens. -/
def Agree (n : Nat) (p q : Parser α) : Prop :=
  ∀ tracing s, s.length < n → p tracing s = q tracing s

theorem Agree.refl (n : Nat) (p : Parser α) : Agree n p p := fun _ _ _ => rfl

theorem Agree.bind {n : Nat} {p q : Parser α} {f g : α → Parser β} (hpq : Agree n p q)
    (hq : Receding q) (hfg : ∀ a, Agree n (f a) (g a)) : Agree n (p >>= f) (q >>= g) := by
  intro tracing s hs
  have h := hq tracing s
  change andThen p f tracing s = andThen q g tracing s
  unfold andThen
  rw [hpq tracing s hs]
  split
  · rfl
  · next a rest events ha =>
    rw [ha] at h
    rw [hfg a tracing rest (Nat.lt_of_le_of_lt h hs)]

theorem Agree.map {n : Nat} {p q : Parser α} (f : α → β) (h : Agree n p q) (hq : Receding q) :
    Agree n (f <$> p) (f <$> q) := h.bind hq fun a => Agree.refl n (pure (f a))

/-- After a parser that consumes a token, agreement on shorter streams is enough. -/
theorem Agree.bind_consuming {n : Nat} {p : Parser α} {f g : α → Parser β} (hp : Consuming p)
    (hfg : ∀ a, Agree n (f a) (g a)) : Agree (n + 1) (p >>= f) (p >>= g) := by
  intro tracing s hs
  have h := hp tracing s
  change andThen p f tracing s = andThen p g tracing s
  unfold andThen
  split
  · rfl
  · next a rest events ha =>
    rw [ha] at h
    have hlt : rest.length < s.length := h a rfl
    rw [hfg a tracing rest (by omega)]

theorem Agree.inRule {n : Nat} {p q : Parser α} (rule : RuleName) (h : Agree n p q) :
    Agree n (p.inRule rule) (q.inRule rule) := by
  intro tracing s hs
  unfold Parser.inRule
  rw [h tracing s hs]

theorem agree_iterate {n : Nat} {step step' : α → Parser (Option α)}
    (hstep : ∀ a, Agree n (step a) (step' a)) (hrec : ∀ a, Receding (step' a)) (a : α) :
    Agree n (iterate step a) (iterate step' a) := by
  intro tracing s
  generalize hm : s.length = m
  intro hs
  induction m using Nat.strongRecOn generalizing a tracing s with
  | ind m ih =>
    change fix _ a tracing s = fix _ a tracing s
    rw [fix, fix]
    refine Agree.bind (n := s.length + 1) (fun tracing' s' hs' => ?_) (hrec a)
      (fun r tracing' s' hs' => ?_) tracing s (Nat.lt_succ_self _)
    · exact hstep a tracing' s' (by omega)
    · cases r with
      | none => rfl
      | some a' =>
        dsimp only
        split
        · next hlt => exact ih s'.length (hm ▸ hlt) a' tracing' s' rfl (by omega)
        · rfl

theorem consuming_expect (kinds : List TokenKind) : Consuming (expect kinds) := by
  intro tracing s a h
  change (andThen _ _ tracing s).rest.length < s.length
  change (andThen _ _ tracing s).result = .ok a at h
  unfold andThen at h ⊢
  rcases take?_rest_length (fun k => if k ∈ kinds then some () else none) tracing s with
    ⟨r, hr, hlt⟩ | ⟨hne, hrest⟩
  · split at h
    · next he =>
      rw [he] at hr
      cases hr
    · next b rest events hb =>
      rw [hb] at hr hlt
      cases hr
      exact hlt
  · split at h
    · cases h
    · next b rest events hb =>
      cases b with
      | none =>
        dsimp only [unexpected] at h
        split at h <;> cases h
      | some r =>
        rw [hb] at hne
        exact absurd rfl (hne r)

/-! ## The equation of a recursive parser -/

/-- A recursive parser satisfies its equation if its body lengthens nothing and depends on the
parser it is given only on shorter streams. -/
theorem fix_eq {body : (β → Parser α) → β → Parser α}
    (hrec : ∀ p, (∀ b, Receding (p b)) → ∀ b, Receding (body p b))
    (hagree : ∀ n p q, (∀ b, Receding (p b)) → (∀ b, Receding (q b)) →
      (∀ b, Agree n (p b) (q b)) → ∀ b, Agree (n + 1) (body p b) (body q b)) :
    fix body = body (fix body) := by
  funext b tracing s
  rw [fix]
  refine hagree s.length _ _ (fun b' tracing' s' => ?_) (receding_fix hrec)
    (fun b' tracing' s' hs' => ?_) b tracing s (Nat.lt_succ_self _)
  · split
    · exact receding_fix hrec b' tracing' s'
    · exact receding_unexpected _ tracing' s'
  · rw [if_pos hs']

end Parser

namespace Grammar

open WhileLang.Parser

/-! ## Expressions -/

theorem receding_leftChain {operator? : TokenKind → Option BinaryOp} {operand : Parser Tree}
    (h : Receding operand) : Receding (leftChain operator? operand) := by
  refine h.bind fun first => receding_iterate (fun left => ?_) first
  refine (receding_take? _).bind fun r => ?_
  cases r with
  | none => exact receding_pure none
  | some r => exact h.bind fun right => receding_pure _

theorem agree_leftChain {n : Nat} {operator? : TokenKind → Option BinaryOp} {p q : Parser Tree}
    (h : Agree n p q) (hq : Receding q) :
    Agree n (leftChain operator? p) (leftChain operator? q) := by
  refine h.bind hq fun first => agree_iterate (fun left => ?_) (fun left => ?_) first
  · refine (Agree.refl n _).bind (receding_take? _) fun r => ?_
    cases r with
    | none => exact Agree.refl n _
    | some r => exact h.bind hq fun right => Agree.refl n _
  · refine (receding_take? _).bind fun r => ?_
    cases r with
    | none => exact receding_pure none
    | some r => exact hq.bind fun right => receding_pure _

theorem receding_literal : Receding literal :=
  Receding.inRule _ ((receding_expect _).bind fun _ => receding_pure _)

theorem receding_closeParenthesis : Receding closeParenthesis := by
  refine receding_peek.bind fun kind => ?_
  split
  · exact (receding_expect _).bind fun _ => receding_pure ()
  · exact (receding_pure ()).ite (receding_unexpected _)

theorem receding_operandWith {p : Parser Tree} (h : Receding p) : Receding (operandWith p) := by
  refine receding_peek.bind fun kind => ?_
  split
  any_goals exact receding_literal
  · exact (receding_expect _).bind fun _ => receding_pure _
  · exact (receding_expect _).bind fun _ =>
      h.bind fun _ => receding_closeParenthesis.bind fun _ => receding_pure _
  · exact receding_unexpected _

/-- An operand depends on the expression in parentheses only after the opening parenthesis. -/
theorem agree_operandWith {n : Nat} {p q : Parser Tree} (h : Agree n p q) (hq : Receding q) :
    Agree (n + 1) (operandWith p) (operandWith q) := by
  refine (Agree.refl (n + 1) _).bind receding_peek fun kind => ?_
  split
  any_goals exact Agree.refl (n + 1) _
  exact Agree.bind_consuming (consuming_expect _) fun _ => h.bind hq fun _ => Agree.refl n _

theorem receding_factorWith {p : Parser Tree} (h : Receding p) : Receding (factorWith p) := by
  refine Receding.inRule _ ((receding_take? _).bind fun r => ?_)
  cases r with
  | none => exact receding_operandWith h
  | some r => exact (receding_operandWith h).bind fun _ => receding_pure _

theorem agree_factorWith {n : Nat} {p q : Parser Tree} (h : Agree n p q) (hq : Receding q) :
    Agree (n + 1) (factorWith p) (factorWith q) := by
  refine Agree.inRule _ ((Agree.refl (n + 1) _).bind (receding_take? _) fun r => ?_)
  cases r with
  | none => exact agree_operandWith h hq
  | some r =>
    exact (agree_operandWith h hq).bind (receding_operandWith hq) fun _ => Agree.refl (n + 1) _

theorem receding_termWith {p : Parser Tree} (h : Receding p) : Receding (termWith p) :=
  Receding.inRule _ (receding_leftChain (receding_factorWith h))

theorem agree_termWith {n : Nat} {p q : Parser Tree} (h : Agree n p q) (hq : Receding q) :
    Agree (n + 1) (termWith p) (termWith q) :=
  Agree.inRule _ (agree_leftChain (agree_factorWith h hq) (receding_factorWith hq))

theorem receding_simpleExpressionWith {p : Parser Tree} (h : Receding p) :
    Receding (simpleExpressionWith p) :=
  Receding.inRule _ (receding_leftChain (receding_termWith h))

theorem agree_simpleExpressionWith {n : Nat} {p q : Parser Tree} (h : Agree n p q)
    (hq : Receding q) : Agree (n + 1) (simpleExpressionWith p) (simpleExpressionWith q) :=
  Agree.inRule _ (agree_leftChain (agree_termWith h hq) (receding_termWith hq))

theorem receding_expressionWith {p : Parser Tree} (h : Receding p) :
    Receding (expressionWith p) := by
  refine Receding.inRule _ ((receding_simpleExpressionWith h).bind fun left =>
    (receding_take? _).bind fun r => ?_)
  cases r with
  | none => exact receding_pure left
  | some r => exact (receding_simpleExpressionWith h).bind fun _ => receding_pure _

theorem agree_expressionWith {n : Nat} {p q : Parser Tree} (h : Agree n p q) (hq : Receding q) :
    Agree (n + 1) (expressionWith p) (expressionWith q) := by
  have hsimple := agree_simpleExpressionWith h hq
  have hrec := receding_simpleExpressionWith hq
  refine Agree.inRule _ (hsimple.bind hrec fun left =>
    (Agree.refl (n + 1) _).bind (receding_take? _) fun r => ?_)
  cases r with
  | none => exact Agree.refl (n + 1) _
  | some r => exact hsimple.bind hrec fun _ => Agree.refl (n + 1) _

theorem receding_expression : Receding expression :=
  receding_fix (fun _ h _ => receding_expressionWith (h ())) ()

theorem expression_eq : expression = expressionWith expression :=
  congrFun
    (fix_eq (fun _ h _ => receding_expressionWith (h ()))
      (fun _ _ _ _ hq h _ => agree_expressionWith (h ()) (hq ())))
    ()

/-! ## Bodies -/

theorem receding_declaration : Receding declaration :=
  Receding.inRule _ ((receding_expect _).bind fun _ => (receding_expect _).bind fun _ =>
    (receding_expect _).bind fun _ => receding_pure _)

theorem receding_declarations : Receding declarations :=
  Receding.inRule _ (receding_declaration.bind fun first =>
    receding_iterate
      (fun _ => receding_peek.bind fun _ =>
        (receding_declaration.bind fun _ => receding_pure _).ite (receding_pure none))
      first)

theorem receding_optionalDeclarations : Receding optionalDeclarations :=
  receding_peek.bind fun _ => receding_declarations.ite (receding_pure _)

theorem receding_assignment : Receding assignment :=
  Receding.inRule _ ((receding_expect _).bind fun _ => (receding_expect _).bind fun _ =>
    receding_expression.bind fun _ => receding_pure _)

theorem receding_print : Receding print :=
  Receding.inRule _ ((receding_expect _).bind fun _ =>
    receding_expression.bind fun _ => receding_pure _)

theorem receding_elseWith {p : Parser TreeBuilder} (h : Receding p) : Receding (elseWith p) := by
  refine (receding_take? _).bind fun r => ?_
  cases r with
  | none => exact receding_pure _
  | some r => exact h.bind fun _ => receding_pure _

theorem receding_conditionalWith {p : Parser TreeBuilder} (h : Receding p) :
    Receding (conditionalWith p) :=
  Receding.inRule _ ((receding_expect _).bind fun _ => receding_expression.bind fun _ =>
    (receding_expect _).bind fun _ => h.bind fun _ => (receding_elseWith h).bind fun _ =>
      (receding_expect _).bind fun _ => receding_pure _)

theorem receding_iterativeWith {p : Parser TreeBuilder} (h : Receding p) :
    Receding (iterativeWith p) :=
  Receding.inRule _ ((receding_expect _).bind fun _ => receding_expression.bind fun _ =>
    (receding_expect _).bind fun _ => h.bind fun _ =>
      (receding_expect _).bind fun _ => receding_pure _)

theorem agree_elseWith {n : Nat} {p q : Parser TreeBuilder} (h : Agree n p q) (hq : Receding q) :
    Agree n (elseWith p) (elseWith q) := by
  refine (Agree.refl n _).bind (receding_take? _) fun r => ?_
  cases r with
  | none => exact Agree.refl n _
  | some r => exact h.bind hq fun _ => Agree.refl n _

/-- A conditional depends on the bodies inside it only after its first word. -/
theorem agree_conditionalWith {n : Nat} {p q : Parser TreeBuilder} (h : Agree n p q)
    (hq : Receding q) : Agree (n + 1) (conditionalWith p) (conditionalWith q) :=
  Agree.inRule _ (Agree.bind_consuming (consuming_expect _) fun _ =>
    (Agree.refl n _).bind receding_expression fun _ =>
      (Agree.refl n _).bind (receding_expect _) fun _ =>
        h.bind hq fun _ => (agree_elseWith h hq).bind (receding_elseWith hq) fun _ =>
          Agree.refl n _)

theorem agree_iterativeWith {n : Nat} {p q : Parser TreeBuilder} (h : Agree n p q)
    (hq : Receding q) : Agree (n + 1) (iterativeWith p) (iterativeWith q) :=
  Agree.inRule _ (Agree.bind_consuming (consuming_expect _) fun _ =>
    (Agree.refl n _).bind receding_expression fun _ =>
      (Agree.refl n _).bind (receding_expect _) fun _ => h.bind hq fun _ => Agree.refl n _)

theorem receding_statementWith {p : Parser TreeBuilder} (h : Receding p) :
    Receding (statementWith p) := by
  refine Receding.inRule _ (receding_peek.bind fun kind => ?_)
  split
  · exact Receding.map _ receding_assignment
  · exact Receding.map _ (receding_conditionalWith h)
  · exact Receding.map _ (receding_iterativeWith h)
  · exact Receding.map _ receding_print
  · exact receding_unexpected _

theorem agree_statementWith {n : Nat} {p q : Parser TreeBuilder} (h : Agree n p q)
    (hq : Receding q) : Agree (n + 1) (statementWith p) (statementWith q) := by
  refine Agree.inRule _ ((Agree.refl (n + 1) _).bind receding_peek fun kind => ?_)
  split
  · exact Agree.refl (n + 1) _
  · exact Agree.map _ (agree_conditionalWith h hq) (receding_conditionalWith hq)
  · exact Agree.map _ (agree_iterativeWith h hq) (receding_iterativeWith hq)
  · exact Agree.refl (n + 1) _
  · exact Agree.refl (n + 1) _

theorem receding_statementsWith {p : Parser TreeBuilder} (h : Receding p) :
    Receding (statementsWith p) := by
  refine Receding.inRule _ ((receding_statementWith h).bind fun first =>
    receding_iterate (fun tree => (receding_take? _).bind fun r => ?_) first)
  cases r with
  | none => exact receding_pure none
  | some r => exact (receding_statementWith h).bind fun _ => receding_pure _

theorem agree_statementsWith {n : Nat} {p q : Parser TreeBuilder} (h : Agree n p q)
    (hq : Receding q) : Agree (n + 1) (statementsWith p) (statementsWith q) := by
  have hstatement := agree_statementWith h hq
  have hrec := receding_statementWith hq
  refine Agree.inRule _ (hstatement.bind hrec fun first =>
    agree_iterate (fun tree => ?_) (fun tree => ?_) first)
  · refine (Agree.refl (n + 1) _).bind (receding_take? _) fun r => ?_
    cases r with
    | none => exact Agree.refl (n + 1) _
    | some r => exact hstatement.bind hrec fun _ => Agree.refl (n + 1) _
  · refine (receding_take? _).bind fun r => ?_
    cases r with
    | none => exact receding_pure none
    | some r => exact hrec.bind fun _ => receding_pure _

theorem receding_bodyWith {p : Parser TreeBuilder} (h : Receding p) : Receding (bodyWith p) :=
  Receding.inRule _ (receding_optionalDeclarations.bind fun _ =>
    (receding_statementsWith h).bind fun _ => receding_pure _)

theorem agree_bodyWith {n : Nat} {p q : Parser TreeBuilder} (h : Agree n p q)
    (hq : Receding q) : Agree (n + 1) (bodyWith p) (bodyWith q) :=
  Agree.inRule _ ((Agree.refl (n + 1) _).bind receding_optionalDeclarations fun _ =>
    (agree_statementsWith h hq).bind (receding_statementsWith hq) fun _ => Agree.refl (n + 1) _)

theorem receding_body : Receding body :=
  receding_fix (fun _ h _ => receding_bodyWith (h ())) ()

theorem body_eq : body = bodyWith body :=
  congrFun
    (fix_eq (fun _ h _ => receding_bodyWith (h ()))
      (fun _ _ _ _ hq h _ => agree_bodyWith (h ()) (hq ())))
    ()

end Grammar

end WhileLang
