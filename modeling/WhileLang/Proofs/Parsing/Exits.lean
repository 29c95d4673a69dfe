import WhileLang.Proofs.Parsing.Reading

/-!
# What can follow an expression

No operator of a sum or a product can follow an expression (`exits_expression`), since the loops
for sums and products go on as long as there is one. This holds whatever rule is used for the
expressions in parentheses (`exits_expressionWith`), so it needs no induction on the nesting.
-/

namespace WhileLang

open WhileLang.Parser TokenStream

namespace Parser

theorem Exits.inRule {α : Type} {S : TokenKind → Prop} {p : Parser α} (h : Exits S p)
    (rule : RuleName) : Exits S (p.inRule rule) := by
  intro s a rest hrun
  rw [run_inRule] at hrun
  exact h s a rest hrun

/-- The rule of a loop: what holds where a round begins holds where the next one does, and a
round that adds nothing ends it. -/
theorem run_iterate_induction {α : Type} {step : α → Parser (Option α)}
    {I Q : TokenStream → Prop}
    (hmore : ∀ a s a' rest, I s → run (step a) s = (.ok (some a'), rest) → I rest)
    (hdone : ∀ a s rest, I s → run (step a) s = (.ok none, rest) → Q rest)
    {a b : α} {s rest : TokenStream} (hs : I s) (h : run (iterate step a) s = (.ok b, rest)) :
    Q rest := by
  generalize hn : s.length = n
  induction n using Nat.strongRecOn generalizing a s with
  | ind n ih =>
    rcases exists_of_run_iterate h with hnone | ⟨a', s', hsome, hlt, h⟩
    · exact hdone a s rest hs hnone
    · exact ih s'.length (hn ▸ hlt) (hmore a s a' s' hs hsome) h rfl

/-- A token that is not taken is not accepted. -/
theorem not_accepted_of_run_take? {α : Type} {accepts : TokenKind → Option α}
    (hend : accepts .endOfText = none) {s rest : TokenStream}
    (h : run (take? accepts) s = (.ok none, rest)) :
    rest = s ∧ ∀ k, s.ahead? = some k → accepts k = none := by
  rcases s.eq_ended_or_cons with he | ⟨t, s', rfl⟩
  · rw [he, run_take?_ended] at h
    cases h
    refine ⟨he.symm, ?_⟩
    intro k hk
    rw [he] at hk
    generalize s.ending = e at hk
    cases e with
    | endOfText p => exact Option.some.inj hk ▸ hend
    | failure e => cases hk
  · cases ha : accepts t.kind with
    | none =>
      rw [run_take?_none s' ha] at h
      cases h
      exact ⟨rfl, fun k hk => Option.some.inj hk ▸ ha⟩
    | some a =>
      cases hhead : s'.head with
      | error e => rw [run_take?_failure ha hhead] at h; cases h
      | ok t' => rw [run_take?_some ha ⟨t', hhead⟩] at h; cases h

end Parser

namespace Grammar

theorem exits_leftChain {operator? : TokenKind → Option BinaryOp} {operand : Parser Tree}
    {S : TokenKind → Prop} (hend : operator? .endOfText = none) (h : Exits S operand) :
    Exits (fun k => S k ∧ operator? k = none) (leftChain operator? operand) := by
  intro s a rest hrun
  obtain ⟨first, s', hfirst, hrun⟩ := exists_of_run_bind hrun
  refine run_iterate_induction (I := fun s => ∀ k, s.ahead? = some k → S k)
    (Q := fun s => ∀ k, s.ahead? = some k → S k ∧ operator? k = none) ?_ ?_
    (h _ _ _ hfirst) hrun
  · intro left s left' rest _ hstep
    obtain ⟨r, s', hr, hstep⟩ := exists_of_run_bind hstep
    cases r with
    | none => cases hstep
    | some r =>
      obtain ⟨right, s'', hright, hstep⟩ := exists_of_run_bind hstep
      cases hstep
      exact h _ _ _ hright
  · intro left s rest hs hstep
    obtain ⟨r, s', hr, hstep⟩ := exists_of_run_bind hstep
    cases r with
    | none =>
      cases hstep
      obtain ⟨rfl, hnone⟩ := not_accepted_of_run_take? hend hr
      exact fun k hk => ⟨hs k hk, hnone k hk⟩
    | some r =>
      obtain ⟨right, s'', -, hstep⟩ := exists_of_run_bind hstep
      cases hstep

/-- No operator of a sum or a product. -/
def EndsSum (k : TokenKind) : Prop := k.multiplicative? = none ∧ k.additive? = none

theorem exits_simpleExpressionWith (p : Parser Tree) :
    Exits EndsSum (simpleExpressionWith p) := by
  have hfactor : Exits (fun _ => True) (factorWith p) := fun _ _ _ _ _ _ => trivial
  have hterm : Exits (fun k => True ∧ k.multiplicative? = none) (termWith p) :=
    (exits_leftChain rfl hfactor).inRule _
  intro s a rest h k hk
  obtain ⟨⟨-, hm⟩, ha⟩ := (exits_leftChain rfl hterm).inRule .simpleExpression s a rest h k hk
  exact ⟨hm, ha⟩

/-- Whatever rule is used for the expressions in parentheses, an expression is not followed by an
operator of a sum or a product. -/
theorem exits_expressionWith (p : Parser Tree) : Exits EndsSum (expressionWith p) := by
  refine Exits.inRule ?_ _
  intro s a rest h
  obtain ⟨left, s', hleft, h⟩ := exists_of_run_bind h
  obtain ⟨r, s'', hr, h⟩ := exists_of_run_bind h
  cases r with
  | none =>
    cases h
    obtain ⟨rfl, -⟩ := not_accepted_of_run_take? rfl hr
    exact exits_simpleExpressionWith p _ _ _ hleft
  | some r =>
    obtain ⟨right, s₁, hright, h⟩ := exists_of_run_bind h
    cases h
    exact exits_simpleExpressionWith p _ _ _ hright

theorem exits_expression : Exits EndsSum expression := by
  rw [expression_eq]
  exact exits_expressionWith expression

end Grammar

end WhileLang
