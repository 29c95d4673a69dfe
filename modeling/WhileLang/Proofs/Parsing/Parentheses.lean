import WhileLang.Proofs.Parsing.Completeness
import WhileLang.Proofs.Tracing.Toggles

/-!
# Parentheses

An expression in parentheses may end where an operator follows: the rule for its end accepts one,
and leaves it to the rules around. This never lets a parenthesis stay open. Where an expression
has ended there is no operator of a sum or a product, since the loops for these have passed over all
of them, so only a closing parenthesis is accepted there (`run_closeParenthesis_iff`). Hence the
tokens that an expression consumes have their parentheses in pairs, one pair inside the other or
after it (`ExpressionTree.paired`).
-/

namespace WhileLang

namespace Grammar

open WhileLang.Parser TokenStream

/-! ## Pairs of parentheses -/

/-- Every opening parenthesis has a closing one of its own, and between the two of them as well as
behind them the parentheses are paired again. -/
inductive Paired : List Token → Prop where
  | nil : Paired []
  | other {w : Token} {us : List Token} (hopen : w.kind ≠ .openParen)
      (hclose : w.kind ≠ .closeParen) (h : Paired us) : Paired (w :: us)
  | pair {o c : Token} {us vs : List Token} (ho : o.kind = .openParen) (h : Paired us)
      (hc : c.kind = .closeParen) (hlater : Paired vs) : Paired (o :: (us ++ c :: vs))

namespace Paired

theorem append {us vs : List Token} (hus : Paired us) (hvs : Paired vs) : Paired (us ++ vs) := by
  induction hus with
  | nil => exact hvs
  | other hopen hclose _ ih => exact .other hopen hclose ih
  | pair ho h hc _ _ ih =>
    rw [List.cons_append, List.append_assoc, List.cons_append]
    exact .pair ho h hc ih

theorem singleton {w : Token} (hopen : w.kind ≠ .openParen) (hclose : w.kind ≠ .closeParen) :
    Paired [w] := .other hopen hclose .nil

theorem group {o c : Token} {us : List Token} (ho : o.kind = .openParen) (h : Paired us)
    (hc : c.kind = .closeParen) : Paired (o :: (us ++ [c])) := .pair ho h hc .nil

/-- No operator is a parenthesis. -/
theorem operation {o : Token} {op : BinaryOp} {us vs : List Token} (hus : Paired us)
    (ho : o.kind = op.kind) (hvs : Paired vs) : Paired (us ++ o :: vs) := by
  apply hus.append
  apply Paired.other
  · rw [ho]
    cases op <;> decide
  · rw [ho]
    cases op <;> decide
  · exact hvs

end Paired

theorem ExpressionTree.paired {part : ExpressionPart} {us : List Token} {t : Tree}
    (h : ExpressionTree part us t) : Paired us := by
  induction h with
  | number hw | name hw => exact .singleton (by simp [hw]) (by simp [hw])
  | truth hw => rcases hw with hw | hw <;> exact .singleton (by simp [hw]) (by simp [hw])
  | group ho _ hc ih => exact .group ho ih hc
  | signed hs _ ih =>
    simp only [signs, List.mem_cons, List.not_mem_nil, or_false] at hs
    rcases hs with hs | hs <;> exact .other (by simp [hs]) (by simp [hs]) ih
  | plain _ ih | factor _ ih | term _ ih | simple _ ih => exact ih
  | product _ ho _ _ ihl ihr | sum _ ho _ _ ihl ihr | relation _ ho _ _ ihl ihr =>
    exact ihl.operation ho ihr

/-! ## The end of an expression -/

theorem notMem_of_endsSum {k : TokenKind} (h : EndsSum k) : k ∉ additives ++ multiplicatives := by
  obtain ⟨hproduct, hsum⟩ := h
  intro hk
  rcases List.mem_append.mp hk with hk | hk
  · obtain ⟨op, rfl, hop⟩ := Precedence.exists_operator (p := .additive) hk
    have hsome := (operatorOf?_eq_some_iff .additive).mpr ⟨rfl, hop⟩
    cases hsum.symm.trans hsome
  · obtain ⟨op, rfl, hop⟩ := Precedence.exists_operator (p := .multiplicative) hk
    have hsome := (operatorOf?_eq_some_iff .multiplicative).mpr ⟨rfl, hop⟩
    cases hproduct.symm.trans hsome

variable {s rest : TokenStream} {t : Tree}

theorem readable_of_run_expression (h : run expression s = (.ok t, rest)) : s.Readable := by
  cases hhead : s.head with
  | error e =>
    rw [expression_eq, eq_failure_of_head hhead] at h
    cases h
  | ok w => exact ⟨w, hhead⟩

/-- What an expression has consumed, and the token that it stops at. -/
theorem exists_of_run_expression (h : run expression s = (.ok t, rest)) :
    ∃ us next, s = us ++ rest ∧ ExpressionTree .expression us t ∧ rest.head = .ok next ∧
      EndsSum next.kind := by
  have hran := reads_expression.ran s (readable_of_run_expression h)
  rw [h] at hran
  cases hran with
  | @success us _ _ hs hrest htree =>
    obtain ⟨next, hnext⟩ := hrest
    exact ⟨us, next, hs, htree, hnext, exits_expression s t rest h _ (ahead?_of_head hnext)⟩

/-! ## The end of a group -/

theorem run_closeParenthesis_iff (h : run expression s = (.ok t, rest)) (rest' : TokenStream) :
    run closeParenthesis rest = (.ok (), rest') ↔
      ∃ c, c.kind = .closeParen ∧ rest = cons c rest' ∧ rest'.Readable := by
  obtain ⟨-, next, -, -, hnext, hends⟩ := exists_of_run_expression h
  constructor
  · intro hclose
    have hran := ran_closeParenthesis (ahead?_of_head hnext) hends
    rw [hclose] at hran
    cases hran with
    | success hs hrest hus =>
      obtain ⟨c, rfl, hc⟩ := hus
      exact ⟨c, hc, hs, hrest⟩
  · rintro ⟨c, hc, rfl, hrest⟩
    exact run_closeParenthesis hc hrest

theorem run_group_iff (h : run expression s = (.ok t, rest)) {o : Token}
    (ho : o.kind = .openParen) (t' : Tree) (rest' : TokenStream) :
    run (operandWith expression) (cons o s) = (.ok t', rest') ↔
      t' = t ∧ run closeParenthesis rest = (.ok (), rest') := by
  rw [run_operandWith_openParen ho (readable_of_run_expression h), run_bind_ok h]
  constructor
  · intro hgroup
    obtain ⟨_, _, hclose, hpure⟩ := exists_of_run_bind hgroup
    cases hpure
    exact ⟨rfl, hclose⟩
  · rintro ⟨rfl, hclose⟩
    rw [run_bind_ok hclose]
    rfl

/-- **Only a closing parenthesis closes a group.** Wherever an expression ends, on whatever stream,
the current token is no operator of a sum or a product. So the end of a group succeeds there exactly
by consuming a closing parenthesis, and so does the operand that began with an opening one before
the expression. In the tokens that the expression has consumed the parentheses are paired. -/
theorem paired_of_run_expression (tracing : Tracing)
    (h : (expression tracing s).quiet = (.ok t, rest)) :
    (∃ next, rest.head = .ok next ∧ next.kind ∉ additives ++ multiplicatives) ∧
      (∀ rest', (closeParenthesis tracing rest).quiet = (.ok (), rest') ↔
        ∃ c, c.kind = .closeParen ∧ rest = cons c rest' ∧ rest'.Readable) ∧
      (∀ (o : Token) (t' : Tree) (rest' : TokenStream), o.kind = .openParen →
        ((operandWith expression tracing (cons o s)).quiet = (.ok t', rest') ↔
          t' = t ∧ ∃ c, c.kind = .closeParen ∧ rest = cons c rest' ∧ rest'.Readable)) ∧
      ∃ us, s = us ++ rest ∧ Paired us := by
  rw [inert_expression.quiet_eq] at h
  obtain ⟨us, next, hs, htree, hnext, hends⟩ := exists_of_run_expression h
  have hclose : ∀ rest', (closeParenthesis tracing rest).quiet = (.ok (), rest') ↔
      ∃ c, c.kind = .closeParen ∧ rest = cons c rest' ∧ rest'.Readable := by
    intro rest'
    rw [inert_closeParenthesis.quiet_eq, run_closeParenthesis_iff h]
  refine ⟨⟨next, hnext, notMem_of_endsSum hends⟩, hclose, ?_, ⟨us, hs, htree.paired⟩⟩
  intro o t' rest' ho
  rw [(inert_operandWith inert_expression).quiet_eq, run_group_iff h ho,
    run_closeParenthesis_iff h]

/-- A number in two pairs of parentheses, before a product. The expression is in the outer pair. -/
theorem paired_of_run_expression_nested :
    let us : List Token := [.ofKind .openParen ⟨1, 2⟩, ⟨.number, "2", ⟨1, 3⟩⟩,
      .ofKind .closeParen ⟨1, 4⟩]
    let after := ofTokens [.ofKind .star ⟨1, 6⟩] (.endOfText ⟨1, 7⟩)
    let rest := cons (.ofKind .closeParen ⟨1, 5⟩) after
    ∃ t, (expression .off (us ++ rest)).quiet = (.ok t, rest) ∧
      (closeParenthesis .off rest).quiet = (.ok (), after) ∧
      (operandWith expression .off (cons (.ofKind .openParen ⟨1, 1⟩) (us ++ rest))).quiet =
        (.ok t, after) ∧
      ∃ vs, us ++ rest = vs ++ rest ∧ Paired vs := by
  intro us after rest
  have hnumber : ExpressionTree .operand [⟨.number, "2", ⟨1, 3⟩⟩] _ := .number rfl
  have hgroup : ExpressionTree .operand us _ :=
    .group rfl (.simple (.term (.factor (.plain hnumber)))) rfl
  have hexpression : ExpressionTree .expression us _ :=
    .simple (.term (.factor (.plain hgroup)))
  have hrun : (expression .off (us ++ rest)).quiet = (.ok _, rest) :=
    (inert_expression.quiet_eq .off _).trans
      (hexpression.found rest .closeParen rfl ⟨⟨rfl, rfl⟩, rfl⟩)
  have hafter : after.Readable := ⟨_, rfl⟩
  obtain ⟨-, hclose, hoperand, hpaired⟩ := paired_of_run_expression .off hrun
  exact ⟨_, hrun, (hclose after).mpr ⟨_, rfl, rfl, hafter⟩,
    (hoperand _ _ after rfl).mpr ⟨rfl, _, rfl, rfl, hafter⟩, hpaired⟩

end Grammar

end WhileLang
