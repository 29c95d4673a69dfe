import WhileLang.Proofs.Parsing.Announcing
import WhileLang.Proofs.Parsing.DescentRules

/-!
# The rules announce what fits

Every rule announces its production, and so the rule for programs announces what programs go on with
(`announces_program`).

Two places need more than their parts. After an expression in parentheses the operators of sums and
products are announced too: the expression would go on with them. And where an operand is missing
the list is the same with and without a sign before it; this is also how a factor and a term fail
that have consumed nothing, and so a minus between terms is no exception.
-/

namespace WhileLang

namespace Grammar

open WhileLang.Parser TokenStream
open Phrase (Productive)

variable {n : Nat}

/-! ## What begins a phrase -/

namespace Phrase.Begins

theorem word {kinds : List TokenKind} {k : TokenKind} (h : k ∈ kinds) :
    (Phrase.word kinds).Begins [k] := ⟨[], .word h⟩

theorem mono {φ ψ : Phrase} {ks : List TokenKind} (h : φ.Begins ks)
    (hmono : ∀ ls, Derives φ ls → Derives ψ ls) : ψ.Begins ks := by
  obtain ⟨more, hmore⟩ := h
  exact ⟨more, hmono _ hmore⟩

theorem left {φ ψ : Phrase} {ks : List TokenKind} (h : φ.Begins ks) : (φ <|> ψ).Begins ks :=
  h.mono fun _ => .orLeft

theorem right {φ ψ : Phrase} {ks : List TokenKind} (h : ψ.Begins ks) : (φ <|> ψ).Begins ks :=
  h.mono fun _ => .orRight

theorem rule {name : RuleName} {ks : List TokenKind} (h : (production name).Begins ks) :
    (Phrase.rule name).Begins ks := h.mono fun _ => .rule

/-- What begins a part begins the whole after the part before it. -/
theorem after {φ ψ : Phrase} {ks ls : List TokenKind} (hφ : Derives φ ks) (h : ψ.Begins ls) :
    (φ ++ ψ).Begins (ks ++ ls) := by
  obtain ⟨more, hmore⟩ := h
  refine ⟨more, ?_⟩
  rw [List.append_assoc]
  exact hφ.append hmore

end Phrase.Begins

instance : Productive (.rule .expression) := by
  obtain ⟨us, t, h⟩ := exists_expressionTree
  exact ⟨_, h.derives⟩

instance : Productive (.rule .body) := by
  obtain ⟨us, b, h⟩ := exists_built_body
  exact ⟨_, ProgramTree.derives h⟩

instance : Productive (.rule .statements) := by
  obtain ⟨us, t, h⟩ := exists_statementTree
  exact ⟨_, (ProgramTree.statement h).derives⟩

/-! ## Operands -/

/-- The kinds that an operand can begin with. -/
def operandStarts : List TokenKind := [.trueWord, .falseWord, .number, .identifier, .openParen]

theorem mem_operandStarts_iff {k : TokenKind} :
    k ∈ operandStarts ↔ k ∈ Expected.operand.kinds ∧ k ∉ signs := by
  cases k <;> decide

theorem derives_number : Derives operandPhrase [.number] :=
  .orLeft (.rule (.orRight (.word (by simp))))

theorem begins_operand {k : TokenKind} (h : k ∈ operandStarts) : operandPhrase.Begins [k] := by
  simp only [operandStarts, List.mem_cons, List.not_mem_nil, or_false] at h
  have hliteral : k ∈ [.trueWord, .falseWord] → operandPhrase.Begins [k] :=
    fun h => .left (.rule (.left (.word h)))
  rcases h with rfl | rfl | rfl | rfl | rfl
  · exact hliteral (by decide)
  · exact hliteral (by decide)
  · exact ⟨[], derives_number⟩
  · exact .right (.left (.word (by decide)))
  · exact .right (.right (.first (.first (.word (by decide)))))

/-- An operand begins a factor, and so does a sign. -/
theorem begins_factor {k : TokenKind} (h : k ∈ Expected.operand.kinds) :
    (production .factor).Begins [k] := by
  by_cases hsign : k ∈ signs
  · exact ⟨[.number], (Derives.present (.word hsign)).append derives_number⟩
  · exact .after .absent (begins_operand (mem_operandStarts_iff.mpr ⟨h, hsign⟩))

/-- After an expression in parentheses, the closing parenthesis and the operators fit. -/
theorem begins_afterParenthesised {ks : List TokenKind} (h : Derives (.rule .expression) ks)
    {k : TokenKind} (hk : k ∈ afterParenthesised) :
    (.rule .expression ++ .word [.closeParen] : Phrase).Begins (ks ++ [k]) := by
  by_cases hclose : k = .closeParen
  · exact .after h (.word (by simp [hclose]))
  · have hoperator : ∃ op : BinaryOp, op.kind = k ∧ op.precedence ≠ .relation := by
      simp only [afterParenthesised, List.mem_cons, List.not_mem_nil, or_false] at hk
      rcases hk with rfl | rfl | rfl | rfl | rfl | rfl | rfl
      · exact absurd rfl hclose
      · exact ⟨.plus, rfl, by decide⟩
      · exact ⟨.minus, rfl, by decide⟩
      · exact ⟨.or, rfl, by decide⟩
      · exact ⟨.times, rfl, by decide⟩
      · exact ⟨.divide, rfl, by decide⟩
      · exact ⟨.and, rfl, by decide⟩
    obtain ⟨op, rfl, hop⟩ := hoperator
    obtain ⟨ls, hls⟩ := h.exists_operation hop
    refine Phrase.Begins.first ⟨ls, ?_⟩
    rw [List.append_assoc]
    exact hls

/-! ## Expressions -/

/-- On streams of fewer than `n` tokens the parser announces the rule, and it fails at once only
for want of an operand. -/
structure AnnouncesOperand (n : Nat) (p : Parser Tree) (name : RuleName) : Prop where
  announces : AnnouncesBelow n p (.rule name)
  expects : ∀ s : TokenStream, s.length < n → s.Readable → ExpectsOperand s (run p s)

section

variable {operator? : TokenKind → Option BinaryOp} {operand : Parser Tree} {name : RuleName}

/-- Operands with operators between them are an operand and any number of rounds. -/
theorem announcesBelow_leftChain {kinds : List TokenKind} (hend : operator? .endOfText = none)
    (hop : ∀ k op, operator? k = some op → k ∈ kinds) (h : AnnouncesOperand n operand name) :
    AnnouncesBelow n (leftChain operator? operand)
      (.rule name ++ .many (.word kinds ++ .rule name)) := by
  refine h.announces.bind rfl fun first s hlt hs =>
    announces_iterate (n := n) rfl rfl ?_ first hlt hs
  intro left s hlt _
  refine attempts_take? hend hop rfl (fun _ => rfl) (.inr ?_) ?_
  · exact fun s' hle hs' => h.expects s' (Nat.lt_of_le_of_lt hle hlt) hs'
  · exact fun s' hle hs' => h.announces s' (Nat.lt_of_le_of_lt hle hlt) hs'

theorem expectsOperand_leftChain (h : AnnouncesOperand n operand name)
    (hreceding : Receding operand) {s : TokenStream} (hlt : s.length < n) (hs : s.Readable) :
    ExpectsOperand s (run (leftChain operator? operand) s) := by
  have hfirst := h.announces s hlt hs
  refine (h.expects s hlt hs).bind (fun a rest hrun => ?_) fun first =>
    receding_iterate (fun left => (receding_take? _).bind fun r => ?_) first
  · rw [hrun] at hfirst
    cases hfirst with
    | success hs _ hderives =>
      have hpos := hderives.length_pos rfl
      rw [hs, length_append]
      omega
  · cases r with
    | none => exact receding_pure none
    | some r => exact hreceding.bind fun right => receding_pure _

end

theorem announcesBelow_literal (n : Nat) : AnnouncesBelow n literal (.rule .literal) := by
  refine AnnouncesBelow.inRule fun s hlt hs => ?_
  refine ((announces_expect (by decide) hs).finish _).mono fun ks hks => ?_
  cases hks with
  | @word _ k hk =>
    rcases List.mem_append.mp (show k ∈ [.trueWord, .falseWord] ++ [.number] from hk) with hk | hk
    · exact .orLeft (.word hk)
    · exact .orRight (.word hk)

theorem run_closeParenthesis_of_closeParen {s : TokenStream} (hs : s.ahead? = some .closeParen) :
    run closeParenthesis s = run (expect [.closeParen] >>= fun _ => pure ()) s := by
  unfold closeParenthesis
  rw [run_bind_ok (run_peek hs)]

theorem run_closeParenthesis_of_notMem {s : TokenStream} {k : TokenKind}
    (hs : s.ahead? = some k) (hk : k ∉ afterParenthesised) :
    run closeParenthesis s = run (unexpected (.oneOf afterParenthesised)) s := by
  unfold closeParenthesis
  rw [run_bind_ok (run_peek hs)]
  split
  · exact absurd (by decide) hk
  · rw [if_neg hk]

/-- An expression and the parenthesis that closes it. -/
theorem announcesBelow_closed (h : AnnouncesBelow n expression (.rule .expression)) :
    AnnouncesBelow n
      (expression >>= fun inner => closeParenthesis >>= fun _ => pure inner)
      (.rule .expression ++ .word [.closeParen]) := by
  intro s hlt hs
  have hinner := h s hlt hs
  rw [run_bind]
  generalize hrun : run expression s = o at hinner
  cases hinner with
  | unreadable => exact .unreadable
  | mismatch hsplit ht h hsign => exact .mismatch hsplit ht (h.lift [] fun _ => .first) hsign
  | @success us inner rest hsplit hrest h =>
    have hunsigned : Unsigned (us.map Token.kind) := h.unsigned rfl
    obtain ⟨t, ht⟩ := hrest
    have hahead := ahead?_of_head ht
    dsimp only
    by_cases hclose : t.kind = .closeParen
    · have hclosing : Announces (.word [.closeParen]) rest (run closeParenthesis rest) := by
        rw [run_closeParenthesis_of_closeParen (hclose ▸ hahead)]
        exact (announces_expect (by decide) ⟨t, ht⟩).finish _
      exact (hclosing.finish _).lift us hsplit (.inl hunsigned) fun ks hks => h.append hks
    · have hends : EndsSum t.kind := exits_expression s inner rest hrun _ hahead
      have hmem : t.kind ∉ afterParenthesised := fun hmem =>
        hclose (eq_closeParen_of_mem hmem hends)
      rw [run_bind, run_closeParenthesis_of_notMem hahead hmem, run_unexpected ht]
      exact .mismatch hsplit ht (.exact hmem fun k hk => begins_afterParenthesised h hk)
        (.inl hunsigned)

/-- Where an operand begins, its parts are announced. -/
theorem announces_operandWith (h : AnnouncesBelow n expression (.rule .expression))
    {s : TokenStream} (hlt : s.length < n + 1) {k : TokenKind} (hk : s.ahead? = some k)
    (hstart : k ∈ operandStarts) :
    Announces operandPhrase s (run (operandWith expression) s) := by
  have hs := readable_of_ahead? hk
  have hopen : AnnouncesBelow (n + 1) (expect [.openParen]) (.word [.openParen]) :=
    announcesBelow_expect (by decide) _
  have hgroup := (hopen.bind_consuming rfl rfl fun _ => announcesBelow_closed h).assoc
  unfold operandWith
  rw [run_bind_ok (run_peek hk)]
  split
  any_goals exact (announcesBelow_literal (n + 1) s hlt hs).left
  · exact ((announces_expect (by decide) hs).finish _).left.right
  · exact (hgroup s hlt hs).right.right
  · simp_all [operandStarts]

/-- Nothing but a missing operand is noticed before a token is consumed. -/
theorem expectsOperand_operandWith {s : TokenStream} (hs : s.Readable) :
    ExpectsOperand s (run (operandWith expression) s) := by
  obtain ⟨t, ht⟩ := hs
  have hk := ahead?_of_head ht
  have hclosed : Receding (expression >>= fun inner => closeParenthesis >>= fun _ => pure inner) :=
    receding_expression.bind fun _ => receding_closeParenthesis.bind fun _ => receding_pure _
  unfold operandWith
  rw [run_bind_ok (run_peek hk)]
  split
  any_goals
    unfold literal
    rw [run_inRule]
    exact (expectsOperand_expect (by decide) ht (by simp_all)).finish _
  · exact (expectsOperand_expect (by decide) ht (by simp_all)).finish _
  · refine (expectsOperand_expect (by decide) ht (by simp_all)).bind ?_ fun _ => hclosed
    intro a rest hrun
    have hlt := consuming_expect [.openParen] .full s a (congrArg Prod.fst hrun)
    exact congrArg (fun o => o.2.length) hrun ▸ hlt
  · rw [run_unexpected ht]
    rintro e k p ⟨⟩
    rfl

/-- Everywhere else an operand is missing. -/
theorem run_operandWith_of_notMem {s : TokenStream} {k : TokenKind} (hk : s.ahead? = some k)
    (hstart : k ∉ operandStarts) :
    run (operandWith expression) s = run (unexpected .operand) s := by
  unfold operandWith
  rw [run_bind_ok (run_peek hk)]
  split
  case h_6 => rfl
  all_goals exact absurd (by decide) hstart

theorem expectsOperand_factor {s : TokenStream} (hs : s.Readable) :
    ExpectsOperand s (run (factorWith expression) s) := by
  unfold factorWith
  rw [run_inRule]
  rcases run_take?_cases TokenKind.unary? rfl s with
    ⟨hrun, -⟩ | ⟨_, sign, s', rfl, -, -, hrun⟩ | ⟨e, hrun⟩
  · rw [run_bind_ok hrun]
    exact expectsOperand_operandWith hs
  · -- a sign has been consumed
    have hreceding := (receding_operandWith receding_expression).bind
      fun operand => receding_pure (Tree.unary .negation sign.position operand)
    rw [run_bind_ok hrun]
    exact .of_receding hreceding (Nat.lt_succ_self s'.length)
  · rw [run_bind, hrun]
    exact nofun

theorem announcesBelow_factor (h : AnnouncesBelow n expression (.rule .expression)) :
    AnnouncesBelow (n + 1) (factorWith expression) (.rule .factor) := by
  refine AnnouncesBelow.inRule fun s hlt hs => ?_
  rcases run_take?_cases TokenKind.unary? rfl s with
    ⟨hrun, hnone⟩ | ⟨_, sign, s', rfl, hsign, hs', hrun⟩ | ⟨e, hrun⟩
  · rw [run_bind_ok hrun]
    obtain ⟨t, ht⟩ := hs
    have hahead := ahead?_of_head ht
    by_cases hstart : t.kind ∈ operandStarts
    · have hoperand := announces_operandWith h hlt hahead hstart
      exact hoperand.mono fun ks hks => Derives.absent.append hks
    · have hk : t.kind ∉ Expected.operand.kinds := by
        intro hmem
        have hsign : t.kind ∉ signs := by
          intro hsign
          have hnot := hnone t.kind hahead
          rw [(unary?_eq_some_iff (u := ())).mpr hsign] at hnot
          cases hnot
        exact hstart (mem_operandStarts_iff.mpr ⟨hmem, hsign⟩)
      dsimp only
      rw [run_operandWith_of_notMem hahead hstart]
      exact .unexpected ht hk fun k hk => begins_factor hk
  · have hmem : sign.kind ∈ signs := unary?_eq_some_iff.mp hsign
    rw [run_bind_ok hrun]
    obtain ⟨t, ht⟩ := hs'
    have hahead := ahead?_of_head ht
    have hlift : ∀ ks, Derives operandPhrase ks →
        Derives (production .factor) ([sign].map Token.kind ++ ks) :=
      fun ks hks => (Derives.present (.word hmem)).append hks
    by_cases hstart : t.kind ∈ operandStarts
    · have hoperand := announces_operandWith h (Nat.lt_of_succ_lt hlt) hahead hstart
      exact (hoperand.finish _).lift [sign] rfl
        (.inr ((expectsOperand_operandWith ⟨t, ht⟩).finish _)) hlift
    · -- the list is that for operands with their signs, but after a sign no other fits
      dsimp only
      rw [run_bind, run_operandWith_of_notMem hahead hstart, run_unexpected ht]
      have hsplit : cons sign s' = [sign] ++ s' := rfl
      refine .mismatch hsplit ht ?_ (.inr rfl)
      have hsigned : [sign].map Token.kind = [] ++ [sign.kind] := rfl
      refine .signed hsigned hmem (begins_factor (by decide)) ?_ ?_
      · intro hk
        by_contra hsign
        exact hstart (mem_operandStarts_iff.mpr ⟨hk, hsign⟩)
      · intro k hk hsign
        exact .after (.present (.word hmem))
          (begins_operand (mem_operandStarts_iff.mpr ⟨hk, hsign⟩))
  · rw [run_bind, hrun]
    exact .unreadable

theorem announcesOperand_factor (h : AnnouncesBelow n expression (.rule .expression)) :
    AnnouncesOperand (n + 1) (factorWith expression) .factor :=
  ⟨announcesBelow_factor h, fun _ _ => expectsOperand_factor⟩

theorem announcesOperand_term (h : AnnouncesOperand n (factorWith expression) .factor) :
    AnnouncesOperand n (termWith expression) .term where
  announces :=
    .inRule (announcesBelow_leftChain rfl (fun _ _ => mem_of_operatorOf? .multiplicative) h)
  expects s hlt hs := by
    unfold termWith
    rw [run_inRule]
    exact expectsOperand_leftChain h (receding_factorWith receding_expression) hlt hs

theorem announcesBelow_simpleExpression (h : AnnouncesOperand n (termWith expression) .term) :
    AnnouncesBelow n (simpleExpressionWith expression) (.rule .simpleExpression) :=
  .inRule (announcesBelow_leftChain rfl (fun _ _ => mem_of_operatorOf? .additive) h)

theorem announcesBelow_relation
    (h : AnnouncesBelow n (simpleExpressionWith expression) (.rule .simpleExpression)) :
    AnnouncesBelow n expression (.rule .expression) := by
  rw [expression_eq]
  refine AnnouncesBelow.inRule (h.bind rfl fun left s hlt hs => ?_)
  refine announces_optional rfl (fun _ _ => mem_of_operatorOf? .relation) (by decide) hs rfl ?_
  intro r s' hle hs'
  exact (h s' (Nat.lt_of_le_of_lt hle hlt) hs').finish _

theorem announcesBelow_expression (n : Nat) :
    AnnouncesBelow n expression (.rule .expression) := by
  induction n with
  | zero => exact fun s hlt => absurd hlt (Nat.not_lt_zero _)
  | succ n ih =>
    exact announcesBelow_relation (announcesBelow_simpleExpression (announcesOperand_term
      (announcesOperand_factor ih)))

/-! ## Declarations -/

theorem announcesBelow_declaration (n : Nat) :
    AnnouncesBelow n declaration (.rule .declaration) := by
  refine AnnouncesBelow.inRule (AnnouncesBelow.assoc ?_)
  exact (announcesBelow_expect (by decide) n).bind rfl fun type =>
    (announcesBelow_expect (by decide) n).bind rfl fun name =>
      (announcesBelow_expect (by decide) n).finish _

theorem announcesBelow_declarations (n : Nat) :
    AnnouncesBelow n declarations (.rule .declarations) := by
  have hdeclaration := announcesBelow_declaration n
  refine AnnouncesBelow.inRule (hdeclaration.bind rfl fun first s hlt hs =>
    announces_iterate (n := n) rfl rfl ?_ first hlt hs)
  intro tree s hlt hs
  obtain ⟨t, ht⟩ := hs
  rw [run_bind_ok (run_peek (ahead?_of_head ht))]
  split
  · exact (hdeclaration s hlt ⟨t, ht⟩).attempts _
  · exact .skipped

theorem announcesBelow_optionalDeclarations (n : Nat) :
    AnnouncesBelow n optionalDeclarations (.optional (.rule .declarations)) := by
  refine AnnouncesBelow.peek_bind fun k s hlt hk => ?_
  have hs := readable_of_ahead? hk
  split
  · exact (announcesBelow_declarations n s hlt hs).present
  · exact .stay hs _ .absent

/-! ## Statements -/

theorem announcesBelow_assignment (n : Nat) :
    AnnouncesBelow n assignment (.rule .assignment) := by
  refine AnnouncesBelow.inRule (AnnouncesBelow.assoc ?_)
  exact (announcesBelow_expect (by decide) n).bind rfl fun name =>
    (announcesBelow_expect (by decide) n).bind rfl fun sign =>
      (announcesBelow_expression n).finish _

theorem announcesBelow_print (n : Nat) : AnnouncesBelow n print (.rule .print) :=
  .inRule ((announcesBelow_expect (by decide) n).bind rfl fun _ =>
    (announcesBelow_expression n).finish _)

theorem announcesBelow_elseWith (h : AnnouncesBelow n body (.rule .body)) :
    AnnouncesBelow n (elseWith body) (.optional (.word [.elseWord] ++ .rule .body)) := by
  intro s hlt hs
  refine announces_optional rfl (fun k _ hk => ?_) (by decide) hs rfl fun r s' hle hs' => ?_
  · simpa using (Option.ite_none_right_eq_some.mp hk).1
  · exact (h s' (Nat.lt_of_le_of_lt hle hlt) hs').finish _

theorem announcesBelow_conditional (h : AnnouncesBelow n body (.rule .body)) :
    AnnouncesBelow (n + 1) (conditionalWith body) (.rule .conditional) := by
  refine AnnouncesBelow.inRule ?_
  refine AnnouncesBelow.assoc (AnnouncesBelow.assoc (AnnouncesBelow.assoc (.assoc ?_)))
  exact (announcesBelow_expect (by decide) (n + 1)).bind_consuming rfl rfl fun _ =>
    (announcesBelow_expression n).bind rfl fun _ => (announcesBelow_expect (by decide) n).bind rfl
      fun _ => h.bind rfl fun _ => (announcesBelow_elseWith h).bind rfl fun _ =>
        (announcesBelow_expect (by decide) n).finish _

theorem announcesBelow_iterative (h : AnnouncesBelow n body (.rule .body)) :
    AnnouncesBelow (n + 1) (iterativeWith body) (.rule .iterative) := by
  refine AnnouncesBelow.inRule (AnnouncesBelow.assoc (AnnouncesBelow.assoc (.assoc ?_)))
  exact (announcesBelow_expect (by decide) (n + 1)).bind_consuming rfl rfl fun _ =>
    (announcesBelow_expression n).bind rfl fun _ => (announcesBelow_expect (by decide) n).bind rfl
      fun _ => h.bind rfl fun _ => (announcesBelow_expect (by decide) n).finish _

theorem begins_statement {k : TokenKind} (h : k ∈ Expected.statement.kinds) :
    (production .statement).Begins [k] := by
  simp only [Expected.kinds, List.mem_cons, List.not_mem_nil, or_false] at h
  rcases h with rfl | rfl | rfl | rfl
  · exact .left (.rule (.first (.first (.word (by decide)))))
  · exact .right (.left (.rule (.first (.first (.first (.first (.first (.word (by decide)))))))))
  · exact .right (.right (.left (.rule (.first (.first (.first (.first (.word (by decide)))))))))
  · exact .right (.right (.right (.rule (.first (.word (by decide))))))

theorem announcesBelow_statement (h : AnnouncesBelow n body (.rule .body)) :
    AnnouncesBelow (n + 1) (statementWith body) (.rule .statement) := by
  refine AnnouncesBelow.inRule (AnnouncesBelow.peek_bind fun k s hlt hk => ?_)
  have hs := readable_of_ahead? hk
  split
  · exact ((announcesBelow_assignment (n + 1) s hlt hs).finish _).left
  · exact ((announcesBelow_conditional h s hlt hs).finish _).left.right
  · exact ((announcesBelow_iterative h s hlt hs).finish _).left.right.right
  · exact ((announcesBelow_print (n + 1) s hlt hs).finish _).right.right.right
  · obtain ⟨t, ht, rfl⟩ := head_of_ahead? hk
    refine .unexpected ht ?_ fun k hk => begins_statement hk
    simp_all [Expected.kinds]

theorem announcesBelow_statements (h : AnnouncesBelow n (statementWith body) (.rule .statement)) :
    AnnouncesBelow n (statementsWith body) (.rule .statements) := by
  refine AnnouncesBelow.inRule (h.bind rfl fun first s hlt hs =>
    announces_iterate (n := n) rfl rfl ?_ first hlt hs)
  intro tree s hlt _
  refine attempts_take? rfl (fun k _ hk => ?_) rfl (fun _ => rfl) (.inl (by decide))
    fun s' hle hs' => h s' (Nat.lt_of_le_of_lt hle hlt) hs'
  simpa using (Option.ite_none_right_eq_some.mp hk).1

/-! ## Bodies and programs -/

theorem announcesBelow_body_of_statements
    (h : AnnouncesBelow n (statementsWith body) (.rule .statements)) :
    AnnouncesBelow n body (.rule .body) := by
  rw [body_eq]
  exact .inRule ((announcesBelow_optionalDeclarations n).bind rfl fun _ => h.finish _)

theorem announcesBelow_body (n : Nat) : AnnouncesBelow n body (.rule .body) := by
  induction n with
  | zero => exact fun s hlt => absurd hlt (Nat.not_lt_zero _)
  | succ n ih =>
    exact announcesBelow_body_of_statements (announcesBelow_statements
      (announcesBelow_statement ih))

theorem announces_program {s : TokenStream} (hs : s.Readable) :
    Announces (.rule .program) s (run program s) := by
  have hprogram : AnnouncesBelow (s.length + 1) program (.rule .program) := by
    refine AnnouncesBelow.inRule (AnnouncesBelow.assoc (AnnouncesBelow.assoc (.assoc ?_)))
    exact (announcesBelow_expect (by decide) _).bind rfl fun _ =>
      (announcesBelow_expect (by decide) _).bind rfl fun _ =>
        (announcesBelow_expect (by decide) _).bind rfl fun _ =>
          (announcesBelow_body _).bind rfl fun _ => (announcesBelow_expect (by decide) _).finish _
  exact hprogram s (Nat.lt_succ_self _) hs

end Grammar

end WhileLang
