import WhileLang.Analysis.Basic
import WhileLang.Proofs.Parsing.Descent
import WhileLang.Proofs.Parsing.Programs

/-!
# The rules follow the grammar

Every rule follows its production, on every stream (`follows_rule`).

The rules that call themselves do so only after a token, so that they follow the grammar on streams
of fewer than `n + 1` tokens if the rules inside them do on streams of fewer than `n`.
-/

namespace WhileLang

namespace Grammar

open WhileLang.Parser TokenStream

variable {n : Nat}

/-! ## Chains of operators -/

/-- Operands with operators between them are an operand and any number of rounds. -/
theorem followsBelow_leftChain {operator? : TokenKind → Option BinaryOp} {operand : Parser Tree}
    {φ : Phrase} {kinds : List TokenKind} (hop : ∀ k op, operator? k = some op → k ∈ kinds)
    (h : FollowsBelow n operand φ) :
    FollowsBelow n (leftChain operator? operand) (φ ++ .many (.word kinds ++ φ)) := by
  refine h.bind fun first s hlt hs => follows_iterate (n := n) rfl ?_ first hlt hs
  intro left s hlt _
  refine (tries_take? hop s).bind (q := fun _ => operand) rfl (fun _ => rfl) ?_
  intro r rest es hc hrest
  exact h rest (Nat.lt_of_le_of_lt hc.length_le hlt) hrest

theorem mem_of_operatorOf? (level : Precedence) {k : TokenKind} {op : BinaryOp}
    (h : operatorOf? level k = some op) : k ∈ level.kinds := by
  obtain ⟨rfl, rfl⟩ := (operatorOf?_eq_some_iff level).mp h
  exact op.kind_mem

/-! ## Expressions -/

theorem ruleFollows_literal (n : Nat) : RuleFollows n .literal := by
  refine FollowsBelow.inRule rfl ?_
  intro s hlt hs
  exact ((follows_expect (by simp) hs).finish _).words

/-- Where an expression has ended, only a closing parenthesis closes a group. -/
theorem follows_closeParenthesis {s : TokenStream} {k : TokenKind} (hs : s.ahead? = some k)
    (hk : EndsSum k) : Follows (.word [.closeParen]) s (closeParenthesis .full s) := by
  have hreadable := readable_of_ahead? hs
  unfold closeParenthesis
  rw [peek_bind hs]
  split
  · exact (follows_expect (by simp) hreadable).finish _
  · next hne =>
    have hmem : k ∉ afterParenthesised := fun h => hne (eq_closeParen_of_mem h hk)
    obtain ⟨t, ht⟩ := hreadable
    rw [if_neg hmem, unexpected_eq ht]
    exact .broken (.word (.mismatch ht (by simp [Expected.kinds, afterParenthesised])))

/-- An expression in parentheses. -/
theorem followsBelow_group (h : RuleFollows n .expression) :
    FollowsBelow (n + 1)
      (expect [.openParen] >>= fun _ => expression >>= fun inner =>
        closeParenthesis >>= fun _ => pure inner)
      (.word [.openParen] ++ .rule .expression ++ .word [.closeParen]) := by
  refine FollowsBelow.assoc ?_
  refine (followsBelow_expect (by simp) (n + 1)).bind_consuming rfl fun _ s hlt hs => ?_
  refine (h s hlt hs).bind fun inner rest es hrun _ hrest => ?_
  obtain ⟨t, ht⟩ := hrest
  have hahead := ahead?_of_head ht
  have hended : run expression s = (.ok inner, rest) :=
    congrArg Outcome.quiet hrun
  exact (follows_closeParenthesis hahead (exits_expression s inner rest hended _ hahead)).finish _

theorem followsBelow_operandWith (h : RuleFollows n .expression) :
    FollowsBelow (n + 1) (operandWith expression) operandPhrase := by
  refine FollowsBelow.peek_bind fun k s hlt hk => ?_
  have hs := readable_of_ahead? hk
  split
  any_goals exact (ruleFollows_literal (n + 1) s hlt hs).left
  · exact ((follows_expect (by simp) hs).finish _).left.right
  · exact (followsBelow_group h s hlt hs).right.right
  · exact follows_neither (by simp [Expected.kinds]) hs

theorem ruleFollows_factor (h : RuleFollows n .expression) : RuleFollows (n + 1) .factor := by
  have hoperand := followsBelow_operandWith h
  refine FollowsBelow.inRule rfl ?_
  intro s hlt hs
  have hsign : Tries (.word signs) s (take? TokenKind.unary? .full s) :=
    tries_take? (fun k _ hk => unary?_eq_some_iff.mp hk) s
  refine (hsign.follows hs).bind fun r rest es _ hc hrest => ?_
  have hshort := Nat.lt_of_le_of_lt hc.length_le hlt
  cases r with
  | none => exact hoperand rest hshort hrest
  | some r => exact (hoperand rest hshort hrest).finish _

theorem ruleFollows_term (h : RuleFollows n .factor) : RuleFollows n .term :=
  .inRule rfl (followsBelow_leftChain (fun _ _ => mem_of_operatorOf? .multiplicative) h)

theorem ruleFollows_simpleExpression (h : RuleFollows n .term) :
    RuleFollows n .simpleExpression :=
  .inRule rfl (followsBelow_leftChain (fun _ _ => mem_of_operatorOf? .additive) h)

theorem ruleFollows_relation (h : RuleFollows n .simpleExpression) :
    RuleFollows n .expression := by
  refine FollowsBelow.inRule expression_eq (h.bind fun left s hlt hs => ?_)
  have hword : Tries (.word relations) s (take? TokenKind.relation? .full s) :=
    tries_take? (fun _ _ => mem_of_operatorOf? .relation) s
  refine hword.optional hs rfl fun r rest es hc hrest => ?_
  exact (h rest (Nat.lt_of_le_of_lt hc.length_le hlt) hrest).finish _

theorem ruleFollows_expression (n : Nat) : RuleFollows n .expression := by
  induction n with
  | zero => exact fun s hlt => absurd hlt (Nat.not_lt_zero _)
  | succ n ih =>
    exact ruleFollows_relation (ruleFollows_simpleExpression (ruleFollows_term
      (ruleFollows_factor ih)))

/-! ## Declarations -/

theorem ruleFollows_declaration (n : Nat) : RuleFollows n .declaration := by
  refine FollowsBelow.inRule rfl (FollowsBelow.assoc ?_)
  exact (followsBelow_expect (by simp [typeWords]) n).bind fun type =>
    (followsBelow_expect (by simp) n).bind fun name =>
      (followsBelow_expect (by simp) n).finish _

theorem ruleFollows_declarations (n : Nat) : RuleFollows n .declarations := by
  have hdeclaration := ruleFollows_declaration n
  refine FollowsBelow.inRule rfl (hdeclaration.bind fun first s hlt hs =>
    follows_iterate (n := n) rfl ?_ first hlt hs)
  intro tree s hlt hs
  obtain ⟨t, ht⟩ := hs
  rw [peek_bind (ahead?_of_head ht)]
  split
  · exact (hdeclaration s hlt ⟨t, ht⟩).tries _
  · exact .skipped

theorem followsBelow_optionalDeclarations (n : Nat) :
    FollowsBelow n optionalDeclarations (.optional (.rule .declarations)) := by
  refine FollowsBelow.peek_bind fun k s hlt hk => ?_
  have hs := readable_of_ahead? hk
  split
  · exact (ruleFollows_declarations n s hlt hs).present
  · exact .completed (.absent s) hs

/-! ## Statements -/

theorem ruleFollows_assignment (n : Nat) : RuleFollows n .assignment := by
  refine FollowsBelow.inRule rfl (FollowsBelow.assoc ?_)
  exact (followsBelow_expect (by simp) n).bind fun name =>
    (followsBelow_expect (by simp) n).bind fun sign => (ruleFollows_expression n).finish _

theorem ruleFollows_print (n : Nat) : RuleFollows n .print :=
  .inRule rfl ((followsBelow_expect (by simp) n).bind fun _ =>
    (ruleFollows_expression n).finish _)

theorem followsBelow_elseWith (h : RuleFollows n .body) :
    FollowsBelow n (elseWith body) (.optional (.word [.elseWord] ++ .rule .body)) := by
  intro s hlt hs
  have hword : Tries (.word [.elseWord]) s
      (take? (fun k => if k = .elseWord then some () else none) .full s) :=
    tries_take? (fun k _ hk => by simpa using (Option.ite_none_right_eq_some.mp hk).1) s
  refine hword.optional hs rfl fun r rest es hc hrest => ?_
  exact (h rest (Nat.lt_of_le_of_lt hc.length_le hlt) hrest).finish _

theorem ruleFollows_conditional (h : RuleFollows n .body) : RuleFollows (n + 1) .conditional := by
  refine FollowsBelow.inRule rfl ?_
  refine (FollowsBelow.assoc (FollowsBelow.assoc (FollowsBelow.assoc (FollowsBelow.assoc ?_))))
  exact (followsBelow_expect (by simp) (n + 1)).bind_consuming rfl fun _ =>
    (ruleFollows_expression n).bind fun _ => (followsBelow_expect (by simp) n).bind fun _ =>
      h.bind fun _ => (followsBelow_elseWith h).bind fun _ =>
        (followsBelow_expect (by simp) n).finish _

theorem ruleFollows_iterative (h : RuleFollows n .body) : RuleFollows (n + 1) .iterative := by
  refine FollowsBelow.inRule rfl ?_
  refine (FollowsBelow.assoc (FollowsBelow.assoc (FollowsBelow.assoc ?_)))
  exact (followsBelow_expect (by simp) (n + 1)).bind_consuming rfl fun _ =>
    (ruleFollows_expression n).bind fun _ => (followsBelow_expect (by simp) n).bind fun _ =>
      h.bind fun _ => (followsBelow_expect (by simp) n).finish _

theorem ruleFollows_statement (h : RuleFollows n .body) : RuleFollows (n + 1) .statement := by
  refine FollowsBelow.inRule rfl (FollowsBelow.peek_bind fun k s hlt hk => ?_)
  have hs := readable_of_ahead? hk
  split
  · exact ((ruleFollows_assignment (n + 1) s hlt hs).finish _).left
  · exact ((ruleFollows_conditional h s hlt hs).finish _).left.right
  · exact ((ruleFollows_iterative h s hlt hs).finish _).left.right.right
  · exact ((ruleFollows_print (n + 1) s hlt hs).finish _).right.right.right
  · exact follows_neither (by simp [Expected.kinds]) hs

theorem ruleFollows_statements (h : RuleFollows n .statement) : RuleFollows n .statements := by
  refine FollowsBelow.inRule rfl (h.bind fun first s hlt hs =>
    follows_iterate (n := n) rfl ?_ first hlt hs)
  intro tree s hlt _
  have hword : Tries (.word [.semicolon]) s
      (take? (fun k => if k = .semicolon then some () else none) .full s) :=
    tries_take? (fun k _ hk => by simpa using (Option.ite_none_right_eq_some.mp hk).1) s
  refine hword.bind (q := fun _ => statementWith body) rfl (fun _ => rfl) ?_
  intro r rest es hc hrest
  exact h rest (Nat.lt_of_le_of_lt hc.length_le hlt) hrest

/-! ## Bodies and programs -/

theorem ruleFollows_body_of_statements (h : RuleFollows n .statements) : RuleFollows n .body :=
  .inRule body_eq ((followsBelow_optionalDeclarations n).bind fun _ => h.finish _)

theorem ruleFollows_body (n : Nat) : RuleFollows n .body := by
  induction n with
  | zero => exact fun s hlt => absurd hlt (Nat.not_lt_zero _)
  | succ n ih =>
    exact ruleFollows_body_of_statements (ruleFollows_statements (ruleFollows_statement ih))

theorem ruleFollows_program (n : Nat) : RuleFollows n .program := by
  refine FollowsBelow.inRule rfl ?_
  refine (FollowsBelow.assoc (FollowsBelow.assoc (FollowsBelow.assoc ?_)))
  exact (followsBelow_expect (by simp) n).bind fun _ => (followsBelow_expect (by simp) n).bind
    fun _ => (followsBelow_expect (by simp) n).bind fun _ => (ruleFollows_body n).bind fun _ =>
      (followsBelow_expect (by simp) n).finish _

/-- Whatever rule is called on whatever stream, it descends through its production. -/
theorem follows_rule (name : RuleName) {s : TokenStream} (hs : s.Readable) :
    Follows (.rule name) s (ruleParser name .full s) := by
  have hfactor := ruleFollows_factor (ruleFollows_expression s.length)
  have hstatement := ruleFollows_statement (ruleFollows_body s.length)
  have hrule : RuleFollows (s.length + 1) name := by
    cases name with
    | program => exact ruleFollows_program _
    | body => exact ruleFollows_body _
    | declarations => exact ruleFollows_declarations _
    | declaration => exact ruleFollows_declaration _
    | statements => exact ruleFollows_statements hstatement
    | statement => exact hstatement
    | assignment => exact ruleFollows_assignment _
    | conditional => exact ruleFollows_conditional (ruleFollows_body _)
    | iterative => exact ruleFollows_iterative (ruleFollows_body _)
    | print => exact ruleFollows_print _
    | expression => exact ruleFollows_expression _
    | simpleExpression => exact ruleFollows_simpleExpression (ruleFollows_term hfactor)
    | term => exact ruleFollows_term hfactor
    | factor => exact hfactor
    | literal => exact ruleFollows_literal _
  exact hrule s (Nat.lt_succ_self _) hs

end Grammar

open Grammar TokenStream

/-- Where the first token cannot be read, nothing is parsed. -/
theorem parseText_unreadable {source : String} {e : LexError}
    (h : (TokenStream.ofString source).head = .error e) :
    parseText .full source = (.error (.lexical e), []) ∧ (collectTokens source).1 = [] := by
  constructor
  · unfold parseText
    dsimp only
    rw [h]
  · unfold collectTokens
    dsimp only
    rw [eq_failure_of_head h]
    rfl

/-- Parsing a text reads its first token, then descends through the rule for programs. -/
theorem parseText_follows {source : String} {first : Token}
    (h : (TokenStream.ofString source).head = .ok first) :
    ∃ o : Outcome TreeBuilder, program .full (.ofString source) = o ∧
      parseText .full source = (o.result, .read first :: o.events) ∧
      Follows (.rule .program) (.ofString source) o := by
  refine ⟨_, rfl, ?_, follows_rule .program ⟨first, h⟩⟩
  unfold parseText
  dsimp only
  rw [h]

end WhileLang
