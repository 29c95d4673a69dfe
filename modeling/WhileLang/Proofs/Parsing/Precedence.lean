import WhileLang.Proofs.Parsing.Completeness
import WhileLang.Proofs.Tracing.Toggles

/-!
# Precedence from the top

The loops for sums and products build the tree of operands and operators from the left. The same
tree can be described from the top: its root is the last operator of a sum, or if there is none the
last operator of a product, with the trees of what stands on either side (`OperatorChain.tree`). The
parser finds this tree, whatever the operators and however many (`run_operatorChain`).

* `Operand`, `Operator`, `OperatorChain`: operands of one token with operators between them.
* `OperatorChain.tree`: their tree, by splitting.
* `expressionTree_topDown`: splitting gives the tree that the grammar gives.
-/

namespace WhileLang

namespace Grammar

open WhileLang.Parser TokenStream

/-! ## Operands and operators -/

/-- An operand of one token. -/
structure Operand where
  token : Token
  kind_mem : token.kind ∈ [.identifier, .trueWord, .falseWord, .number]

/-- An operator of a sum or of a product. -/
structure Operator where
  token : Token
  op : BinaryOp
  kind_eq : token.kind = op.kind
  precedence_ne : op.precedence ≠ .relation

/-- An operand, and any number of operators with an operand after each. -/
structure OperatorChain where
  first : Operand
  links : List (Operator × Operand)

def OperatorChain.tokens (c : OperatorChain) : List Token :=
  c.first.token :: c.links.flatMap fun (o, x) => [o.token, x.token]

def Operand.tree (x : Operand) : Tree :=
  if x.token.kind = .identifier then .ofName x.token else .ofLiteral x.token

/-- The node of an operator over two trees. -/
def Operator.node (o : Operator) (left right : Tree) : Tree :=
  .pair (.binary o.op) o.token.position left right

def Operator.IsOf (level : Precedence) (o : Operator) : Prop := o.op.precedence = level

instance (level : Precedence) (o : Operator) : Decidable (o.IsOf level) :=
  inferInstanceAs (Decidable (_ = _))

/-! ## Splitting -/

/-- The last link with an operator of the level, and the links before and after it. -/
def splitLast? (level : Precedence) :
    List (Operator × Operand) →
      Option (List (Operator × Operand) × (Operator × Operand) × List (Operator × Operand))
  | [] => none
  | link :: links =>
    match splitLast? level links with
    | some (before, last, after) => some (link :: before, last, after)
    | none => if link.1.IsOf level then some ([], link, links) else none

/-- The link of the operator that binds least: the last one of a sum, or if there is none the last
one of a product. -/
def splitRoot? (links : List (Operator × Operand)) :
    Option (List (Operator × Operand) × (Operator × Operand) × List (Operator × Operand)) :=
  (splitLast? .additive links).or (splitLast? .multiplicative links)

theorem splitLast?_eq_none {level : Precedence} {links : List (Operator × Operand)}
    (h : splitLast? level links = none) : ∀ x ∈ links, ¬x.1.IsOf level := by
  induction links with
  | nil => exact List.forall_mem_nil _
  | cons link links ih =>
    rw [splitLast?] at h
    split at h
    · cases h
    · next hnone =>
      by_cases hlink : link.1.IsOf level
      · rw [if_pos hlink] at h
        cases h
      · exact List.forall_mem_cons.mpr ⟨hlink, ih hnone⟩

theorem splitLast?_eq_some {level : Precedence} {links before after : List (Operator × Operand)}
    {last : Operator × Operand} (h : splitLast? level links = some (before, last, after)) :
    links = before ++ last :: after ∧ last.1.IsOf level ∧ ∀ x ∈ after, ¬x.1.IsOf level := by
  induction links generalizing before with
  | nil => cases h
  | cons link links ih =>
    rw [splitLast?] at h
    split at h
    · next hsome =>
      cases h
      obtain ⟨rfl, hlast, hafter⟩ := ih hsome
      exact ⟨rfl, hlast, hafter⟩
    · next hnone =>
      by_cases hlink : link.1.IsOf level
      · rw [if_pos hlink] at h
        cases h
        exact ⟨rfl, hlink, splitLast?_eq_none hnone⟩
      · rw [if_neg hlink] at h
        cases h

/-- Every operator is one of a sum or one of a product. -/
theorem Operator.isOf_or (o : Operator) : o.IsOf .additive ∨ o.IsOf .multiplicative := by
  have hne := o.precedence_ne
  unfold IsOf
  cases h : o.op.precedence with
  | relation => exact absurd h hne
  | additive => exact .inl rfl
  | multiplicative => exact .inr rfl

/-- Where a chain is split, it is at a last operator of a sum, or there are only products and it is
at their last operator. -/
theorem splitRoot?_eq_some {links before after : List (Operator × Operand)}
    {root : Operator × Operand} (h : splitRoot? links = some (before, root, after)) :
    links = before ++ root :: after ∧
      (root.1.IsOf .additive ∧ (∀ x ∈ after, ¬x.1.IsOf .additive) ∨
        root.1.IsOf .multiplicative ∧ (∀ x ∈ links, ¬x.1.IsOf .additive) ∧ after = []) := by
  rcases Option.or_eq_some_iff.mp h with hsum | ⟨hnone, hproduct⟩
  · obtain ⟨hlinks, hroot, hafter⟩ := splitLast?_eq_some hsum
    exact ⟨hlinks, .inl ⟨hroot, hafter⟩⟩
  · obtain ⟨rfl, hroot, hafter⟩ := splitLast?_eq_some hproduct
    have hlinks := splitLast?_eq_none hnone
    refine ⟨rfl, .inr ⟨hroot, hlinks, ?_⟩⟩
    cases after with
    | nil => rfl
    | cons x after =>
      rcases x.1.isOf_or with hadditive | hmultiplicative
      · exact absurd hadditive (hlinks x (by simp))
      · exact absurd hmultiplicative (hafter x List.mem_cons_self)

theorem eq_nil_of_splitRoot? {links : List (Operator × Operand)} (h : splitRoot? links = none) :
    links = [] := by
  obtain ⟨hsum, hproduct⟩ := Option.or_eq_none_iff.mp h
  cases links with
  | nil => rfl
  | cons x links =>
    rcases x.1.isOf_or with hadditive | hmultiplicative
    · exact absurd hadditive (splitLast?_eq_none hsum x List.mem_cons_self)
    · exact absurd hmultiplicative (splitLast?_eq_none hproduct x List.mem_cons_self)

theorem length_splitRoot?_lt {links before after : List (Operator × Operand)}
    {root : Operator × Operand} (h : splitRoot? links = some (before, root, after)) :
    before.length < links.length ∧ after.length < links.length := by
  rw [(splitRoot?_eq_some h).1, List.length_append, List.length_cons]
  omega

/-- The tree of a chain, from the top. -/
def topDown (first : Operand) (links : List (Operator × Operand)) : Tree :=
  match _h : splitRoot? links with
  | some (before, (o, x), after) => o.node (topDown first before) (topDown x after)
  | none => first.tree
termination_by links.length
decreasing_by
  · exact (length_splitRoot?_lt _h).1
  · exact (length_splitRoot?_lt _h).2

def OperatorChain.tree (c : OperatorChain) : Tree := topDown c.first c.links

theorem topDown_nil (first : Operand) : topDown first [] = first.tree := by
  rw [topDown]
  rfl

/-! ## The tree of the grammar -/

theorem Operand.expressionTree (x : Operand) : ExpressionTree .factor [x.token] x.tree := by
  unfold tree
  by_cases hk : x.token.kind = .identifier
  · rw [if_pos hk]
    exact .plain (.name hk)
  · rw [if_neg hk]
    exact .plain (expressionTree_ofLiteral ((List.mem_cons.mp x.kind_mem).resolve_left hk))

theorem OperatorChain.tokens_append (first : Operand) (before : List (Operator × Operand))
    (o : Operator) (x : Operand) (after : List (Operator × Operand)) :
    tokens ⟨first, before ++ (o, x) :: after⟩ =
      tokens ⟨first, before⟩ ++ o.token :: tokens ⟨x, after⟩ := by
  simp [tokens]

/-- A chain is a simple expression with the tree from the top, and a term if there is no operator of
a sum in it. -/
theorem expressionTree_topDown (first : Operand) (links : List (Operator × Operand)) :
    ExpressionTree .simpleExpression (OperatorChain.tokens ⟨first, links⟩) (topDown first links) ∧
      ((∀ x ∈ links, ¬x.1.IsOf .additive) →
        ExpressionTree .term (OperatorChain.tokens ⟨first, links⟩) (topDown first links)) := by
  fun_induction topDown first links with
  | case1 first links before o x after h ihl ihr =>
    obtain ⟨rfl, hroot⟩ := splitRoot?_eq_some h
    rw [OperatorChain.tokens_append]
    rcases hroot with ⟨hsum, hafter⟩ | ⟨hproduct, hlinks, rfl⟩
    · refine ⟨.sum ihl.1 o.kind_eq hsum (ihr.2 hafter), fun hnone => ?_⟩
      exact absurd hsum (hnone (o, x) (by simp))
    · have hbefore : ∀ y ∈ before, ¬y.1.IsOf .additive :=
        fun y hy => hlinks y (List.mem_append_left _ hy)
      have hterm := ExpressionTree.product (ihl.2 hbefore) o.kind_eq hproduct x.expressionTree
      rw [topDown_nil]
      exact ⟨.term hterm, fun _ => hterm⟩
  | case2 first links h =>
    obtain rfl := eq_nil_of_splitRoot? h
    have hterm := ExpressionTree.factor first.expressionTree
    exact ⟨.term hterm, fun _ => hterm⟩

/-! ## The parser -/

theorem endsSum_of_notMem {k : TokenKind} (h : k ∉ additives ++ multiplicatives) : EndsSum k := by
  have hnone : ∀ level, k ∉ level.kinds → operatorOf? level k = none := by
    intro level hk
    refine Option.eq_none_iff_forall_ne_some.mpr fun op hop => hk ?_
    obtain ⟨rfl, rfl⟩ := (operatorOf?_eq_some_iff level).mp hop
    exact op.kind_mem
  obtain ⟨hsum, hproduct⟩ := not_or.mp (mt List.mem_append.mpr h)
  exact ⟨hnone .multiplicative hproduct, hnone .additive hsum⟩

theorem run_simpleExpression (c : OperatorChain) {s : TokenStream} {k : TokenKind}
    (hs : s.ahead? = some k) (hk : EndsSum k) :
    run simpleExpression (c.tokens ++ s) = (.ok c.tree, s) :=
  run_simpleExpressionWith (expressionTree_topDown c.first c.links).1.found hs hk

/-- The parser finds the tree from the top. On operands with operators between them, before a token
that is none of these operators, the rule for simple expressions consumes exactly the operands and
the operators. With a relation and a second such chain after it, an expression is the relation over
both trees, and ends there, also where another relation follows. -/
theorem run_operatorChain (tracing : Tracing) (c : OperatorChain) (s : TokenStream) (k : TokenKind)
    (hs : s.ahead? = some k) (hk : k ∉ additives ++ multiplicatives) :
    (simpleExpression tracing (c.tokens ++ s)).quiet = (.ok c.tree, s) ∧
      ∀ (l : OperatorChain) (r : Token) (op : BinaryOp), r.kind = op.kind →
        op.precedence = .relation →
        (expression tracing (l.tokens ++ cons r (c.tokens ++ s))).quiet =
          (.ok (.pair (.binary op) r.position l.tree c.tree), s) := by
  have hright := run_simpleExpression c hs (endsSum_of_notMem hk)
  refine ⟨((inert_simpleExpressionWith inert_expression).quiet_eq tracing _).trans hright,
    fun l r op hr hop => ?_⟩
  have hrelation : r.kind.relation? = some op := (operatorOf?_eq_some_iff .relation).mpr ⟨hr, hop⟩
  have hleft := run_simpleExpression l (ahead?_cons r (c.tokens ++ s)) (hr ▸ endsSum_relation hop)
  rw [inert_expression.quiet_eq]
  exact run_relation hrelation ((readable_of_ahead? hs).append c.tokens) hleft hright

/-- A number and a product are subtracted, and the result is compared, before another relation. -/
theorem run_operatorChain_relation :
    let a : Operand := ⟨⟨.identifier, "a", ⟨1, 1⟩⟩, by decide⟩
    let two : Operand := ⟨⟨.number, "2", ⟨1, 5⟩⟩, by decide⟩
    let three : Operand := ⟨⟨.number, "3", ⟨1, 9⟩⟩, by decide⟩
    let b : Operand := ⟨⟨.identifier, "b", ⟨1, 13⟩⟩, by decide⟩
    let truth : Operand := ⟨.ofKind .trueWord ⟨1, 17⟩, by decide⟩
    let minus : Position → Operator := fun p => ⟨.ofKind .minus p, .minus, rfl, by decide⟩
    let times : Operator := ⟨.ofKind .star ⟨1, 11⟩, .times, rfl, by decide⟩
    let l : OperatorChain := ⟨a, [(minus ⟨1, 3⟩, two), (minus ⟨1, 7⟩, three), (times, b)]⟩
    let c : OperatorChain := ⟨truth, []⟩
    let s : TokenStream := ofTokens [.ofKind .equal ⟨1, 22⟩] (.endOfText ⟨1, 23⟩)
    s.ahead? = some .equal ∧ .equal ∉ additives ++ multiplicatives ∧
      (Token.ofKind .less ⟨1, 15⟩).kind = BinaryOp.less.kind ∧
      BinaryOp.less.precedence = .relation ∧
      (simpleExpression .off (c.tokens ++ s)).quiet = (.ok c.tree, s) ∧
      (expression .off (l.tokens ++ cons (.ofKind .less ⟨1, 15⟩) (c.tokens ++ s))).quiet =
        (.ok (.pair (.binary .less) ⟨1, 15⟩ l.tree c.tree), s) := by
  intro a two three b truth minus times l c s
  obtain ⟨hsimple, hrelation⟩ := run_operatorChain .off c s .equal rfl (by decide)
  exact ⟨rfl, by decide, rfl, rfl, hsimple, hrelation l (.ofKind .less ⟨1, 15⟩) .less rfl rfl⟩

end Grammar

end WhileLang
