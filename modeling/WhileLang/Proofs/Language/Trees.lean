import WhileLang.Tree.Basic
import WhileLang.Proofs.Language.Grammar

/-!
# The trees of the language

Which tree a sequence of tokens stands for, positions included. `ExpressionTree` and
`ProgramTree` say it by one clause for each form of the language; operators of one level group
to the left, and so do statements, while a declaration holds all that follows it in its body.
-/

namespace WhileLang

/-! ## Operators -/

/-- How tightly an operator binds. -/
inductive Precedence where
  | relation | additive | multiplicative
deriving DecidableEq, Repr

namespace BinaryOp

/-- The level of an operator. -/
def precedence : BinaryOp → Precedence
  | less | lessEqual | equal | notEqual | greaterEqual | greater => .relation
  | plus | minus | or => .additive
  | times | divide | and => .multiplicative

/-- How an operator is written. -/
def kind : BinaryOp → TokenKind
  | less => .less
  | lessEqual => .lessEqual
  | equal => .equal
  | notEqual => .notEqual
  | greaterEqual => .greaterEqual
  | greater => .greater
  | plus => .plus
  | minus => .minus
  | or => .orWord
  | times => .star
  | divide => .slash
  | and => .andWord

end BinaryOp

/-- The operators of a level, as the grammar lists them. -/
def Precedence.kinds : Precedence → List TokenKind
  | relation => Grammar.relations
  | additive => Grammar.additives
  | multiplicative => Grammar.multiplicatives

theorem BinaryOp.kind_mem (op : BinaryOp) : op.kind ∈ op.precedence.kinds := by
  cases op <;> decide

theorem Precedence.exists_operator {p : Precedence} {k : TokenKind} (h : k ∈ p.kinds) :
    ∃ op : BinaryOp, op.kind = k ∧ op.precedence = p := by
  cases p <;> simp only [kinds, Grammar.relations, Grammar.additives, Grammar.multiplicatives,
    List.mem_cons, List.not_mem_nil, or_false] at h
  · rcases h with rfl | rfl | rfl | rfl | rfl | rfl
    · exact ⟨.less, rfl, rfl⟩
    · exact ⟨.lessEqual, rfl, rfl⟩
    · exact ⟨.equal, rfl, rfl⟩
    · exact ⟨.notEqual, rfl, rfl⟩
    · exact ⟨.greaterEqual, rfl, rfl⟩
    · exact ⟨.greater, rfl, rfl⟩
  · rcases h with rfl | rfl | rfl
    · exact ⟨.plus, rfl, rfl⟩
    · exact ⟨.minus, rfl, rfl⟩
    · exact ⟨.or, rfl, rfl⟩
  · rcases h with rfl | rfl | rfl
    · exact ⟨.times, rfl, rfl⟩
    · exact ⟨.divide, rfl, rfl⟩
    · exact ⟨.and, rfl, rfl⟩

namespace Grammar

/-! ## Expressions -/

/-- The parts of an expression. An operand is a factor without its sign. -/
inductive ExpressionPart where
  | expression | simpleExpression | term | factor | operand
deriving DecidableEq, Repr

/-- The tokens are an expression, or a part of one, with this tree. -/
inductive ExpressionTree : ExpressionPart → List Token → Tree → Prop where
  | number {w : Token} (hw : w.kind = .number) :
      ExpressionTree .operand [w] (.unary .intLiteral w.position (.leaf w.value w.position))
  | truth {w : Token} (hw : w.kind = .trueWord ∨ w.kind = .falseWord) :
      ExpressionTree .operand [w] (.unary .boolLiteral w.position (.leaf w.kind.text w.position))
  | name {w : Token} (hw : w.kind = .identifier) :
      ExpressionTree .operand [w] (.unary .var w.position (.leaf w.value w.position))
  | group {o c : Token} {us : List Token} {t : Tree} (ho : o.kind = .openParen)
      (h : ExpressionTree .expression us t) (hc : c.kind = .closeParen) :
      ExpressionTree .operand (o :: (us ++ [c])) t
  | plain {us : List Token} {t : Tree} (h : ExpressionTree .operand us t) :
      ExpressionTree .factor us t
  | signed {s : Token} {us : List Token} {t : Tree} (hs : s.kind ∈ signs)
      (h : ExpressionTree .operand us t) :
      ExpressionTree .factor (s :: us) (.unary .negation s.position t)
  | factor {us : List Token} {t : Tree} (h : ExpressionTree .factor us t) :
      ExpressionTree .term us t
  | product {o : Token} {op : BinaryOp} {us vs : List Token} {l r : Tree}
      (hl : ExpressionTree .term us l) (ho : o.kind = op.kind)
      (hop : op.precedence = .multiplicative) (hr : ExpressionTree .factor vs r) :
      ExpressionTree .term (us ++ o :: vs) (.pair (.binary op) o.position l r)
  | term {us : List Token} {t : Tree} (h : ExpressionTree .term us t) :
      ExpressionTree .simpleExpression us t
  | sum {o : Token} {op : BinaryOp} {us vs : List Token} {l r : Tree}
      (hl : ExpressionTree .simpleExpression us l) (ho : o.kind = op.kind)
      (hop : op.precedence = .additive) (hr : ExpressionTree .term vs r) :
      ExpressionTree .simpleExpression (us ++ o :: vs) (.pair (.binary op) o.position l r)
  | simple {us : List Token} {t : Tree} (h : ExpressionTree .simpleExpression us t) :
      ExpressionTree .expression us t
  | relation {o : Token} {op : BinaryOp} {us vs : List Token} {l r : Tree}
      (hl : ExpressionTree .simpleExpression us l) (ho : o.kind = op.kind)
      (hop : op.precedence = .relation) (hr : ExpressionTree .simpleExpression vs r) :
      ExpressionTree .expression (us ++ o :: vs) (.pair (.binary op) o.position l r)

/-! ## Programs -/

/-- The parts of a program above its expressions. -/
inductive ProgramPart where
  | program | body | statements | statement
deriving DecidableEq, Repr

/-- The tokens are a program, or a part of one, with this tree. -/
inductive ProgramTree : ProgramPart → List Token → Tree → Prop where
  | program {w n c e : Token} {us : List Token} {t : Tree} (hw : w.kind = .programWord)
      (hn : n.kind = .identifier) (hc : c.kind = .colon) (h : ProgramTree .body us t)
      (he : e.kind = .endWord) : ProgramTree .program (w :: n :: c :: (us ++ [e])) t
  | statements {us : List Token} {t : Tree} (h : ProgramTree .statements us t) :
      ProgramTree .body us t
  | declaration {w n s : Token} {us : List Token} {t : Tree}
      (hw : w.kind = .boolWord ∨ w.kind = .intWord) (hn : n.kind = .identifier)
      (hs : s.kind = .semicolon) (h : ProgramTree .body us t) :
      ProgramTree .body (w :: n :: s :: us)
        (.pair .sequence s.position
          (.pair .declaration w.position (.leaf n.value n.position)
            (.leaf w.kind.text w.position)) t)
  | statement {us : List Token} {t : Tree} (h : ProgramTree .statement us t) :
      ProgramTree .statements us t
  | next {s : Token} {us vs : List Token} {l r : Tree} (hl : ProgramTree .statements us l)
      (hs : s.kind = .semicolon) (hr : ProgramTree .statement vs r) :
      ProgramTree .statements (us ++ s :: vs) (.pair .sequence s.position l r)
  | assignment {n s : Token} {us : List Token} {t : Tree} (hn : n.kind = .identifier)
      (hs : s.kind = .assign) (h : ExpressionTree .expression us t) :
      ProgramTree .statement (n :: s :: us)
        (.pair .assignment s.position
          (.unary .var n.position (.leaf n.value n.position)) t)
  | conditional {i w f : Token} {us vs : List Token} {c b : Tree} (hi : i.kind = .ifWord)
      (hc : ExpressionTree .expression us c) (hw : w.kind = .thenWord)
      (hb : ProgramTree .body vs b) (hf : f.kind = .fiWord) :
      ProgramTree .statement (i :: (us ++ w :: (vs ++ [f])))
        (.pair .conditional i.position c b)
  | alternative {i w e f : Token} {us vs ws : List Token} {c b d : Tree}
      (hi : i.kind = .ifWord) (hc : ExpressionTree .expression us c) (hw : w.kind = .thenWord)
      (hb : ProgramTree .body vs b) (he : e.kind = .elseWord) (hd : ProgramTree .body ws d)
      (hf : f.kind = .fiWord) :
      ProgramTree .statement (i :: (us ++ w :: (vs ++ e :: (ws ++ [f]))))
        (.node .conditional i.position c b d)
  | loop {w d o : Token} {us vs : List Token} {c b : Tree} (hw : w.kind = .whileWord)
      (hc : ExpressionTree .expression us c) (hd : d.kind = .doWord)
      (hb : ProgramTree .body vs b) (ho : o.kind = .odWord) :
      ProgramTree .statement (w :: (us ++ d :: (vs ++ [o]))) (.pair .loop w.position c b)
  | print {w : Token} {us : List Token} {t : Tree} (hw : w.kind = .printWord)
      (h : ExpressionTree .expression us t) :
      ProgramTree .statement (w :: us) (.unary .print w.position t)

/-- No part of a program has the empty tree. -/
theorem ProgramTree.ne_nil {part : ProgramPart} {us : List Token} {t : Tree}
    (h : ProgramTree part us t) : t ≠ .nil := by
  induction h with
  | program _ _ _ _ _ ih | statements _ ih | statement _ ih => exact ih
  | _ => exact Tree.noConfusion

end Grammar

end WhileLang
