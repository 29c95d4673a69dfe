import WhileLang.Proofs.Language.Trees
import WhileLang.Proofs.Lexing.Spelling

/-!
# Well-formed trees

Which trees are programs, without a look at tokens (`WellFormed`). Tokens that a text can hold
have no other trees (`ProgramTree.wellFormed`).
-/

namespace WhileLang

namespace Grammar

/-! ## Well-formed trees -/

/-- A word that is not reserved. -/
def IsName (name : String) : Prop := IsWord name.toList ∧ TokenKind.keyword? name = none

/-- One or more digits. -/
def IsNumeral (digits : String) : Prop :=
  digits ≠ "" ∧ ∀ c ∈ digits.toList, c.isDigit = true

/-- The tree of an expression. -/
inductive WellFormedExpression : Tree → Prop where
  | name {name : String} {p q : Position} (h : IsName name) :
      WellFormedExpression (.unary .var p (.leaf name q))
  | number {digits : String} {p q : Position} (h : IsNumeral digits) :
      WellFormedExpression (.unary .intLiteral p (.leaf digits q))
  | truth {word : String} {p q : Position} (h : word = "true" ∨ word = "false") :
      WellFormedExpression (.unary .boolLiteral p (.leaf word q))
  | negation {t : Tree} {p : Position} (h : WellFormedExpression t) :
      WellFormedExpression (.unary .negation p t)
  | binary {op : BinaryOp} {l r : Tree} {p : Position} (hl : WellFormedExpression l)
      (hr : WellFormedExpression r) : WellFormedExpression (.pair (.binary op) p l r)

/-- The tree of a part of a program. A body is a chain of declarations through the second slot
that ends in statements, and statements are a chain through the first slot. -/
inductive WellFormed : ProgramPart → Tree → Prop where
  | program {t : Tree} (h : WellFormed .body t) : WellFormed .program t
  | statements {t : Tree} (h : WellFormed .statements t) : WellFormed .body t
  | declaration {name type : String} {rest : Tree} {p q q' q'' : Position} (hn : IsName name)
      (ht : type = "int" ∨ type = "bool") (h : WellFormed .body rest) :
      WellFormed .body
        (.pair .sequence p (.pair .declaration q (.leaf name q') (.leaf type q'')) rest)
  | statement {t : Tree} (h : WellFormed .statement t) : WellFormed .statements t
  | next {l r : Tree} {p : Position} (hl : WellFormed .statements l)
      (hr : WellFormed .statement r) : WellFormed .statements (.pair .sequence p l r)
  | assignment {name : String} {t : Tree} {p q q' : Position} (hn : IsName name)
      (h : WellFormedExpression t) :
      WellFormed .statement (.pair .assignment p (.unary .var q (.leaf name q')) t)
  | conditional {c b : Tree} {p : Position} (hc : WellFormedExpression c)
      (hb : WellFormed .body b) : WellFormed .statement (.pair .conditional p c b)
  | alternative {c b d : Tree} {p : Position} (hc : WellFormedExpression c)
      (hb : WellFormed .body b) (hd : WellFormed .body d) :
      WellFormed .statement (.node .conditional p c b d)
  | loop {c b : Tree} {p : Position} (hc : WellFormedExpression c) (hb : WellFormed .body b) :
      WellFormed .statement (.pair .loop p c b)
  | print {t : Tree} {p : Position} (h : WellFormedExpression t) :
      WellFormed .statement (.unary .print p t)

/-! ## Trees of tokens are well-formed -/

theorem isName_value {w : Token} (h : w.Spelled) (hk : w.kind = .identifier) :
    IsName w.value := by
  unfold Token.Spelled at h
  rw [hk] at h
  exact h

theorem isNumeral_value {w : Token} (h : w.Spelled) (hk : w.kind = .number) :
    IsNumeral w.value := by
  unfold Token.Spelled at h
  rw [hk] at h
  exact h

theorem ExpressionTree.wellFormed {part : ExpressionPart} {us : List Token} {t : Tree}
    (h : ExpressionTree part us t) (hus : ∀ w ∈ us, w.Spelled) : WellFormedExpression t := by
  induction h with
  | @number w hw => exact .number (isNumeral_value (hus w (by simp)) hw)
  | truth hw =>
    refine .truth ?_
    rcases hw with hw | hw
    · exact .inl (by rw [hw]; rfl)
    · exact .inr (by rw [hw]; rfl)
  | @name w hw => exact .name (isName_value (hus w (by simp)) hw)
  | group _ _ _ ih => exact ih fun w hw => hus w (by simp [hw])
  | plain _ ih | factor _ ih | term _ ih | simple _ ih => exact ih hus
  | signed _ _ ih => exact .negation (ih fun w hw => hus w (by simp [hw]))
  | product _ _ _ _ ihl ihr | sum _ _ _ _ ihl ihr | relation _ _ _ _ ihl ihr =>
    exact .binary (ihl fun w hw => hus w (by simp [hw])) (ihr fun w hw => hus w (by simp [hw]))

/-- The trees of tokens that a text can hold are well-formed. -/
theorem ProgramTree.wellFormed {part : ProgramPart} {us : List Token} {t : Tree}
    (h : ProgramTree part us t) (hus : ∀ w ∈ us, w.Spelled) : WellFormed part t := by
  induction h with
  | program _ _ _ _ _ ih => exact .program (ih fun w hw => hus w (by simp [hw]))
  | statements _ ih => exact .statements (ih hus)
  | @declaration w n s us t hw hn hs _ ih =>
    refine .declaration (isName_value (hus n (by simp)) hn) ?_ (ih fun w hw => hus w (by simp [hw]))
    rcases hw with hw | hw
    · exact .inr (by rw [hw]; rfl)
    · exact .inl (by rw [hw]; rfl)
  | statement _ ih => exact .statement (ih hus)
  | next _ _ _ ihl ihr =>
    exact .next (ihl fun w hw => hus w (by simp [hw])) (ihr fun w hw => hus w (by simp [hw]))
  | @assignment n s us t hn hs h =>
    exact .assignment (isName_value (hus n (by simp)) hn)
      (h.wellFormed fun w hw => hus w (by simp [hw]))
  | conditional _ hc _ _ _ ih =>
    exact .conditional (hc.wellFormed fun w hw => hus w (by simp [hw]))
      (ih fun w hw => hus w (by simp [hw]))
  | alternative _ hc _ _ _ _ _ ihb ihd =>
    exact .alternative (hc.wellFormed fun w hw => hus w (by simp [hw]))
      (ihb fun w hw => hus w (by simp [hw])) (ihd fun w hw => hus w (by simp [hw]))
  | loop _ hc _ _ _ ih =>
    exact .loop (hc.wellFormed fun w hw => hus w (by simp [hw]))
      (ih fun w hw => hus w (by simp [hw]))
  | print _ h => exact .print (h.wellFormed fun w hw => hus w (by simp [hw]))

end Grammar

end WhileLang
