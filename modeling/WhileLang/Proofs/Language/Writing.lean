import WhileLang.Proofs.Building.Shapes
import WhileLang.Proofs.Language.WellFormed

/-!
# Writing trees

How a program is written from its tree, with every operand that is not a name or a literal in
parentheses (`writeProgram`). What is written from a well-formed tree is made of tokens that a
text can hold, and has this tree, positions apart (`WellFormed.written`).
-/

namespace WhileLang

namespace Tree

/-- The text of a leaf. -/
def spelling : Tree → String
  | node (.leaf text) _ _ _ _ => text
  | _ => ""

/-- Is this a name or a literal? -/
def isAtom : Tree → Bool
  | node .var _ _ _ _ | node .intLiteral _ _ _ _ | node .boolLiteral _ _ _ _ => true
  | _ => false

/-- Is this a declaration? -/
def isDeclaration : Tree → Bool
  | node .declaration _ _ _ _ => true
  | _ => false

end Tree

namespace Grammar

/-- A reserved word or a symbol, as it is written. -/
def mark (k : TokenKind) : Token := .ofKind k .start

/-- The tokens of an operand, given those of its tree as an expression. -/
def parenthesised (t : Tree) (us : List Token) : List Token :=
  if t.isAtom then us else mark .openParen :: (us ++ [mark .closeParen])

/-- The tokens of an expression, with every operand that is not an atom in parentheses. -/
def writeExpression : Tree → List Token
  | .nil => []
  | .node kind _ c0 c1 _ =>
    match kind with
    | .var | .boolLiteral => [.ofWord c0.spelling .start]
    | .intLiteral => [⟨.number, c0.spelling, .start⟩]
    | .negation => mark .notWord :: parenthesised c0 (writeExpression c0)
    | .binary op =>
      parenthesised c0 (writeExpression c0) ++
        mark op.kind :: parenthesised c1 (writeExpression c1)
    | _ => []

/-- The tokens of a body, of statements or of one statement. -/
def writeBody : Tree → List Token
  | .nil => []
  | .node kind _ c0 c1 c2 =>
    match kind with
    | .sequence =>
      if c0.isDeclaration then
        .ofWord (c0.child .child1).spelling .start :: .ofWord (c0.child .child0).spelling .start ::
          mark .semicolon :: writeBody c1
      else
        writeBody c0 ++ mark .semicolon :: writeBody c1
    | .assignment =>
      .ofWord (c0.child .child0).spelling .start :: mark .assign :: writeExpression c1
    | .conditional =>
      mark .ifWord :: (writeExpression c0 ++ mark .thenWord :: (writeBody c1 ++
        if c2.isNil then [mark .fiWord]
        else mark .elseWord :: (writeBody c2 ++ [mark .fiWord])))
    | .loop =>
      mark .whileWord :: (writeExpression c0 ++ mark .doWord :: (writeBody c1 ++ [mark .odWord]))
    | .print => mark .printWord :: writeExpression c0
    | _ => []

/-- The tokens of a program with this body. -/
def writeProgram (t : Tree) : List Token :=
  mark .programWord :: ⟨.identifier, "p", .start⟩ :: mark .colon ::
    (writeBody t ++ [mark .endWord])

/-! ## What is written has the tree -/

theorem ofWord_name {name : String} (h : IsName name) (p : Position) :
    Token.ofWord name p = ⟨.identifier, name, p⟩ := by
  unfold Token.ofWord
  rw [h.2]

theorem expressionTree_ofOperand {us : List Token} {t : Tree}
    (h : ExpressionTree .operand us t) : ExpressionTree .expression us t :=
  .simple (.term (.factor (.plain h)))

theorem parenthesised_atom {t : Tree} (h : t.isAtom = true) (us : List Token) :
    parenthesised t us = us := if_pos h

theorem operand_parenthesised {t u : Tree} {us : List Token} (h : t.isAtom = false)
    (hu : ExpressionTree .expression us u) :
    ExpressionTree .operand (parenthesised t us) u := by
  unfold parenthesised
  rw [if_neg (by simp [h])]
  exact .group rfl hu rfl

theorem expressionTree_binary (op : BinaryOp) {us vs : List Token} {l r : Tree}
    (hl : ExpressionTree .operand us l) (hr : ExpressionTree .operand vs r) :
    ExpressionTree .expression (us ++ mark op.kind :: vs) (.pair (.binary op) .start l r) := by
  cases hop : op.precedence with
  | relation => exact .relation (.term (.factor (.plain hl))) rfl hop (.term (.factor (.plain hr)))
  | additive => exact .simple (.sum (.term (.factor (.plain hl))) rfl hop (.factor (.plain hr)))
  | multiplicative => exact .simple (.term (.product (.factor (.plain hl)) rfl hop (.plain hr)))

/-- Both as an expression and as an operand, a tree is written so that it is found again. -/
theorem WellFormedExpression.written {t : Tree} (h : WellFormedExpression t) :
    ExpressionTree .expression (writeExpression t) t.shape ∧
      ExpressionTree .operand (parenthesised t (writeExpression t)) t.shape := by
  induction h with
  | @name name p q h =>
    have hwritten : writeExpression (.unary .var p (.leaf name q)) =
        [⟨.identifier, name, .start⟩] := congrArg (fun w => [w]) (ofWord_name h .start)
    rw [parenthesised_atom rfl, hwritten]
    exact ⟨expressionTree_ofOperand (.name rfl), .name rfl⟩
  | number h => exact ⟨expressionTree_ofOperand (.number rfl), .number rfl⟩
  | truth h =>
    rw [parenthesised_atom rfl]
    rcases h with rfl | rfl
    · exact ⟨expressionTree_ofOperand (.truth (.inl rfl)), .truth (.inl rfl)⟩
    · exact ⟨expressionTree_ofOperand (.truth (.inr rfl)), .truth (.inr rfl)⟩
  | negation h ih =>
    have hexpression := ExpressionTree.simple (.term (.factor (.signed (s := mark .notWord)
      (by decide) ih.2)))
    exact ⟨hexpression, operand_parenthesised rfl hexpression⟩
  | @binary op l r p hl hr ihl ihr =>
    have hexpression := expressionTree_binary op ihl.2 ihr.2
    exact ⟨hexpression, operand_parenthesised rfl hexpression⟩

theorem WellFormed.isDeclaration_eq_false {part : ProgramPart} {t : Tree}
    (h : WellFormed part t) : t.isDeclaration = false := by
  induction h with
  | program _ ih | statements _ ih | statement _ ih => exact ih
  | _ => rfl

theorem WellFormed.isNil_eq_false {part : ProgramPart} {t : Tree} (h : WellFormed part t) :
    t.isNil = false := by
  induction h with
  | program _ ih | statements _ ih | statement _ ih => exact ih
  | _ => rfl

/-- The tokens of a part of a program. -/
def writePart (part : ProgramPart) (t : Tree) : List Token :=
  if part = .program then writeProgram t else writeBody t

theorem exists_typeWord {type : String} (h : type = "int" ∨ type = "bool") :
    ∃ k, (k = .boolWord ∨ k = .intWord) ∧ k.text = type ∧ Token.ofWord type .start = mark k := by
  rcases h with rfl | rfl
  · exact ⟨.intWord, .inr rfl, rfl, rfl⟩
  · exact ⟨.boolWord, .inl rfl, rfl, rfl⟩

theorem writePart_declaration {name type : String} {rest : Tree} (p q q' q'' : Position) :
    writePart .body (.pair .sequence p
        (.pair .declaration q (.leaf name q') (.leaf type q'')) rest) =
      .ofWord type .start :: .ofWord name .start :: mark .semicolon :: writePart .body rest := rfl

theorem writePart_next {l r : Tree} (hl : WellFormed .statements l) (p : Position) :
    writePart .statements (.pair .sequence p l r) =
      writePart .statements l ++ mark .semicolon :: writePart .statement r := by
  change (if l.isDeclaration = true then _ else _) = _
  rw [hl.isDeclaration_eq_false]
  rfl

theorem writePart_assignment {name : String} {t : Tree} (p q q' : Position) :
    writePart .statement (.pair .assignment p (.unary .var q (.leaf name q')) t) =
      .ofWord name .start :: mark .assign :: writeExpression t := rfl

theorem writePart_alternative {c b d : Tree} (hd : WellFormed .body d) (p : Position) :
    writePart .statement (.node .conditional p c b d) =
      mark .ifWord :: (writeExpression c ++ mark .thenWord :: (writePart .body b ++
        mark .elseWord :: (writePart .body d ++ [mark .fiWord]))) := by
  change mark .ifWord :: (writeExpression c ++ mark .thenWord :: (writeBody b ++
    if d.isNil = true then _ else _)) = _
  rw [hd.isNil_eq_false]
  rfl

/-- What is written from a well-formed tree has this tree, positions apart. -/
theorem WellFormed.written {part : ProgramPart} {t : Tree} (h : WellFormed part t) :
    ProgramTree part (writePart part t) t.shape := by
  induction h with
  | program _ ih => exact .program rfl rfl rfl ih rfl
  | statements _ ih => exact .statements ih
  | declaration hn ht _ ih =>
    obtain ⟨k, hk, rfl, htype⟩ := exists_typeWord ht
    rw [writePart_declaration, htype, ofWord_name hn]
    exact .declaration (w := mark k) hk rfl rfl ih
  | statement _ ih => exact .statement ih
  | next hl _ ihl ihr =>
    rw [writePart_next hl]
    exact .next ihl rfl ihr
  | assignment hn h =>
    rw [writePart_assignment, ofWord_name hn]
    exact .assignment rfl rfl h.written.1
  | conditional hc _ ih => exact .conditional rfl hc.written.1 rfl ih rfl
  | alternative hc _ hd ihb ihd =>
    rw [writePart_alternative hd]
    exact .alternative rfl hc.written.1 rfl ihb rfl ihd rfl
  | loop hc _ ih => exact .loop rfl hc.written.1 rfl ih rfl
  | print h => exact .print rfl h.written.1

/-! ## What is written is spelled -/

theorem spelled_mark {k : TokenKind} (h : k ∈ TokenKind.keywords ∨ k ∈ TokenKind.symbols) :
    (mark k).Spelled := Token.spelled_ofKind h .start

theorem spelled_mark_operator (op : BinaryOp) : (mark op.kind).Spelled := by
  apply spelled_mark
  cases op <;> decide

theorem spelled_name {name : String} (h : IsName name) : (Token.ofWord name .start).Spelled :=
  Token.spelled_ofWord h.1 .start

theorem spelled_parenthesised (t : Tree) {us : List Token} (h : ∀ w ∈ us, w.Spelled) :
    ∀ w ∈ parenthesised t us, w.Spelled := by
  unfold parenthesised
  split
  · exact h
  · simp only [List.forall_mem_cons, List.forall_mem_append]
    exact ⟨spelled_mark (by decide), h, spelled_mark (by decide), nofun⟩

theorem WellFormedExpression.spelled {t : Tree} (h : WellFormedExpression t) :
    ∀ w ∈ writeExpression t, w.Spelled := by
  induction h with
  | name h => exact List.forall_mem_singleton.mpr (spelled_name h)
  | number h => exact List.forall_mem_singleton.mpr h
  | truth h =>
    refine List.forall_mem_singleton.mpr ?_
    rcases h with rfl | rfl
    · exact spelled_mark (k := .trueWord) (by decide)
    · exact spelled_mark (k := .falseWord) (by decide)
  | negation _ ih =>
    exact List.forall_mem_cons.mpr ⟨spelled_mark (by decide), spelled_parenthesised _ ih⟩
  | @binary op l r p _ _ ihl ihr =>
    refine List.forall_mem_append.mpr ⟨spelled_parenthesised l ihl, ?_⟩
    exact List.forall_mem_cons.mpr ⟨spelled_mark_operator op, spelled_parenthesised r ihr⟩

/-- What is written from a well-formed tree can stand in a text. -/
theorem WellFormed.spelled {part : ProgramPart} {t : Tree} (h : WellFormed part t) :
    ∀ w ∈ writePart part t, w.Spelled := by
  induction h with
  | @program t _ ih =>
    change ∀ w ∈ mark .programWord :: ⟨.identifier, "p", .start⟩ :: mark .colon ::
      (writePart .body t ++ [mark .endWord]), w.Spelled
    simp only [List.forall_mem_cons, List.forall_mem_append]
    have hname : IsName "p" := ⟨by decide, by decide⟩
    exact ⟨spelled_mark (by decide), hname, spelled_mark (by decide), ih, spelled_mark (by decide),
      nofun⟩
  | statements _ ih | statement _ ih => exact ih
  | declaration hn ht _ ih =>
    obtain ⟨k, hk, -, htype⟩ := exists_typeWord ht
    rw [writePart_declaration, htype]
    simp only [List.forall_mem_cons]
    refine ⟨spelled_mark ?_, spelled_name hn, spelled_mark (by decide), ih⟩
    rcases hk with rfl | rfl <;> decide
  | next hl _ ihl ihr =>
    rw [writePart_next hl]
    simp only [List.forall_mem_cons, List.forall_mem_append]
    exact ⟨ihl, spelled_mark (by decide), ihr⟩
  | assignment hn h =>
    rw [writePart_assignment]
    simp only [List.forall_mem_cons]
    exact ⟨spelled_name hn, spelled_mark (by decide), h.spelled⟩
  | @conditional c b p hc _ ih =>
    change ∀ w ∈ mark .ifWord :: (writeExpression c ++ mark .thenWord ::
      (writePart .body b ++ [mark .fiWord])), w.Spelled
    simp only [List.forall_mem_cons, List.forall_mem_append]
    exact ⟨spelled_mark (by decide), hc.spelled, spelled_mark (by decide), ih,
      spelled_mark (by decide), nofun⟩
  | alternative hc _ hd ihb ihd =>
    rw [writePart_alternative hd]
    simp only [List.forall_mem_cons, List.forall_mem_append]
    exact ⟨spelled_mark (by decide), hc.spelled, spelled_mark (by decide), ihb,
      spelled_mark (by decide), ihd, spelled_mark (by decide), nofun⟩
  | @loop c b p hc _ ih =>
    change ∀ w ∈ mark .whileWord :: (writeExpression c ++ mark .doWord ::
      (writePart .body b ++ [mark .odWord])), w.Spelled
    simp only [List.forall_mem_cons, List.forall_mem_append]
    exact ⟨spelled_mark (by decide), hc.spelled, spelled_mark (by decide), ih,
      spelled_mark (by decide), nofun⟩
  | print h => exact List.forall_mem_cons.mpr ⟨spelled_mark (by decide), h.spelled⟩

end Grammar

end WhileLang
