import Mathlib.Data.List.Induction
import WhileLang.Proofs.Language.Sentences

/-!
# What can stand next to what

Going along a sentence, one place is told from another by the token before it: whether it ends an
operand, is a sign before an operand, or is something else (`Place`). No program has an identifier
right after an operand, nor a sign right after a sign before an operand (`Sentence.orderly`).

* `AfterPrefix`: the tokens end with a sign before an operand.
* `not_viable_sign`: no program goes on with a sign there.
* `Derives.exists_operation`: every expression goes on with every operator of a sum or a product.
-/

namespace WhileLang

namespace Grammar

/-! ## Places -/

/-- The kinds that an operand can end with. -/
def operandEnds : List TokenKind := [.identifier, .number, .trueWord, .falseWord, .closeParen]

/-- What stands before a place. -/
inductive Place where
  | afterOperand
  /-- After a sign before an operand. -/
  | afterSign
  | elsewhere
deriving DecidableEq, Repr

namespace Place

/-- The place after one token more. A minus right after an operand is no sign. -/
def next (p : Place) (k : TokenKind) : Place :=
  if k ∈ operandEnds then .afterOperand
  else if k = .notWord ∨ k = .minus ∧ p ≠ .afterOperand then .afterSign
  else .elsewhere

def nextAll (p : Place) (ks : List TokenKind) : Place := ks.foldl next p

/-- No identifier stands right after an operand, and no sign right after a sign. -/
def Allows : Place → TokenKind → Prop
  | afterOperand, k => k ≠ .identifier
  | afterSign, k => k ∉ signs
  | elsewhere, _ => True

theorem nextAll_append (p : Place) (ks ls : List TokenKind) :
    p.nextAll (ks ++ ls) = (p.nextAll ks).nextAll ls := List.foldl_append

theorem next_eq_afterOperand_iff (p : Place) (k : TokenKind) :
    p.next k = .afterOperand ↔ k ∈ operandEnds := by
  unfold next
  by_cases hk : k ∈ operandEnds
  · simp [hk]
  · rw [if_neg hk]
    split <;> simp [hk]

/-- An operand has just ended if and only if the last token is one that operands end with. -/
theorem nextAll_eq_afterOperand_iff (ks : List TokenKind) :
    elsewhere.nextAll ks = .afterOperand ↔ ∃ k, ks.getLast? = some k ∧ k ∈ operandEnds := by
  induction ks using List.reverseRecOn with
  | nil => simp [nextAll]
  | append_singleton ks k =>
    rw [nextAll_append, List.getLast?_concat]
    show (elsewhere.nextAll ks).next k = _ ↔ _
    rw [next_eq_afterOperand_iff]
    simp

theorem next_separator {p : Place} {k : TokenKind} (hk : k ∉ operandEnds) (hsign : k ∉ signs) :
    p.next k = .elsewhere := by
  unfold next
  rw [if_neg hk, if_neg]
  rintro (rfl | ⟨rfl, -⟩) <;> exact hsign (by decide)

theorem next_sign {p : Place} {k : TokenKind} (hk : k ∈ signs) (hp : p ≠ .afterOperand) :
    p.next k = .afterSign := by
  simp only [signs, List.mem_cons, List.not_mem_nil, or_false] at hk
  unfold next
  rcases hk with rfl | rfl
  · rw [if_neg (by decide), if_pos (.inr ⟨rfl, hp⟩)]
  · rw [if_neg (by decide), if_pos (.inl rfl)]

end Place

/-- All tokens stand where they are allowed to, from a place on. -/
def Orderly : Place → List TokenKind → Prop
  | _, [] => True
  | p, k :: ks => p.Allows k ∧ Orderly (p.next k) ks

theorem orderly_append {p : Place} {ks ls : List TokenKind} :
    Orderly p (ks ++ ls) ↔ Orderly p ks ∧ Orderly (p.nextAll ks) ls := by
  induction ks generalizing p with
  | nil => simp [Orderly, Place.nextAll]
  | cons k ks ih =>
    rw [List.cons_append, Orderly, ih, Orderly, and_assoc]
    rfl

/-- A word that neither ends an operand nor is a sign can stand everywhere. -/
theorem orderly_separator {p : Place} {k : TokenKind} {ks : List TokenKind}
    (hk : k ∉ operandEnds) (hsign : k ∉ signs) (h : Orderly .elsewhere ks) :
    Orderly p (k :: ks) := by
  have hname : k ≠ .identifier := by
    rintro rfl
    exact hk (by decide)
  refine ⟨?_, by rwa [Place.next_separator hk hsign]⟩
  cases p with
  | afterOperand => exact hname
  | afterSign => exact hsign
  | elsewhere => trivial

/-! ## Sentences are orderly -/

/-- The tokens of an operand or a greater part of an expression can stand at a place, and after them
an operand has ended. -/
structure Fills (p : Place) (us : List Token) : Prop where
  orderly : Orderly p (us.map Token.kind)
  nextAll_eq : p.nextAll (us.map Token.kind) = .afterOperand

theorem Fills.append_operator {p : Place} {o : Token} {op : BinaryOp} {us vs : List Token}
    (hl : Fills p us) (ho : o.kind = op.kind) (hr : Fills .elsewhere vs) :
    Fills p (us ++ o :: vs) := by
  have hallows : Place.afterOperand.Allows op.kind := by cases op <;> exact TokenKind.noConfusion
  have hnext : Place.afterOperand.next op.kind = .elsewhere := by cases op <;> rfl
  constructor
  · rw [List.map_append, List.map_cons, orderly_append, hl.nextAll_eq, ho]
    refine ⟨hl.orderly, hallows, ?_⟩
    rw [hnext]
    exact hr.orderly
  · rw [List.map_append, List.map_cons, Place.nextAll_append, hl.nextAll_eq, ho]
    show (Place.afterOperand.next op.kind).nextAll _ = _
    rw [hnext]
    exact hr.nextAll_eq

/-- A word that operands end with is an operand. -/
theorem fills_word {p : Place} {w : Token} {k : TokenKind} (hw : w.kind = k)
    (hk : k ∈ operandEnds) (hp : p ≠ .afterOperand) : Fills p [w] := by
  have hsign : k ∉ signs := by
    have hnone : ∀ k ∈ operandEnds, k ∉ signs := by decide
    exact hnone k hk
  subst hw
  refine ⟨⟨?_, trivial⟩, (Place.next_eq_afterOperand_iff p w.kind).mpr hk⟩
  cases p with
  | afterOperand => exact absurd rfl hp
  | afterSign => exact hsign
  | elsewhere => trivial

theorem fills_group {p : Place} {o c : Token} {us : List Token} (ho : o.kind = .openParen)
    (h : Fills .elsewhere us) (hc : c.kind = .closeParen) : Fills p (o :: (us ++ [c])) := by
  constructor
  · rw [List.map_cons, ho]
    refine orderly_separator (by decide) (by decide) ?_
    rw [List.map_append, orderly_append, h.nextAll_eq]
    refine ⟨h.orderly, ?_, trivial⟩
    rw [hc]
    exact TokenKind.noConfusion
  · rw [List.map_cons, List.map_append, ho]
    show (p.next .openParen).nextAll _ = _
    rw [Place.next_separator (by decide) (by decide), Place.nextAll_append, h.nextAll_eq]
    exact (Place.next_eq_afterOperand_iff _ _).mpr (by rw [hc]; decide)

/-- An operand may also stand after a sign, a greater part of an expression may not. -/
theorem ExpressionTree.fills {part : ExpressionPart} {us : List Token} {t : Tree}
    (h : ExpressionTree part us t) :
    Fills .elsewhere us ∧ (part = .operand → Fills .afterSign us) := by
  induction h with
  | number hw | name hw =>
    exact ⟨fills_word hw (by decide) (by decide), fun _ => fills_word hw (by decide) (by decide)⟩
  | truth hw =>
    rcases hw with hw | hw
    all_goals
      exact ⟨fills_word hw (by decide) (by decide), fun _ => fills_word hw (by decide) (by decide)⟩
  | group ho _ hc ih => exact ⟨fills_group ho ih.1 hc, fun _ => fills_group ho ih.1 hc⟩
  | plain _ ih | factor _ ih | term _ ih | simple _ ih => exact ⟨ih.1, nofun⟩
  | @signed s us t hs _ ih =>
    obtain ⟨hordered, hnext⟩ := ih.2 rfl
    have hplace : Place.elsewhere.next s.kind = .afterSign := Place.next_sign hs (by decide)
    refine ⟨⟨⟨trivial, ?_⟩, ?_⟩, nofun⟩
    · rw [hplace]
      exact hordered
    · show (Place.elsewhere.next s.kind).nextAll _ = _
      rw [hplace]
      exact hnext
  | product _ ho _ _ ihl ihr | sum _ ho _ _ ihl ihr | relation _ ho _ _ ihl ihr =>
    exact ⟨ihl.1.append_operator ho ihr.1, nofun⟩

/-- A name after a word that is none. -/
theorem orderly_name {k : TokenKind} {ks : List TokenKind} (hk : k ∉ operandEnds)
    (hsign : k ∉ signs) (h : Orderly .elsewhere ks) :
    Orderly .elsewhere (.identifier :: k :: ks) :=
  ⟨trivial, orderly_separator hk hsign h⟩

theorem orderly_append_separator {p : Place} {k : TokenKind} {ks ls : List TokenKind}
    (h : Orderly p ks) (hk : k ∉ operandEnds) (hsign : k ∉ signs) (h' : Orderly .elsewhere ls) :
    Orderly p (ks ++ k :: ls) :=
  orderly_append.mpr ⟨h, orderly_separator hk hsign h'⟩

theorem ProgramTree.orderly {part : ProgramPart} {us : List Token} {t : Tree}
    (h : ProgramTree part us t) : Orderly .elsewhere (us.map Token.kind) := by
  induction h with
  | program hw hn hc _ he ih =>
    simp only [List.map_cons, List.map_append, List.map_nil, hw, hn, hc, he]
    refine orderly_separator (by decide) (by decide) (orderly_name (by decide) (by decide) ?_)
    exact orderly_append_separator ih (by decide) (by decide) trivial
  | statements _ ih | statement _ ih => exact ih
  | @declaration w _ _ _ _ hw hn hs _ ih =>
    simp only [List.map_cons, hn, hs]
    have hbody := orderly_name (k := .semicolon) (by decide) (by decide) ih
    rcases hw with hw | hw <;> rw [hw] <;> exact orderly_separator (by decide) (by decide) hbody
  | next _ hs _ ihl ihr =>
    simp only [List.map_append, List.map_cons, hs]
    exact orderly_append_separator ihl (by decide) (by decide) ihr
  | assignment hn hs h =>
    simp only [List.map_cons, hn, hs]
    exact orderly_name (by decide) (by decide) h.fills.1.orderly
  | conditional hi hc hw _ hf ih =>
    simp only [List.map_cons, List.map_append, List.map_nil, hi, hw, hf]
    refine orderly_separator (by decide) (by decide) ?_
    refine orderly_append_separator hc.fills.1.orderly (by decide) (by decide) ?_
    exact orderly_append_separator ih (by decide) (by decide) trivial
  | alternative hi hc hw _ he _ hf ihb ihd =>
    simp only [List.map_cons, List.map_append, List.map_nil, hi, hw, he, hf]
    refine orderly_separator (by decide) (by decide) ?_
    refine orderly_append_separator hc.fills.1.orderly (by decide) (by decide) ?_
    refine orderly_append_separator ihb (by decide) (by decide) ?_
    exact orderly_append_separator ihd (by decide) (by decide) trivial
  | loop hw hc hd _ ho ih =>
    simp only [List.map_cons, List.map_append, List.map_nil, hw, hd, ho]
    refine orderly_separator (by decide) (by decide) ?_
    refine orderly_append_separator hc.fills.1.orderly (by decide) (by decide) ?_
    exact orderly_append_separator ih (by decide) (by decide) trivial
  | print hw h =>
    simp only [List.map_cons, hw]
    exact orderly_separator (by decide) (by decide) h.fills.1.orderly

theorem Sentence.orderly {ks : List TokenKind} (h : Sentence ks) : Orderly .elsewhere ks := by
  obtain ⟨us, rfl⟩ := exists_tokens ks
  obtain ⟨t, ht⟩ := h.exists_tree
  exact ht.orderly

theorem Viable.orderly {ks : List TokenKind} (h : Viable ks) : Orderly .elsewhere ks := by
  obtain ⟨more, hmore⟩ := h
  exact (orderly_append.mp hmore.orderly).1

/-! ## Signs before operands -/

/-- The last of these kinds is a sign before an operand: the word for the negation, or a minus that
does not stand right after an operand. -/
def AfterPrefix (ks : List TokenKind) : Prop :=
  ∃ js s, ks = js ++ [s] ∧
    (s = .notWord ∨ s = .minus ∧ ∀ k, js.getLast? = some k → k ∉ operandEnds)

theorem AfterPrefix.nextAll_eq {ks : List TokenKind} (h : AfterPrefix ks) :
    Place.elsewhere.nextAll ks = .afterSign := by
  obtain ⟨js, s, rfl, hs⟩ := h
  rw [Place.nextAll_append]
  show (Place.elsewhere.nextAll js).next s = _
  rcases hs with rfl | ⟨rfl, hlast⟩
  · unfold Place.next
    rw [if_neg (by decide), if_pos (.inl rfl)]
  · apply Place.next_sign (by decide)
    intro hplace
    obtain ⟨k, hk, hends⟩ := (Place.nextAll_eq_afterOperand_iff js).mp hplace
    exact hlast k hk hends

/-- No program has a second sign there. -/
theorem not_viable_sign {ks : List TokenKind} {k : TokenKind} (h : AfterPrefix ks)
    (hk : k ∈ signs) : ¬Viable (ks ++ [k]) := by
  intro hviable
  obtain ⟨-, hallows, -⟩ := orderly_append.mp hviable.orderly
  rw [h.nextAll_eq] at hallows
  exact hallows hk

/-- A sign where an identifier could stand is a sign before an operand. -/
theorem afterPrefix_of_viable {js : List TokenKind} {s : TokenKind}
    (h : Viable (js ++ [.identifier])) (hs : s ∈ signs) : AfterPrefix (js ++ [s]) := by
  refine ⟨js, s, rfl, ?_⟩
  simp only [signs, List.mem_cons, List.not_mem_nil, or_false] at hs
  rcases hs with rfl | rfl
  · refine .inr ⟨rfl, fun k hk hends => ?_⟩
    obtain ⟨-, hallows, -⟩ := orderly_append.mp h.orderly
    rw [(Place.nextAll_eq_afterOperand_iff js).mpr ⟨k, hk, hends⟩] at hallows
    exact hallows rfl
  · exact .inl rfl

/-! ## Operators after an expression -/

theorem exists_term : ∃ us t, ExpressionTree .term us t :=
  ⟨[⟨.number, "", .start⟩], _, .factor (.plain (.number rfl))⟩

/-- A term goes on with an operator of a product. -/
theorem ExpressionTree.exists_product {us : List Token} {t : Tree} {op : BinaryOp}
    (h : ExpressionTree .term us t) (hop : op.precedence = .multiplicative) :
    ∃ vs t', ExpressionTree .term (us ++ .ofKind op.kind .start :: vs) t' :=
  ⟨[⟨.number, "", .start⟩], _, h.product rfl hop (.plain (.number rfl))⟩

/-- A sum goes on with an operator of a sum, and its last term with one of a product. -/
theorem ExpressionTree.exists_sum {us : List Token} {t : Tree} {op : BinaryOp}
    (h : ExpressionTree .simpleExpression us t) (hop : op.precedence ≠ .relation) :
    ∃ vs t', ExpressionTree .simpleExpression (us ++ .ofKind op.kind .start :: vs) t' := by
  cases hlevel : op.precedence with
  | relation => exact absurd hlevel hop
  | additive =>
    obtain ⟨vs, r, hr⟩ := exists_term
    exact ⟨vs, _, h.sum rfl hlevel hr⟩
  | multiplicative =>
    cases h with
    | term h =>
      obtain ⟨vs, t', ht'⟩ := h.exists_product hlevel
      exact ⟨vs, t', .term ht'⟩
    | sum hl ho hop' hr =>
      obtain ⟨vs, r', hr'⟩ := hr.exists_product hlevel
      exact ⟨vs, _, by simpa using hl.sum ho hop' hr'⟩

theorem ExpressionTree.exists_expression {us : List Token} {t : Tree} {op : BinaryOp}
    (h : ExpressionTree .expression us t) (hop : op.precedence ≠ .relation) :
    ∃ vs t', ExpressionTree .expression (us ++ .ofKind op.kind .start :: vs) t' := by
  cases h with
  | simple h =>
    obtain ⟨vs, t', ht'⟩ := h.exists_sum hop
    exact ⟨vs, t', .simple ht'⟩
  | relation hl ho hop' hr =>
    obtain ⟨vs, r', hr'⟩ := hr.exists_sum hop
    exact ⟨vs, _, by simpa using hl.relation ho hop' hr'⟩

/-- An expression goes on with every operator but a relation. -/
theorem Derives.exists_operation {ks : List TokenKind} {op : BinaryOp}
    (h : Derives (.rule .expression) ks) (hop : op.precedence ≠ .relation) :
    ∃ ls, Derives (.rule .expression) (ks ++ op.kind :: ls) := by
  obtain ⟨us, rfl⟩ := exists_tokens ks
  obtain ⟨t, ht⟩ : ∃ t, ExpressionTree .expression us t := h.meets translates_of_meets us rfl
  obtain ⟨vs, t', ht'⟩ := ht.exists_expression hop
  have hderives := ht'.derives
  rw [List.map_append, List.map_cons] at hderives
  exact ⟨vs.map Token.kind, hderives⟩

end Grammar

end WhileLang
