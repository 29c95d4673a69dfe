import WhileLang.Proofs.Language.Trees

/-!
# Sentences have trees

The grammar and the trees speak of the same sequences of tokens.

* `ProgramTree.sentence`: the kinds of tokens that have a tree are a sentence.
* `Sentence.exists_tree`: tokens whose kinds are a sentence have a tree.

The first is an induction on the tree's clauses. For the second, `Phrase.Meets` reads a phrase
as a property of tokens, given the property of each rule; a property that holds of all
productions holds of all derivations (`Derives.meets`).
-/

namespace WhileLang

namespace Grammar

/-! ## Tokens with a tree are a sentence -/

/-- The phrase of a part of an expression. -/
def ExpressionPart.phrase : ExpressionPart → Phrase
  | expression => .rule .expression
  | simpleExpression => .rule .simpleExpression
  | term => .rule .term
  | factor => .rule .factor
  | operand => operandPhrase

/-- The phrase of a part of a program. -/
def ProgramPart.phrase : ProgramPart → Phrase
  | program => .rule .program
  | body => .rule .body
  | statements => .rule .statements
  | statement => .rule .statement

/-- A rule that ends in a repetition goes on with one part more. -/
theorem Derives.grow {name : RuleName} {p q : Phrase} {ks ls : List TokenKind}
    (hname : production name = p ++ .many q) (h : Derives (.rule name) ks) (hq : Derives q ls) :
    Derives (.rule name) (ks ++ ls) := by
  cases h with
  | rule h =>
    rw [hname] at h
    cases h with
    | sequence hp hs =>
      refine .rule ?_
      rw [hname, List.append_assoc]
      exact .sequence hp (hs.snoc hq)

/-- A repetition and an optional part may be missing. -/
theorem Derives.appendMany {p q : Phrase} {ks : List TokenKind} (h : Derives p ks) :
    Derives (p ++ .many q) ks := by
  simpa using h.append .done

theorem Derives.appendOptional {p q : Phrase} {ks : List TokenKind} (h : Derives p ks) :
    Derives (p ++ .optional q) ks := by
  simpa using h.append .absent

theorem derives_kind {w : Token} {k : TokenKind} (h : w.kind = k) :
    Derives (.word [k]) [w.kind] := .word (by simp [h])

/-- An operator of a level is a word of that level. -/
theorem derives_operator {o : Token} {op : BinaryOp} {p : Precedence} (ho : o.kind = op.kind)
    (hop : op.precedence = p) : Derives (.word p.kinds) [o.kind] := by
  subst hop
  rw [ho]
  exact .word op.kind_mem

theorem ExpressionTree.derives {part : ExpressionPart} {us : List Token} {t : Tree}
    (h : ExpressionTree part us t) : Derives part.phrase (us.map Token.kind) := by
  induction h with
  | number hw => exact .orLeft (.rule (.orRight (derives_kind hw)))
  | truth hw => exact .orLeft (.rule (.orLeft (.word (by simpa using hw))))
  | name hw => exact .orRight (.orLeft (derives_kind hw))
  | group ho _ hc ih =>
    simp only [List.map_cons, List.map_append, List.map_nil]
    exact .orRight (.orRight (((derives_kind ho).append ih).append (derives_kind hc)))
  | plain _ ih => exact .rule (.append .absent ih)
  | signed hs _ ih => exact .rule (.append (.present (.word hs)) ih)
  | factor _ ih => exact .rule (.appendMany ih)
  | product _ ho hop _ ihl ihr =>
    simp only [List.map_append, List.map_cons]
    exact Derives.grow rfl ihl ((derives_operator ho hop).append ihr)
  | term _ ih => exact .rule (.appendMany ih)
  | sum _ ho hop _ ihl ihr =>
    simp only [List.map_append, List.map_cons]
    exact Derives.grow rfl ihl ((derives_operator ho hop).append ihr)
  | simple _ ih => exact .rule (.appendOptional ih)
  | relation _ ho hop _ ihl ihr =>
    simp only [List.map_append, List.map_cons]
    exact .rule (ihl.append (.present ((derives_operator ho hop).append ihr)))

/-- A body goes on to be a body after one declaration more. -/
theorem Derives.declare {ks ls : List TokenKind} (hd : Derives (.rule .declaration) ks)
    (hb : Derives (.rule .body) ls) : Derives (.rule .body) (ks ++ ls) := by
  cases hb with
  | rule hb =>
    cases hb with
    | sequence hdecls hs =>
      cases hdecls with
      | absent => exact .rule (.append (.present (.rule hd.appendMany)) hs)
      | present hdecls =>
        cases hdecls with
        | rule hdecls =>
          cases hdecls with
          | sequence hfirst hmore =>
            rw [← List.append_assoc]
            exact .rule (.append (.present (.rule (hd.append (hfirst.more hmore)))) hs)

theorem ProgramTree.derives {part : ProgramPart} {us : List Token} {t : Tree}
    (h : ProgramTree part us t) : Derives part.phrase (us.map Token.kind) := by
  induction h with
  | program hw hn hc _ he ih =>
    simp only [List.map_cons, List.map_append, List.map_nil]
    have hhead := ((derives_kind hw).append (derives_kind hn)).append (derives_kind hc)
    exact .rule ((hhead.append ih).append (derives_kind he))
  | statements _ ih => exact .rule (.append .absent ih)
  | declaration hw hn hs _ ih =>
    have hword : Derives (.word [.boolWord, .intWord]) [_] := .word (by simpa using hw)
    exact .declare (.rule ((hword.append (derives_kind hn)).append (derives_kind hs))) ih
  | statement _ ih => exact .rule (.appendMany ih)
  | next _ hs _ ihl ihr =>
    simp only [List.map_append, List.map_cons]
    exact Derives.grow rfl ihl ((derives_kind hs).append ihr)
  | assignment hn hs h =>
    exact .rule (.orLeft (.rule (((derives_kind hn).append (derives_kind hs)).append h.derives)))
  | conditional hi hc hw _ hf ihb =>
    simp only [List.map_cons, List.map_append, List.map_nil]
    have hthen := ((derives_kind hi).append hc.derives).append (derives_kind hw)
    have hbody := (hthen.append ihb).appendOptional (q := .word [.elseWord] ++ .rule .body)
    refine .rule (.orRight (.orLeft (.rule ?_)))
    simpa [production, ExpressionPart.phrase, ProgramPart.phrase] using
      hbody.append (derives_kind hf)
  | alternative hi hc hw _ he _ hf ihb ihd =>
    simp only [List.map_cons, List.map_append, List.map_nil]
    have hthen := ((derives_kind hi).append hc.derives).append (derives_kind hw)
    have hbody := (hthen.append ihb).append (.present ((derives_kind he).append ihd))
    refine .rule (.orRight (.orLeft (.rule ?_)))
    simpa [production, ExpressionPart.phrase, ProgramPart.phrase] using
      hbody.append (derives_kind hf)
  | loop hw hc hd _ ho ihb =>
    simp only [List.map_cons, List.map_append, List.map_nil]
    have hdo := ((derives_kind hw).append hc.derives).append (derives_kind hd)
    refine .rule (.orRight (.orRight (.orLeft (.rule ?_))))
    simpa [production, ExpressionPart.phrase, ProgramPart.phrase] using
      (hdo.append ihb).append (derives_kind ho)
  | print hw h =>
    refine .rule (.orRight (.orRight (.orRight (.rule ?_))))
    exact (derives_kind hw).append h.derives

/-- The kinds of tokens that have a tree are a sentence. -/
theorem ProgramTree.sentence {us : List Token} {t : Tree} (h : ProgramTree .program us t) :
    Sentence (us.map Token.kind) := h.derives

/-! ## A sentence has a tree -/

/-- The tokens are made like the phrase, if `M` says which tokens are made like a rule. -/
def Phrase.Meets (M : RuleName → List Token → Prop) : Phrase → List Token → Prop
  | word kinds, us => ∃ w, us = [w] ∧ w.kind ∈ kinds
  | rule name, us => M name us
  | sequence p q, us => ∃ vs ws, us = vs ++ ws ∧ p.Meets M vs ∧ q.Meets M ws
  | choice p q, us => p.Meets M us ∨ q.Meets M us
  | optional p, us => us = [] ∨ p.Meets M us
  | many p, us => ∃ parts : List (List Token), us = parts.flatten ∧ ∀ vs ∈ parts, p.Meets M vs

/-- If `M` holds of all tokens made like a production, it holds of all that a rule derives. -/
theorem Derives.meets {M : RuleName → List Token → Prop}
    (hM : ∀ name us, (production name).Meets M us → M name us) {p : Phrase}
    {ks : List TokenKind} (h : Derives p ks) :
    ∀ us : List Token, us.map Token.kind = ks → p.Meets M us := by
  induction h with
  | word hk =>
    intro us hus
    obtain ⟨w, rfl, rfl⟩ := List.map_eq_singleton_iff.mp hus
    exact ⟨w, rfl, hk⟩
  | rule _ ih => exact fun us hus => hM _ us (ih us hus)
  | sequence _ _ ihp ihq =>
    intro us hus
    obtain ⟨vs, ws, rfl, hvs, hws⟩ := List.map_eq_append_iff.mp hus
    exact ⟨vs, ws, rfl, ihp vs hvs, ihq ws hws⟩
  | left _ ih => exact fun us hus => .inl (ih us hus)
  | right _ ih => exact fun us hus => .inr (ih us hus)
  | absent => exact fun us hus => .inl (List.map_eq_nil_iff.mp hus)
  | present _ ih => exact fun us hus => .inr (ih us hus)
  | done =>
    intro us hus
    exact ⟨[], List.map_eq_nil_iff.mp hus, by simp⟩
  | more _ _ ih ihs =>
    intro us hus
    obtain ⟨vs, ws, rfl, hvs, hws⟩ := List.map_eq_append_iff.mp hus
    obtain ⟨parts, rfl, hparts⟩ := ihs ws hws
    refine ⟨vs :: parts, by simp, ?_⟩
    intro part hpart
    rcases List.mem_cons.mp hpart with rfl | hpart
    · exact ih _ hvs
    · exact hparts part hpart

/-- The tokens are made like the rule, as far as trees can tell. Declarations have a tree only
together with the body that they begin. -/
def Translates : RuleName → List Token → Prop
  | .program, us => ∃ t, ProgramTree .program us t
  | .body, us => ∃ t, ProgramTree .body us t
  | .declarations, us | .declaration, us =>
    ∀ vs t, ProgramTree .body vs t → ∃ t', ProgramTree .body (us ++ vs) t'
  | .statements, us => ∃ t, ProgramTree .statements us t
  | .statement, us | .assignment, us | .conditional, us | .iterative, us | .print, us =>
    ∃ t, ProgramTree .statement us t
  | .expression, us => ∃ t, ExpressionTree .expression us t
  | .simpleExpression, us => ∃ t, ExpressionTree .simpleExpression us t
  | .term, us => ∃ t, ExpressionTree .term us t
  | .factor, us => ∃ t, ExpressionTree .factor us t
  | .literal, us => ∃ t, ExpressionTree .operand us t

/-- What can grow by a part at its end can grow by a repetition of it. -/
theorem exists_many {P : List Token → Tree → Prop} {p : Phrase}
    (hgrow : ∀ us vs l, P us l → p.Meets Translates vs → ∃ t, P (us ++ vs) t)
    {us : List Token} {parts : List (List Token)} {l : Tree} (hl : P us l)
    (hparts : ∀ vs ∈ parts, p.Meets Translates vs) : ∃ t, P (us ++ parts.flatten) t := by
  induction parts generalizing us l with
  | nil => exact ⟨l, by simpa using hl⟩
  | cons part parts ih =>
    obtain ⟨t, ht⟩ := hgrow us part l hl (hparts part List.mem_cons_self)
    have hmore := ih ht fun vs hvs => hparts vs (List.mem_cons_of_mem _ hvs)
    simpa using hmore

/-- Declarations may stand before every body. -/
theorem exists_body {parts : List (List Token)} {us : List Token} {t : Tree}
    (hparts : ∀ vs ∈ parts, Translates .declaration vs) (h : ProgramTree .body us t) :
    ∃ t', ProgramTree .body (parts.flatten ++ us) t' := by
  induction parts with
  | nil => exact ⟨t, h⟩
  | cons part parts ih =>
    obtain ⟨t', ht'⟩ := ih fun vs hvs => hparts vs (List.mem_cons_of_mem _ hvs)
    obtain ⟨t'', ht''⟩ := hparts part List.mem_cons_self _ _ ht'
    exact ⟨t'', by simpa using ht''⟩

theorem exists_operand {us : List Token} (h : operandPhrase.Meets Translates us) :
    ∃ t, ExpressionTree .operand us t := by
  rcases h with h | ⟨w, rfl, hw⟩ | ⟨_, _, rfl, ⟨_, vs, rfl, ⟨o, rfl, ho⟩, t, h⟩, c, rfl, hc⟩
  · exact h
  · exact ⟨_, .name (by simpa using hw)⟩
  · exact ⟨t, by simpa using .group (by simpa using ho) h (by simpa using hc)⟩

/-- What is made like a production has a tree. -/
theorem translates_of_meets (name : RuleName) (us : List Token)
    (h : (production name).Meets Translates us) : Translates name us := by
  cases name with
  | program =>
    obtain ⟨_, _, rfl, ⟨_, _, rfl, ⟨_, _, rfl, ⟨_, _, rfl, ⟨w, rfl, hw⟩, n, rfl, hn⟩, c, rfl, hc⟩,
      t, h⟩, e, rfl, he⟩ := h
    simp only [List.mem_singleton] at hw hn hc he
    exact ⟨t, by simpa using .program hw hn hc h he⟩
  | body =>
    obtain ⟨_, _, rfl, hdecls, t, h⟩ := h
    rcases hdecls with rfl | hdecls
    · exact ⟨t, .statements h⟩
    · exact hdecls _ _ (.statements h)
  | declarations =>
    obtain ⟨vs, _, rfl, hfirst, parts, rfl, hparts⟩ := h
    intro ws t h
    obtain ⟨t', ht'⟩ := exists_body hparts h
    obtain ⟨t'', ht''⟩ := hfirst _ _ ht'
    exact ⟨t'', by simpa using ht''⟩
  | declaration =>
    obtain ⟨_, _, rfl, ⟨_, _, rfl, ⟨w, rfl, hw⟩, n, rfl, hn⟩, s, rfl, hs⟩ := h
    simp only [List.mem_singleton] at hn hs
    exact fun vs t h => ⟨_, .declaration (by simpa using hw) hn hs h⟩
  | statements =>
    obtain ⟨us, _, rfl, ⟨t, h⟩, parts, rfl, hparts⟩ := h
    refine exists_many ?_ (ProgramTree.statement h) hparts
    rintro us _ l hl ⟨_, vs, rfl, ⟨s, rfl, hs⟩, r, hr⟩
    exact ⟨_, .next hl (by simpa using hs) hr⟩
  | statement =>
    rcases h with h | h | h | h
    all_goals exact h
  | assignment =>
    obtain ⟨_, _, rfl, ⟨_, _, rfl, ⟨n, rfl, hn⟩, s, rfl, hs⟩, t, h⟩ := h
    exact ⟨_, .assignment (by simpa using hn) (by simpa using hs) h⟩
  | conditional =>
    obtain ⟨_, _, rfl, ⟨_, _, rfl, ⟨_, _, rfl, ⟨_, _, rfl, ⟨_, _, rfl, ⟨i, rfl, hi⟩, c, hc⟩,
      w, rfl, hw⟩, b, hb⟩, helse⟩, f, rfl, hf⟩ := h
    simp only [List.mem_singleton] at hi hw hf
    rcases helse with rfl | ⟨_, _, rfl, ⟨e, rfl, he⟩, d, hd⟩
    · exact ⟨_, by simpa using ProgramTree.conditional hi hc hw hb hf⟩
    · simp only [List.mem_singleton] at he
      exact ⟨_, by simpa using ProgramTree.alternative hi hc hw hb he hd hf⟩
  | iterative =>
    obtain ⟨_, _, rfl, ⟨_, _, rfl, ⟨_, _, rfl, ⟨_, _, rfl, ⟨w, rfl, hw⟩, c, hc⟩, d, rfl, hd⟩,
      b, hb⟩, o, rfl, ho⟩ := h
    simp only [List.mem_singleton] at hw hd ho
    exact ⟨_, by simpa using ProgramTree.loop hw hc hd hb ho⟩
  | print =>
    obtain ⟨_, _, rfl, ⟨w, rfl, hw⟩, t, h⟩ := h
    exact ⟨_, .print (by simpa using hw) h⟩
  | expression =>
    obtain ⟨vs, _, rfl, ⟨l, hl⟩, hr⟩ := h
    rcases hr with rfl | ⟨_, ws, rfl, ⟨o, rfl, ho⟩, r, hr⟩
    · exact ⟨l, by simpa using ExpressionTree.simple hl⟩
    · obtain ⟨op, hop, hlevel⟩ := Precedence.exists_operator (p := .relation) ho
      exact ⟨_, .relation hl hop.symm hlevel hr⟩
  | simpleExpression =>
    obtain ⟨us, _, rfl, ⟨t, h⟩, parts, rfl, hparts⟩ := h
    refine exists_many ?_ (ExpressionTree.term h) hparts
    rintro us _ l hl ⟨_, vs, rfl, ⟨o, rfl, ho⟩, r, hr⟩
    obtain ⟨op, hop, hlevel⟩ := Precedence.exists_operator (p := .additive) ho
    exact ⟨_, .sum hl hop.symm hlevel hr⟩
  | term =>
    obtain ⟨us, _, rfl, ⟨t, h⟩, parts, rfl, hparts⟩ := h
    refine exists_many ?_ (ExpressionTree.factor h) hparts
    rintro us _ l hl ⟨_, vs, rfl, ⟨o, rfl, ho⟩, r, hr⟩
    obtain ⟨op, hop, hlevel⟩ := Precedence.exists_operator (p := .multiplicative) ho
    exact ⟨_, .product hl hop.symm hlevel hr⟩
  | factor =>
    obtain ⟨_, vs, rfl, hsign, h⟩ := h
    obtain ⟨t, h⟩ := exists_operand h
    rcases hsign with rfl | ⟨s, rfl, hs⟩
    · exact ⟨t, .plain h⟩
    · exact ⟨_, .signed hs h⟩
  | literal =>
    rcases h with ⟨w, rfl, hw⟩ | ⟨w, rfl, hw⟩
    · exact ⟨_, .truth (by simpa using hw)⟩
    · exact ⟨_, .number (by simpa using hw)⟩

/-- Tokens of given kinds. -/
theorem exists_tokens (ks : List TokenKind) : ∃ us : List Token, us.map Token.kind = ks :=
  ⟨ks.map fun k => .ofKind k .start, by simp [Token.ofKind, Function.comp_def]⟩

/-- Tokens whose kinds are a sentence have a tree. -/
theorem Sentence.exists_tree {us : List Token} (h : Sentence (us.map Token.kind)) :
    ∃ t, ProgramTree .program us t :=
  Derives.meets translates_of_meets h us rfl

end Grammar

end WhileLang
