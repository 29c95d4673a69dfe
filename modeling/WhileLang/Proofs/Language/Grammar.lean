import WhileLang.Grammar.Parser

/-!
# The grammar

The grammar of the language as data, and the sequences of token kinds that it derives. Nothing
here mentions the parser: the productions are those that a manual would print.

* `Phrase`: the right sides of productions, with optional and repeated parts.
* `production`: the production of each rule.
* `Derives`: the kind sequences of a phrase; `Sentence` those of a program.
* `Viable`: a kind sequence that some sentence begins with.
-/

namespace WhileLang

namespace Grammar

/-! ## Productions -/

/-- The right side of a production. -/
inductive Phrase where
  /-- A token of one of the kinds. -/
  | word (kinds : List TokenKind)
  /-- What a rule stands for. -/
  | rule (name : RuleName)
  | sequence (first second : Phrase)
  | choice (left right : Phrase)
  /-- The part or nothing. -/
  | optional (part : Phrase)
  /-- The part any number of times. -/
  | many (part : Phrase)

instance : Append Phrase := ⟨.sequence⟩

instance : OrElse Phrase := ⟨fun left right => .choice left (right ())⟩

/-- The relations. -/
def relations : List TokenKind := [.less, .lessEqual, .equal, .notEqual, .greaterEqual, .greater]

/-- The operators of a sum. -/
def additives : List TokenKind := [.plus, .minus, .orWord]

/-- The operators of a product. -/
def multiplicatives : List TokenKind := [.star, .slash, .andWord]

/-- The signs before an operand. -/
def signs : List TokenKind := [.minus, .notWord]

open Phrase in
/-- An operand without its sign. -/
def operandPhrase : Phrase :=
  rule .literal <|> word [.identifier] <|> word [.openParen] ++ rule .expression ++
    word [.closeParen]

open Phrase in
/-- The productions. -/
def production : RuleName → Phrase
  | .program =>
    word [.programWord] ++ word [.identifier] ++ word [.colon] ++ rule .body ++ word [.endWord]
  | .body => optional (rule .declarations) ++ rule .statements
  | .declarations => rule .declaration ++ many (rule .declaration)
  | .declaration => word [.boolWord, .intWord] ++ word [.identifier] ++ word [.semicolon]
  | .statements => rule .statement ++ many (word [.semicolon] ++ rule .statement)
  | .statement => rule .assignment <|> rule .conditional <|> rule .iterative <|> rule .print
  | .assignment => word [.identifier] ++ word [.assign] ++ rule .expression
  | .conditional =>
    word [.ifWord] ++ rule .expression ++ word [.thenWord] ++ rule .body ++
      optional (word [.elseWord] ++ rule .body) ++ word [.fiWord]
  | .iterative =>
    word [.whileWord] ++ rule .expression ++ word [.doWord] ++ rule .body ++ word [.odWord]
  | .print => word [.printWord] ++ rule .expression
  | .expression =>
    rule .simpleExpression ++ optional (word relations ++ rule .simpleExpression)
  | .simpleExpression => rule .term ++ many (word additives ++ rule .term)
  | .term => rule .factor ++ many (word multiplicatives ++ rule .factor)
  | .factor => optional (word signs) ++ operandPhrase
  | .literal => word [.trueWord, .falseWord] <|> word [.number]

/-! ## Derivations -/

/-- The kind sequences of a phrase. -/
inductive Derives : Phrase → List TokenKind → Prop where
  | word {kinds : List TokenKind} {k : TokenKind} (h : k ∈ kinds) : Derives (.word kinds) [k]
  | rule {name : RuleName} {ks : List TokenKind} (h : Derives (production name) ks) :
      Derives (.rule name) ks
  | sequence {p q : Phrase} {ks ls : List TokenKind} (hp : Derives p ks) (hq : Derives q ls) :
      Derives (.sequence p q) (ks ++ ls)
  | left {p q : Phrase} {ks : List TokenKind} (h : Derives p ks) : Derives (.choice p q) ks
  | right {p q : Phrase} {ks : List TokenKind} (h : Derives q ks) : Derives (.choice p q) ks
  | absent {p : Phrase} : Derives (.optional p) []
  | present {p : Phrase} {ks : List TokenKind} (h : Derives p ks) : Derives (.optional p) ks
  | done {p : Phrase} : Derives (.many p) []
  | more {p : Phrase} {ks ls : List TokenKind} (h : Derives p ks) (hs : Derives (.many p) ls) :
      Derives (.many p) (ks ++ ls)

/-- The kind sequences of a program. -/
def Sentence (ks : List TokenKind) : Prop := Derives (.rule .program) ks

/-- A program can begin with these kinds. -/
def Viable (ks : List TokenKind) : Prop := ∃ more, Sentence (ks ++ more)

theorem Derives.append {p q : Phrase} {ks ls : List TokenKind} (hp : Derives p ks)
    (hq : Derives q ls) : Derives (p ++ q) (ks ++ ls) := .sequence hp hq

theorem Derives.orLeft {p q : Phrase} {ks : List TokenKind} (h : Derives p ks) :
    Derives (p <|> q) ks := .left h

theorem Derives.orRight {p q : Phrase} {ks : List TokenKind} (h : Derives q ks) :
    Derives (p <|> q) ks := .right h

/-- A repetition may also grow at its end. -/
theorem Derives.snoc {p : Phrase} {ks ls : List TokenKind} (hs : Derives (.many p) ks)
    (h : Derives p ls) : Derives (.many p) (ks ++ ls) := by
  generalize hq : Phrase.many p = q at hs
  induction hs with
  | done =>
    cases hq
    simpa using h.more .done
  | more hfirst _ _ ih =>
    cases hq
    rw [List.append_assoc]
    exact hfirst.more (ih rfl)
  | _ => cases hq

/-- Beginnings of viable sequences are viable. -/
theorem Viable.of_append {ks ls : List TokenKind} (h : Viable (ks ++ ls)) : Viable ks := by
  obtain ⟨more, hmore⟩ := h
  exact ⟨ls ++ more, by rwa [← List.append_assoc]⟩

/-! ## What a phrase names -/

/-- The rules that a phrase refers to itself. -/
def Phrase.rules : Phrase → List RuleName
  | word _ => []
  | rule name => [name]
  | sequence p q | choice p q => p.rules ++ q.rules
  | optional p | many p => p.rules

/-- The kinds that a phrase names itself, outside the rules it refers to. -/
def Phrase.kinds : Phrase → List TokenKind
  | word ks => ks
  | rule _ => []
  | sequence p q | choice p q => p.kinds ++ q.kinds
  | optional p | many p => p.kinds

/-! ## The end of the text is in no sentence -/

theorem endOfText_notMem_production (name : RuleName) :
    .endOfText ∉ (production name).kinds := by
  cases name <;> decide

theorem Derives.endOfText_notMem {p : Phrase} {ks : List TokenKind} (h : Derives p ks)
    (hp : .endOfText ∉ p.kinds) : .endOfText ∉ ks := by
  induction h with
  | @word kinds k hk =>
    intro hend
    rw [List.mem_singleton.mp hend] at hp
    exact hp hk
  | rule _ ih => exact ih (endOfText_notMem_production _)
  | sequence _ _ ihp ihq =>
    simp only [Phrase.kinds, List.mem_append, not_or] at hp ⊢
    exact ⟨ihp hp.1, ihq hp.2⟩
  | left _ ih =>
    simp only [Phrase.kinds, List.mem_append, not_or] at hp
    exact ih hp.1
  | right _ ih =>
    simp only [Phrase.kinds, List.mem_append, not_or] at hp
    exact ih hp.2
  | absent => simp
  | present _ ih => exact ih hp
  | done => simp
  | more _ _ ih ihs =>
    simp only [List.mem_append, not_or]
    exact ⟨ih hp, ihs hp⟩

/-- No program contains the end of the text. -/
theorem Sentence.endOfText_notMem {ks : List TokenKind} (h : Sentence ks) : .endOfText ∉ ks :=
  Derives.endOfText_notMem h (by simp [Phrase.kinds])

/-! ## The first and the last word of a sentence -/

/-- A kind that is named by none of the productions that a phrase leads to is not derived. -/
theorem Derives.notMem {k : TokenKind} {reached : RuleName → Prop}
    (hreached : ∀ name, reached name →
      k ∉ (production name).kinds ∧ ∀ callee ∈ (production name).rules, reached callee)
    {p : Phrase} {ks : List TokenKind} (h : Derives p ks) (hkinds : k ∉ p.kinds)
    (hrules : ∀ callee ∈ p.rules, reached callee) : k ∉ ks := by
  induction h with
  | @word kinds k' hk' =>
    intro hk
    obtain rfl := List.mem_singleton.mp hk
    exact hkinds hk'
  | @rule name _ _ ih =>
    obtain ⟨hname, hcallees⟩ := hreached name (hrules name (List.mem_singleton_self name))
    exact ih hname hcallees
  | sequence _ _ ihp ihq =>
    simp only [Phrase.kinds, Phrase.rules, List.mem_append, not_or] at hkinds hrules ⊢
    exact ⟨ihp hkinds.1 fun callee h => hrules callee (.inl h),
      ihq hkinds.2 fun callee h => hrules callee (.inr h)⟩
  | left _ ih =>
    simp only [Phrase.kinds, Phrase.rules, List.mem_append, not_or] at hkinds hrules
    exact ih hkinds.1 fun callee h => hrules callee (.inl h)
  | right _ ih =>
    simp only [Phrase.kinds, Phrase.rules, List.mem_append, not_or] at hkinds hrules
    exact ih hkinds.2 fun callee h => hrules callee (.inr h)
  | present _ ih => exact ih hkinds hrules
  | absent | done => exact List.not_mem_nil
  | more _ _ ih ihs =>
    simp only [List.mem_append, not_or]
    exact ⟨ih hkinds hrules, ihs hkinds hrules⟩

/-- A word that only programs name is not in a body. -/
theorem Derives.notMem_body {k : TokenKind} {ks : List TokenKind} (h : Derives (.rule .body) ks)
    (hk : ∀ name, name ≠ .program → k ∉ (production name).kinds) : k ∉ ks := by
  have hcallees : ∀ name : RuleName, name ≠ .program →
      ∀ callee ∈ (production name).rules, callee ≠ .program := by
    intro name hname
    cases name <;> decide
  refine h.notMem (fun name hname => ⟨hk name hname, hcallees name hname⟩) List.not_mem_nil ?_
  decide

theorem Derives.eq_of_word {k : TokenKind} {ks : List TokenKind} (h : Derives (.word [k]) ks) :
    ks = [k] := by
  cases h with
  | word hk => rw [List.mem_singleton.mp hk]

/-- A program begins with its first word and ends with its last. Both stand nowhere else. -/
theorem Sentence.exists_inner {ks : List TokenKind} (h : Sentence ks) :
    ∃ inner, ks = .programWord :: (inner ++ [.endWord]) ∧ .programWord ∉ inner ∧
      .endWord ∉ inner := by
  obtain ⟨⟩ | ⟨h⟩ := h
  obtain ⟨⟩ | ⟨⟩ | ⟨h, hend⟩ := h
  obtain ⟨⟩ | ⟨⟩ | @⟨_, _, _, body, h, hbody⟩ := h
  obtain ⟨⟩ | ⟨⟩ | ⟨h, hcolon⟩ := h
  obtain ⟨⟩ | ⟨⟩ | ⟨hword, hname⟩ := h
  obtain rfl := hword.eq_of_word
  obtain rfl := hname.eq_of_word
  obtain rfl := hcolon.eq_of_word
  obtain rfl := hend.eq_of_word
  refine ⟨.identifier :: .colon :: body, rfl, ?_, ?_⟩
  · have hnot : .programWord ∉ body := by
      apply hbody.notMem_body
      intro name hname
      cases name <;> first | exact absurd rfl hname | decide
    simpa using hnot
  · have hnot : .endWord ∉ body := by
      apply hbody.notMem_body
      intro name hname
      cases name <;> first | exact absurd rfl hname | decide
    simpa using hnot

end Grammar

end WhileLang
