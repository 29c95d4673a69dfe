import WhileLang.Proofs.Language.Grammar
import WhileLang.Proofs.Parsing.Runs

/-!
# Descents

A parser that goes by the grammar descends from each rule into the rules that its production calls.
A descent through a phrase is completed, or it breaks off with an error somewhere inside. The two
relations say what happens on the way, in the order in which it happens: the tokens read and
consumed, and the rules entered and left.

* `Completes`: a descent that comes to the end of the phrase. Its tokens are derived from it.
* `Breaks`: a descent that breaks off, together with the calls that are then under way.
* `Follows`: what a parser does on a stream is a descent of one of the two kinds. The lemmas prove
  it for each way of building a parser.

No descent fails for want of an expectation, as a recursion does that has consumed nothing. So where
a recursive parser follows a phrase, its recursion was never cut short.
-/

namespace WhileLang

/-! ## Calls -/

/-- What a rule gives. -/
def RuleName.Value : RuleName → Type
  | program | body | declarations | declaration | statements | statement => TreeBuilder
  | assignment | conditional | iterative | print => Tree
  | expression | simpleExpression | term | factor | literal => Tree

namespace Grammar

open WhileLang.Parser TokenStream

/-- The parser of each rule. -/
def ruleParser : (name : RuleName) → Parser name.Value
  | .program => program
  | .body => body
  | .declarations => declarations
  | .declaration => declaration
  | .statements => statementsWith body
  | .statement => statementWith body
  | .assignment => assignment
  | .conditional => conditionalWith body
  | .iterative => iterativeWith body
  | .print => print
  | .expression => expression
  | .simpleExpression => simpleExpression
  | .term => termWith expression
  | .factor => factorWith expression
  | .literal => literal

/-- A rule and the stream that it is called on. -/
structure RuleCall where
  rule : RuleName
  stream : TokenStream

def RuleCall.outcome (c : RuleCall) : Outcome c.rule.Value := ruleParser c.rule .full c.stream

/-! ## Completed and broken descents -/

/-- A descent through the phrase leads from one stream to another. -/
inductive Completes : Phrase → TokenStream → List ParseEvent → TokenStream → Prop where
  | word {kinds : List TokenKind} {t next : Token} {s : TokenStream} (h : t.kind ∈ kinds)
      (hs : s.head = .ok next) : Completes (.word kinds) (cons t s) [.read next, .consumed t] s
  | rule {name : RuleName} {s rest : TokenStream} {es : List ParseEvent}
      (h : Completes (production name) s es rest) :
      Completes (.rule name) s (.enter name :: (es ++ [.leave name])) rest
  | sequence {p q : Phrase} {s s' rest : TokenStream} {es fs : List ParseEvent}
      (hp : Completes p s es s') (hq : Completes q s' fs rest) :
      Completes (.sequence p q) s (es ++ fs) rest
  | left {p q : Phrase} {s rest : TokenStream} {es : List ParseEvent}
      (h : Completes p s es rest) : Completes (.choice p q) s es rest
  | right {p q : Phrase} {s rest : TokenStream} {es : List ParseEvent}
      (h : Completes q s es rest) : Completes (.choice p q) s es rest
  | absent {p : Phrase} (s : TokenStream) : Completes (.optional p) s [] s
  | present {p : Phrase} {s rest : TokenStream} {es : List ParseEvent}
      (h : Completes p s es rest) : Completes (.optional p) s es rest
  | done {p : Phrase} (s : TokenStream) : Completes (.many p) s [] s
  | more {p : Phrase} {s s' rest : TokenStream} {es fs : List ParseEvent}
      (h : Completes p s es s') (hs : Completes (.many p) s' fs rest) :
      Completes (.many p) s (es ++ fs) rest

/-- A parser cannot go on here: something else was expected in the place of the current token, or
the token was accepted but the one after it cannot be read. -/
inductive Stuck : TokenStream → ParseError → Prop where
  | mismatch {s : TokenStream} {t : Token} {expected : Expected} (ht : s.head = .ok t)
      (h : expected.kinds ≠ []) : Stuck s (.unexpected expected t.kind t.position)
  | unreadable (t : Token) (e : LexError) : Stuck (cons t (ofTokens [] (.failure e))) (.lexical e)

/-- A descent through the phrase breaks off with an error, and leaves a stream. The calls are those
of the rules that were entered and not left, from the outermost to the one that is stuck; each has
failed with the error, and has logged what happened since it was made. -/
inductive Breaks : Phrase → TokenStream → List ParseEvent → TokenStream → List RuleCall →
    ParseError → Prop where
  | word {kinds : List TokenKind} {s : TokenStream} {e : ParseError} (h : Stuck s e) :
      Breaks (.word kinds) s [] s [] e
  | neither {p q : Phrase} {s : TokenStream} {e : ParseError} (h : Stuck s e) :
      Breaks (.choice p q) s [] s [] e
  | rule {name : RuleName} {s rest : TokenStream} {es : List ParseEvent} {calls : List RuleCall}
      {e : ParseError} (h : Breaks (production name) s es rest calls e)
      (hrun : ruleParser name .full s = ⟨.error e, rest, .enter name :: es⟩) :
      Breaks (.rule name) s (.enter name :: es) rest (⟨name, s⟩ :: calls) e
  | first {p q : Phrase} {s rest : TokenStream} {es : List ParseEvent} {calls : List RuleCall}
      {e : ParseError} (h : Breaks p s es rest calls e) :
      Breaks (.sequence p q) s es rest calls e
  | second {p q : Phrase} {s s' rest : TokenStream} {es fs : List ParseEvent}
      {calls : List RuleCall} {e : ParseError} (hp : Completes p s es s')
      (hq : Breaks q s' fs rest calls e) : Breaks (.sequence p q) s (es ++ fs) rest calls e
  | left {p q : Phrase} {s rest : TokenStream} {es : List ParseEvent} {calls : List RuleCall}
      {e : ParseError} (h : Breaks p s es rest calls e) : Breaks (.choice p q) s es rest calls e
  | right {p q : Phrase} {s rest : TokenStream} {es : List ParseEvent} {calls : List RuleCall}
      {e : ParseError} (h : Breaks q s es rest calls e) : Breaks (.choice p q) s es rest calls e
  | present {p : Phrase} {s rest : TokenStream} {es : List ParseEvent} {calls : List RuleCall}
      {e : ParseError} (h : Breaks p s es rest calls e) : Breaks (.optional p) s es rest calls e
  | round {p : Phrase} {s rest : TokenStream} {es : List ParseEvent} {calls : List RuleCall}
      {e : ParseError} (h : Breaks p s es rest calls e) : Breaks (.many p) s es rest calls e
  | later {p : Phrase} {s s' rest : TokenStream} {es fs : List ParseEvent}
      {calls : List RuleCall} {e : ParseError} (h : Completes p s es s')
      (hs : Breaks (.many p) s' fs rest calls e) : Breaks (.many p) s (es ++ fs) rest calls e

/-! ## The tokens of a descent -/

/-- The phrase may stand for no token at all. -/
def Phrase.nullable : Phrase → Bool
  | word _ | rule _ => false
  | sequence p q => p.nullable && q.nullable
  | choice p q => p.nullable || q.nullable
  | optional _ | many _ => true

theorem nullable_production (name : RuleName) : (production name).nullable = false := by
  cases name <;> rfl

theorem Derives.ne_nil {φ : Phrase} {ks : List TokenKind} (h : Derives φ ks)
    (hφ : φ.nullable = false) : ks ≠ [] := by
  induction h with
  | word => exact List.cons_ne_nil _ _
  | rule _ ih => exact ih (nullable_production _)
  | sequence _ _ ihp ihq =>
    intro hnil
    obtain ⟨hks, hls⟩ := List.append_eq_nil_iff.mp hnil
    rcases (Bool.and_eq_false_iff).mp hφ with hp | hq
    · exact ihp hp hks
    · exact ihq hq hls
  | left _ ih => exact ih (Bool.or_eq_false_iff.mp hφ).1
  | right _ ih => exact ih (Bool.or_eq_false_iff.mp hφ).2
  | absent | present | done | more => cases hφ

/-- A phrase that is not nullable takes a token. -/
theorem Derives.length_pos {φ : Phrase} {us : List Token} (h : Derives φ (us.map Token.kind))
    (hφ : φ.nullable = false) : 0 < us.length :=
  List.length_pos_iff.mpr fun hnil => h.ne_nil hφ (by rw [hnil]; rfl)

/-- A completed descent consumes tokens that the phrase derives. -/
theorem Completes.exists_append {φ : Phrase} {s rest : TokenStream} {es : List ParseEvent}
    (h : Completes φ s es rest) :
    ∃ us : List Token, s = us ++ rest ∧ Derives φ (us.map Token.kind) := by
  induction h with
  | @word kinds t next s h => exact ⟨[t], rfl, .word h⟩
  | rule _ ih =>
    obtain ⟨us, hs, hd⟩ := ih
    exact ⟨us, hs, .rule hd⟩
  | sequence _ _ ihp ihq =>
    obtain ⟨us, rfl, hp⟩ := ihp
    obtain ⟨vs, rfl, hq⟩ := ihq
    exact ⟨us ++ vs, (append_append us vs _).symm, List.map_append ▸ hp.sequence hq⟩
  | left _ ih =>
    obtain ⟨us, hs, hd⟩ := ih
    exact ⟨us, hs, hd.left⟩
  | right _ ih =>
    obtain ⟨us, hs, hd⟩ := ih
    exact ⟨us, hs, hd.right⟩
  | absent s => exact ⟨[], rfl, .absent⟩
  | present _ ih =>
    obtain ⟨us, hs, hd⟩ := ih
    exact ⟨us, hs, hd.present⟩
  | done s => exact ⟨[], rfl, .done⟩
  | more _ _ ih ihs =>
    obtain ⟨us, rfl, hd⟩ := ih
    obtain ⟨vs, rfl, hds⟩ := ihs
    exact ⟨us ++ vs, (append_append us vs _).symm, List.map_append ▸ hd.more hds⟩

theorem Completes.length_le {φ : Phrase} {s rest : TokenStream} {es : List ParseEvent}
    (h : Completes φ s es rest) : rest.length ≤ s.length := by
  obtain ⟨us, rfl, -⟩ := h.exists_append
  rw [length_append]
  exact Nat.le_add_left _ _

theorem Completes.length_lt {φ : Phrase} {s rest : TokenStream} {es : List ParseEvent}
    (h : Completes φ s es rest) (hφ : φ.nullable = false) : rest.length < s.length := by
  obtain ⟨us, rfl, hd⟩ := h.exists_append
  have hpos := hd.length_pos hφ
  rw [length_append]
  omega

/-! ## Grouping -/

theorem Completes.assoc {p q r : Phrase} {s rest : TokenStream} {es : List ParseEvent}
    (h : Completes (p ++ (q ++ r)) s es rest) : Completes (p ++ q ++ r) s es rest := by
  cases h with
  | sequence hp h =>
    cases h with
    | sequence hq hr =>
      rw [← List.append_assoc]
      exact (hp.sequence hq).sequence hr

theorem Breaks.assoc {p q r : Phrase} {s rest : TokenStream} {es : List ParseEvent}
    {calls : List RuleCall} {e : ParseError} (h : Breaks (p ++ (q ++ r)) s es rest calls e) :
    Breaks (p ++ q ++ r) s es rest calls e := by
  cases h with
  | first hp => exact .first (.first hp)
  | second hp h =>
    cases h with
    | first hq => exact .first (.second hp hq)
    | second hq hr =>
      rw [← List.append_assoc]
      exact .second (hp.sequence hq) hr

/-! ## Parsers that follow a phrase -/

variable {α β γ : Type}

/-- What a parser did on a stream is a descent through the phrase, completed where it succeeded and
broken where it failed. -/
inductive Follows (φ : Phrase) (s : TokenStream) : Outcome α → Prop where
  | completed {a : α} {rest : TokenStream} {es : List ParseEvent} (h : Completes φ s es rest)
      (hrest : rest.Readable) : Follows φ s ⟨.ok a, rest, es⟩
  | broken {e : ParseError} {rest : TokenStream} {es : List ParseEvent} {calls : List RuleCall}
      (h : Breaks φ s es rest calls e) : Follows φ s ⟨.error e, rest, es⟩

/-- The same for a parser that may do nothing, which it says by giving nothing. -/
inductive Tries (φ : Phrase) (s : TokenStream) : Outcome (Option α) → Prop where
  | skipped : Tries φ s ⟨.ok none, s, []⟩
  | completed {a : α} {rest : TokenStream} {es : List ParseEvent} (h : Completes φ s es rest)
      (hrest : rest.Readable) : Tries φ s ⟨.ok (some a), rest, es⟩
  | broken {e : ParseError} {rest : TokenStream} {es : List ParseEvent} {calls : List RuleCall}
      (h : Breaks φ s es rest calls e) : Tries φ s ⟨.error e, rest, es⟩

theorem bind_of_ok {p : Parser α} {s rest : TokenStream} {a : α} {es : List ParseEvent}
    (h : p .full s = ⟨.ok a, rest, es⟩) (f : α → Parser β) :
    (p >>= f) .full s =
      ⟨(f a .full rest).result, (f a .full rest).rest, es ++ (f a .full rest).events⟩ := by
  change andThen p f .full s = _
  unfold andThen
  rw [h]

theorem bind_of_error {p : Parser α} {s rest : TokenStream} {e : ParseError}
    {es : List ParseEvent} (h : p .full s = ⟨.error e, rest, es⟩) (f : α → Parser β) :
    (p >>= f) .full s = ⟨.error e, rest, es⟩ := by
  change andThen p f .full s = _
  unfold andThen
  rw [h]

namespace Follows

variable {φ ψ : Phrase} {s : TokenStream}

/-- A change of phrase that both kinds of descent allow. -/
theorem mono {o : Outcome α} (h : Follows φ s o)
    (hc : ∀ es rest, Completes φ s es rest → Completes ψ s es rest)
    (hb : ∀ es rest calls e, Breaks φ s es rest calls e → Breaks ψ s es rest calls e) :
    Follows ψ s o := by
  cases h with
  | completed h hrest => exact .completed (hc _ _ h) hrest
  | broken h => exact .broken (hb _ _ _ _ h)

theorem assoc {χ : Phrase} {o : Outcome α} (h : Follows (φ ++ (ψ ++ χ)) s o) :
    Follows (φ ++ ψ ++ χ) s o :=
  h.mono (fun _ _ => Completes.assoc) fun _ _ _ _ => Breaks.assoc

theorem left {o : Outcome α} (h : Follows φ s o) : Follows (φ <|> ψ) s o :=
  h.mono (fun _ _ => .left) fun _ _ _ _ => .left

theorem right {o : Outcome α} (h : Follows ψ s o) : Follows (φ <|> ψ) s o :=
  h.mono (fun _ _ => .right) fun _ _ _ _ => .right

theorem present {o : Outcome α} (h : Follows φ s o) : Follows (.optional φ) s o :=
  h.mono (fun _ _ => .present) fun _ _ _ _ => .present

/-- Nothing is done after the phrase. -/
theorem finish {p : Parser α} (h : Follows φ s (p .full s)) (g : α → β) :
    Follows φ s ((p >>= fun a => pure (g a)) .full s) := by
  generalize ho : p .full s = o at h
  cases h with
  | broken h =>
    rw [bind_of_error ho]
    exact .broken h
  | completed h hrest =>
    rw [bind_of_ok ho]
    change Follows φ s ⟨.ok _, _, _ ++ []⟩
    rw [List.append_nil]
    exact .completed h hrest

/-- One descent after the other. The second needs to be made only from where the first ends. -/
theorem bind {p : Parser α} {f : α → Parser β} (hp : Follows φ s (p .full s))
    (hf : ∀ a rest es, p .full s = ⟨.ok a, rest, es⟩ → Completes φ s es rest → rest.Readable →
      Follows ψ rest (f a .full rest)) : Follows (φ ++ ψ) s ((p >>= f) .full s) := by
  generalize ho : p .full s = o at hp
  cases hp with
  | broken h =>
    rw [bind_of_error ho]
    exact .broken (.first h)
  | @completed a rest es h hrest =>
    have hlater := hf a rest es ho h hrest
    rw [bind_of_ok ho]
    generalize f a .full rest = o' at hlater
    cases hlater with
    | completed h' hrest' => exact .completed (h.sequence h') hrest'
    | broken h' => exact .broken (.second h h')

theorem inRule {name : RuleName} {p : Parser name.Value} (hname : ruleParser name = p.inRule name)
    (h : Follows (production name) s (p .full s)) :
    Follows (.rule name) s (ruleParser name .full s) := by
  have hrun : ruleParser name .full s = p.inRule name .full s := by rw [hname]
  unfold Parser.inRule at hrun
  generalize p .full s = o at h hrun
  cases h with
  | completed h hrest =>
    rw [hrun]
    exact .completed h.rule hrest
  | broken h =>
    have hbroken := h.rule hrun
    rw [hrun]
    exact .broken hbroken

/-- A parser that always does something is tried. -/
theorem tries {p : Parser α} (h : Follows φ s (p .full s)) (g : α → β) :
    Tries φ s ((p >>= fun a => pure (some (g a))) .full s) := by
  generalize ho : p .full s = o at h
  cases h with
  | broken h =>
    rw [bind_of_error ho]
    exact .broken h
  | completed h hrest =>
    rw [bind_of_ok ho]
    change Tries φ s ⟨.ok (some _), _, _ ++ []⟩
    rw [List.append_nil]
    exact .completed h hrest

end Follows

namespace Tries

variable {φ ψ : Phrase} {s : TokenStream}

theorem follows {o : Outcome (Option α)} (h : Tries φ s o) (hs : s.Readable) :
    Follows (.optional φ) s o := by
  cases h with
  | skipped => exact .completed (.absent s) hs
  | completed h hrest => exact .completed h.present hrest
  | broken h => exact .broken h.present

/-- What is tried goes on with another phrase. -/
theorem bind {p : Parser (Option α)} {f : Option α → Parser (Option β)} {q : α → Parser γ}
    {g : α → γ → β} (hp : Tries φ s (p .full s)) (hnone : f none = pure none)
    (hsome : ∀ a, f (some a) = q a >>= fun c => pure (some (g a c)))
    (hq : ∀ a rest es, Completes φ s es rest → rest.Readable → Follows ψ rest (q a .full rest)) :
    Tries (φ ++ ψ) s ((p >>= f) .full s) := by
  generalize ho : p .full s = o at hp
  cases hp with
  | skipped =>
    rw [bind_of_ok ho, hnone]
    exact .skipped
  | broken h =>
    rw [bind_of_error ho]
    exact .broken (.first h)
  | @completed a rest es h hrest =>
    have hlater := hq a rest es h hrest
    rw [bind_of_ok ho, hsome]
    generalize ho' : q a .full rest = o' at hlater
    cases hlater with
    | broken h' =>
      rw [bind_of_error ho']
      exact .broken (.second h h')
    | completed h' hrest' =>
      rw [bind_of_ok ho']
      change Tries _ s ⟨.ok (some _), _, _ ++ (_ ++ [])⟩
      rw [List.append_nil]
      exact .completed (h.sequence h') hrest'

/-- What is tried and goes on with another phrase is an optional part, if nothing is done without
it. -/
theorem optional {p : Parser (Option α)} {f : Option α → Parser β} (hp : Tries φ s (p .full s))
    (hs : s.Readable) {b : β} (hnone : f none = pure b)
    (hsome : ∀ a rest es, Completes φ s es rest → rest.Readable →
      Follows ψ rest (f (some a) .full rest)) :
    Follows (.optional (φ ++ ψ)) s ((p >>= f) .full s) := by
  generalize ho : p .full s = o at hp
  cases hp with
  | skipped =>
    rw [bind_of_ok ho, hnone]
    exact .completed (.absent s) hs
  | broken h =>
    rw [bind_of_error ho]
    exact .broken (.present (.first h))
  | @completed a rest es h hrest =>
    have hlater := hsome a rest es h hrest
    rw [bind_of_ok ho]
    generalize f (some a) .full rest = o' at hlater
    cases hlater with
    | completed h' hrest' => exact .completed (.present (h.sequence h')) hrest'
    | broken h' => exact .broken (.present (.second h h'))

end Tries

/-! ## Looking at tokens -/

theorem peek_bind {s : TokenStream} {k : TokenKind} (hs : s.ahead? = some k)
    (f : TokenKind → Parser α) : (peek >>= f) .full s = f k .full s := by
  obtain ⟨t, ht, rfl⟩ := head_of_ahead? hs
  have hpeek : peek .full s = ⟨.ok t.kind, s, []⟩ := by
    unfold peek
    rw [ht]
  rw [bind_of_ok hpeek]
  rfl

theorem unexpected_eq {s : TokenStream} {t : Token} (hs : s.head = .ok t) (expected : Expected) :
    (unexpected expected : Parser α) .full s =
      ⟨.error (.unexpected expected t.kind t.position), s, []⟩ := by
  unfold unexpected
  rw [hs]

/-- A token of some kinds is tried. -/
theorem tries_take? {accepts : TokenKind → Option α} {kinds : List TokenKind}
    (h : ∀ k a, accepts k = some a → k ∈ kinds) (s : TokenStream) :
    Tries (.word kinds) s (take? accepts .full s) := by
  rcases s.eq_ended_or_cons with he | ⟨t, s, rfl⟩
  · rw [he]
    exact .skipped
  · unfold take?
    rw [tokens_cons, tail_cons]
    dsimp only
    cases ha : accepts t.kind with
    | none => exact .skipped
    | some a =>
      cases hhead : s.head with
      | error e =>
        rw [eq_failure_of_head hhead]
        exact .broken (.word (.unreadable t e))
      | ok next => exact .completed (.word (h _ _ ha) hhead) ⟨next, hhead⟩

theorem follows_expect {kinds : List TokenKind} (h : kinds ≠ []) {s : TokenStream}
    (hs : s.Readable) : Follows (.word kinds) s (expect kinds .full s) := by
  have htry : Tries (.word kinds) s
      (take? (fun k => if k ∈ kinds then some () else none) .full s) :=
    tries_take? (fun k _ hk => (Option.ite_none_right_eq_some.mp hk).1) s
  unfold expect
  generalize ho : take? (fun k => if k ∈ kinds then some () else none) .full s = o at htry
  cases htry with
  | broken h =>
    rw [bind_of_error ho]
    exact .broken h
  | skipped =>
    obtain ⟨t, ht⟩ := hs
    rw [bind_of_ok ho]
    dsimp only
    rw [unexpected_eq ht]
    exact .broken (.word (.mismatch ht h))
  | @completed r rest es hc hrest =>
    rw [bind_of_ok ho]
    change Follows _ s ⟨.ok r.2, rest, es ++ []⟩
    rw [List.append_nil]
    exact .completed hc hrest

/-- A word of several kinds is a choice between them. -/
theorem Follows.words {kinds kinds' : List TokenKind} {s : TokenStream} {o : Outcome α}
    (h : Follows (.word (kinds ++ kinds')) s o) : Follows (.word kinds <|> .word kinds') s o := by
  refine h.mono ?_ ?_
  · rintro es rest (@⟨_, t, next, s, hk, hs⟩)
    rcases List.mem_append.mp hk with hk | hk
    · exact .left (.word hk hs)
    · exact .right (.word hk hs)
  · rintro es rest calls e ⟨h⟩
    exact .neither h

/-- None of the choices begins here. -/
theorem follows_neither {φ ψ : Phrase} {expected : Expected} (h : expected.kinds ≠ [])
    {s : TokenStream} (hs : s.Readable) :
    Follows (φ <|> ψ) s ((unexpected expected : Parser α) .full s) := by
  obtain ⟨t, ht⟩ := hs
  rw [unexpected_eq ht]
  exact .broken (.neither (.mismatch ht h))

/-! ## Repetitions -/

/-- A loop follows a repetition if a round, which consumes a token, tries what is repeated. -/
theorem follows_iterate {step : α → Parser (Option α)} {φ : Phrase} (hφ : φ.nullable = false)
    {n : Nat} (hstep : ∀ a s, s.length < n → s.Readable → Tries φ s (step a .full s)) (a : α)
    {s : TokenStream} (hn : s.length < n) (hs : s.Readable) :
    Follows (.many φ) s (iterate step a .full s) := by
  generalize hm : s.length = m
  induction m using Nat.strongRecOn generalizing a s with
  | ind m ih =>
    have htry := hstep a s hn hs
    unfold iterate
    rw [fix]
    generalize ho : step a .full s = o at htry
    cases htry with
    | skipped =>
      rw [bind_of_ok ho]
      exact .completed (.done s) hs
    | broken h =>
      rw [bind_of_error ho]
      exact .broken h.round
    | @completed a' rest es h hrest =>
      have hlt := h.length_lt hφ
      have hlater := ih rest.length (hm ▸ hlt) a' (Nat.lt_trans hlt hn) hrest rfl
      unfold iterate at hlater
      rw [bind_of_ok ho]
      dsimp only
      rw [if_pos hlt]
      generalize fix _ a' .full rest = o' at hlater
      cases hlater with
      | completed h' hrest' => exact .completed (h.more h') hrest'
      | broken h' => exact .broken (.later h h')

/-! ## Short streams -/

/-- On streams of fewer than `n` tokens the parser follows the phrase. -/
def FollowsBelow (n : Nat) (p : Parser α) (φ : Phrase) : Prop :=
  ∀ s : TokenStream, s.length < n → s.Readable → Follows φ s (p .full s)

namespace FollowsBelow

variable {n : Nat} {p : Parser α} {f : α → Parser β} {φ ψ : Phrase}

theorem bind (hp : FollowsBelow n p φ) (hf : ∀ a, FollowsBelow n (f a) ψ) :
    FollowsBelow n (p >>= f) (φ ++ ψ) := by
  intro s hlt hs
  refine (hp s hlt hs).bind fun a rest es _ h hrest => ?_
  exact hf a rest (Nat.lt_of_le_of_lt h.length_le hlt) hrest

/-- After a phrase that consumes a token, shorter streams are enough. -/
theorem bind_consuming (hp : FollowsBelow (n + 1) p φ) (hφ : φ.nullable = false)
    (hf : ∀ a, FollowsBelow n (f a) ψ) : FollowsBelow (n + 1) (p >>= f) (φ ++ ψ) := by
  intro s hlt hs
  refine (hp s hlt hs).bind fun a rest es _ h hrest => ?_
  have hless := h.length_lt hφ
  exact hf a rest (by omega) hrest

theorem finish (hp : FollowsBelow n p φ) (g : α → β) :
    FollowsBelow n (p >>= fun a => pure (g a)) φ :=
  fun s hlt hs => (hp s hlt hs).finish g

theorem assoc {χ : Phrase} (hp : FollowsBelow n p (φ ++ (ψ ++ χ))) :
    FollowsBelow n p (φ ++ ψ ++ χ) :=
  fun s hlt hs => (hp s hlt hs).assoc

/-- A parser that looks ahead does what the branch for the current token does. -/
theorem peek_bind {f : TokenKind → Parser α}
    (hf : ∀ k s, s.length < n → s.ahead? = some k → Follows φ s (f k .full s)) :
    FollowsBelow n (peek >>= f) φ := by
  intro s hlt hs
  obtain ⟨t, ht⟩ := hs
  have hahead := ahead?_of_head ht
  rw [Grammar.peek_bind hahead]
  exact hf t.kind s hlt hahead

end FollowsBelow

/-- On streams of fewer than `n` tokens the rule follows the grammar. -/
def RuleFollows (n : Nat) (name : RuleName) : Prop :=
  FollowsBelow n (ruleParser name) (.rule name)

theorem FollowsBelow.inRule {n : Nat} {name : RuleName} {p : Parser name.Value}
    (hname : ruleParser name = p.inRule name) (hp : FollowsBelow n p (production name)) :
    RuleFollows n name :=
  fun s hlt hs => (hp s hlt hs).inRule hname

theorem followsBelow_expect {kinds : List TokenKind} (h : kinds ≠ []) (n : Nat) :
    FollowsBelow n (expect kinds) (.word kinds) :=
  fun _ _ hs => follows_expect h hs

end Grammar

end WhileLang
