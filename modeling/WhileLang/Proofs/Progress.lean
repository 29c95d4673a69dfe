import Mathlib.Logic.Function.Iterate
import WhileLang.Proofs.Lexing.Cursor
import WhileLang.Proofs.Parsing.DescentRules
import WhileLang.Proofs.Parsing.Pace
import WhileLang.Proofs.Tracing.Toggles

/-!
# Progress

Nothing goes on for ever (`frontEnd_progresses`).

* A lexer gets shorter by every token that is not the end of the text, so that all tokens of a text
  are collected in one call more than the text has characters.
* A rule that calls itself, or goes through a loop, has consumed a token in between. Its depth is
  less than the number of tokens (`agree_expression`, `agree_body`), and it makes at most five calls
  for each token that it consumes and five more (`Grammar.RuleName.lead`).
* No rule goes on after the end of the text. So a parser advances its lexer at most once for each
  token before the end.
-/

namespace WhileLang

open Grammar WhileLang.Parser TokenStream

/-! ## Collecting the tokens of a text -/

/-- Reads tokens up to the end of the text or a lexical error, with at most `n` calls. -/
def Lexer.collect : Nat → Lexer → Option (List Token × Option LexError)
  | 0, _ => none
  | n + 1, l =>
    match l.advance with
    | (.error e, _) => some ([], some e)
    | (.ok t, l') =>
      if t.kind = .endOfText then some ([t], none)
      else (collect n l').map fun found => (t :: found.1, found.2)

/-- As many calls are enough as there are tokens, and one for what follows them. -/
theorem Lexer.collect_eq {n : Nat} {l : Lexer} (h : l.unread.length < n) :
    l.collect n = some (l.unread.listing, l.unread.error?) := by
  induction n generalizing l with
  | zero => exact absurd h (Nat.not_lt_zero _)
  | succ n ih =>
    obtain ⟨hresult, hnext, -⟩ := l.advance_spec
    have hkinds := fun t => kind_ne_of_mem_unread (l := l) (t := t)
    unfold collect
    generalize l.advance = r at hresult hnext
    obtain ⟨result, l'⟩ := r
    dsimp only at hresult hnext
    rcases l.unread.eq_ended_or_cons with he | ⟨t, s, hs⟩
    · rw [he] at hresult ⊢
      generalize l.unread.ending = ending at hresult
      cases ending with
      | endOfText p =>
        obtain rfl : result = .ok (.ofKind .endOfText p) := hresult
        exact if_pos rfl
      | failure e =>
        obtain rfl : result = .error e := hresult
        rfl
    · rw [hs] at hresult hnext hkinds h ⊢
      rw [tail_cons] at hnext
      obtain rfl : result = .ok t := hresult
      have ht : t.kind ≠ .endOfText := hkinds t (List.mem_cons_self)
      dsimp only
      rw [if_neg ht, ih (hnext ▸ Nat.lt_of_succ_lt_succ h), hnext, listing_cons, error?_cons]
      rfl

/-- Each token that a scanner still reads has a character of its own. -/
theorem length_ofScanner_le (s : Scanner) : (ofScanner s).length ≤ s.source.remaining.length := by
  induction s using ofScanner.induct with
  | case1 s e hnext =>
    rw [ofScanner_of_next_error hnext]
    exact Nat.zero_le _
  | case2 s t rest hnext ht =>
    rw [ofScanner_of_next_end hnext ht]
    exact Nat.zero_le _
  | case3 s t rest hnext ht _ ih =>
    have hlt := Scanner.length_next_lt hnext ht
    rw [ofScanner_of_next_ok hnext ht, length_cons]
    omega

theorem length_ofString_le (source : String) :
    (TokenStream.ofString source).length ≤ source.length :=
  length_ofScanner_le (.ofString source)

/-! ## The depth of recursion -/

/-- Whatever a call at depth `n` would do, an expression of fewer than `n` tokens never comes
there. -/
theorem agree_expression (n : Nat) (p : Parser Tree) :
    Agree n (expressionWith^[n] p) expression := by
  induction n with
  | zero => exact fun _ s hs => absurd hs (Nat.not_lt_zero _)
  | succ n ih =>
    rw [Function.iterate_succ_apply', expression_eq]
    exact agree_expressionWith ih receding_expression

theorem agree_body (n : Nat) (p : Parser TreeBuilder) : Agree n (bodyWith^[n] p) body := by
  induction n with
  | zero => exact fun _ s hs => absurd hs (Nat.not_lt_zero _)
  | succ n ih =>
    rw [Function.iterate_succ_apply', body_eq]
    exact agree_bodyWith ih receding_body

/-! ## The number of calls -/

def ParseEvent.isCall : ParseEvent → Bool
  | .enter _ => true
  | .read _ | .consumed _ | .leave _ => false

/-- The number of rules entered. -/
def callCount (events : List ParseEvent) : Nat := events.countP ParseEvent.isCall

@[simp] theorem callCount_append (es fs : List ParseEvent) :
    callCount (es ++ fs) = callCount es + callCount fs := List.countP_append

@[simp] theorem callCount_enter (rule : RuleName) (es : List ParseEvent) :
    callCount (.enter rule :: es) = callCount es + 1 := List.countP_cons_of_pos rfl

@[simp] theorem callCount_leave (rule : RuleName) : callCount [.leave rule] = 0 := rfl

@[simp] theorem tokensConsumed_enter (rule : RuleName) (es : List ParseEvent) :
    tokensConsumed (.enter rule :: es) = tokensConsumed es := rfl

@[simp] theorem tokensConsumed_leave (rule : RuleName) : tokensConsumed [.leave rule] = [] := rfl

/-- How many calls a rule makes at most before it consumes a token, itself included. -/
def RuleName.lead : RuleName → Nat
  | program | declaration | assignment | conditional | iterative | print | literal => 1
  | declarations | statement | factor => 2
  | statements | term => 3
  | body | simpleExpression => 4
  | expression => 5

namespace Grammar

/-- How many calls a descent through a phrase makes at most before it consumes a token. -/
def Phrase.lead : Phrase → Nat
  | word _ => 0
  | rule name => name.lead
  | sequence p q => if p.nullable then max p.lead q.lead else p.lead
  | choice p q => max p.lead q.lead
  | optional p | many p => p.lead

theorem lead_production_lt (name : RuleName) : (production name).lead < name.lead := by
  cases name <;> decide

theorem Phrase.lead_le (φ : Phrase) : φ.lead ≤ 5 := by
  induction φ with
  | word => exact Nat.zero_le _
  | rule name => cases name <;> decide
  | sequence p q hp hq =>
    unfold lead
    split
    · exact Nat.max_le.mpr ⟨hp, hq⟩
    · exact hp
  | choice p q hp hq => exact Nat.max_le.mpr ⟨hp, hq⟩
  | optional _ hp | many _ hp => exact hp

theorem Phrase.lead_le_sequence (p q : Phrase) : p.lead ≤ (sequence p q).lead := by
  rw [lead]
  split
  · exact Nat.le_max_left _ _
  · exact Nat.le_refl _

theorem Phrase.lead_le_sequence_of_nullable {p : Phrase} (h : p.nullable = true) (q : Phrase) :
    q.lead ≤ (sequence p q).lead := by
  rw [lead, if_pos h]
  exact Nat.le_max_right _ _

/-- One round of a repetition and all others lead no further than the repetition. -/
theorem Phrase.lead_round (p : Phrase) : (sequence p (many p)).lead = (many p).lead := by
  rw [lead]
  split
  · exact Nat.max_self _
  · rfl

variable {φ : Phrase} {s rest : TokenStream} {es : List ParseEvent} {calls : List RuleCall}
  {e : ParseError}

/-- A completed descent through a phrase has done nothing at all, or it has consumed tokens, each
for at most five calls. The calls of the lead are paid for by the first token. -/
inductive Paid (φ : Phrase) (es : List ParseEvent) : Prop where
  | nothing (hφ : φ.nullable = true) (hcalls : callCount es = 0) (htokens : tokensConsumed es = [])
  | paid (h : callCount es + 5 ≤ 5 * (tokensConsumed es).length + φ.lead)

theorem Paid.sequence {p q : Phrase} {es fs : List ParseEvent} (hp : Paid p es) (hq : Paid q fs) :
    Paid (.sequence p q) (es ++ fs) := by
  have hfirst := p.lead_le_sequence q
  have hsecond := q.lead_le
  cases hp with
  | nothing hnull hcalls htokens =>
    have hlead := Phrase.lead_le_sequence_of_nullable hnull q
    cases hq with
    | nothing hnull' hcalls' htokens' =>
      refine .nothing (Bool.and_eq_true_iff.mpr ⟨hnull, hnull'⟩) ?_ ?_
      · rw [callCount_append, hcalls, hcalls']
      · rw [tokensConsumed_append, htokens, htokens']
        rfl
    | paid h =>
      refine .paid ?_
      rw [callCount_append, tokensConsumed_append, hcalls, htokens, List.nil_append]
      omega
  | paid h =>
    refine .paid ?_
    rw [callCount_append, tokensConsumed_append, List.length_append]
    cases hq with
    | nothing _ hcalls _ => omega
    | paid h' => omega

theorem Paid.mono {ψ : Phrase} (h : Paid φ es) (hnull : φ.nullable = true → ψ.nullable = true)
    (hlead : φ.lead ≤ ψ.lead) : Paid ψ es := by
  cases h with
  | nothing hφ hcalls htokens => exact .nothing (hnull hφ) hcalls htokens
  | paid h => exact .paid (by omega)

theorem Completes.paid (h : Completes φ s es rest) : Paid φ es := by
  induction h with
  | word => exact .paid (Nat.le_refl 5)
  | @rule name s rest es h ih =>
    have hlead := lead_production_lt name
    cases ih with
    | nothing hnull => exact absurd hnull (by rw [nullable_production]; exact Bool.false_ne_true)
    | paid h =>
      refine .paid ?_
      change _ ≤ 5 * _ + name.lead
      rw [callCount_enter, callCount_append, callCount_leave, tokensConsumed_enter,
        tokensConsumed_append, tokensConsumed_leave, List.append_nil]
      omega
  | sequence _ _ ihp ihq => exact ihp.sequence ihq
  | left _ ih =>
    exact ih.mono (fun h => Bool.or_eq_true_iff.mpr (.inl h)) (Nat.le_max_left _ _)
  | right _ ih =>
    exact ih.mono (fun h => Bool.or_eq_true_iff.mpr (.inr h)) (Nat.le_max_right _ _)
  | absent | done => exact .nothing rfl rfl rfl
  | present _ ih => exact ih.mono (fun _ => rfl) (Nat.le_refl _)
  | @more p _ _ _ _ _ _ _ ih ihs =>
    exact (ih.sequence ihs).mono (fun _ => rfl) (Nat.le_of_eq p.lead_round)

theorem Paid.callCount_le {p q : Phrase} {es fs : List ParseEvent} (hp : Paid p es)
    (hq : callCount fs ≤ 5 * (tokensConsumed fs).length + q.lead) :
    callCount (es ++ fs) ≤
      5 * (tokensConsumed (es ++ fs)).length + (Phrase.sequence p q).lead := by
  have hfirst := p.lead_le_sequence q
  have hsecond := q.lead_le
  rw [callCount_append, tokensConsumed_append, List.length_append]
  cases hp with
  | nothing hnull hcalls htokens =>
    have hlead := Phrase.lead_le_sequence_of_nullable hnull q
    omega
  | paid h => omega

/-- Where a descent breaks off, the calls of the lead may not be paid for. -/
theorem Breaks.callCount_le (h : Breaks φ s es rest calls e) :
    callCount es ≤ 5 * (tokensConsumed es).length + φ.lead := by
  induction h with
  | word | neither => exact Nat.zero_le _
  | @rule name _ _ es _ _ _ _ ih =>
    have hlead := lead_production_lt name
    change _ ≤ _ + name.lead
    rw [callCount_enter, tokensConsumed_enter]
    omega
  | first _ ih => exact Nat.le_trans ih (Nat.add_le_add_left (Phrase.lead_le_sequence _ _) _)
  | second hp _ ih => exact hp.paid.callCount_le ih
  | left _ ih => exact Nat.le_trans ih (Nat.add_le_add_left (Nat.le_max_left _ _) _)
  | right _ ih => exact Nat.le_trans ih (Nat.add_le_add_left (Nat.le_max_right _ _) _)
  | present _ ih | round _ ih => exact ih
  | @later p _ _ _ _ _ _ _ h _ ih =>
    rw [← p.lead_round]
    exact h.paid.callCount_le ih

/-- No token that is consumed is the end of the text. -/
theorem Completes.endOfText_notMem (h : Completes φ s es rest) (hφ : .endOfText ∉ φ.kinds) :
    ∀ t ∈ tokensConsumed es, t.kind ≠ .endOfText := by
  intro t ht hkind
  exact h.derives_consumed.endOfText_notMem hφ (hkind ▸ List.mem_map_of_mem ht)

theorem Breaks.endOfText_notMem (h : Breaks φ s es rest calls e) (hφ : .endOfText ∉ φ.kinds) :
    ∀ t ∈ tokensConsumed es, t.kind ≠ .endOfText := by
  induction h with
  | word | neither => exact nofun
  | rule _ _ ih => exact ih (endOfText_notMem_production _)
  | first _ ih | left _ ih => exact ih fun h => hφ (List.mem_append_left _ h)
  | right _ ih => exact ih fun h => hφ (List.mem_append_right _ h)
  | present _ ih | round _ ih => exact ih hφ
  | second hp _ ih =>
    intro t ht
    rw [tokensConsumed_append] at ht
    rcases List.mem_append.mp ht with ht | ht
    · exact hp.endOfText_notMem (fun h => hφ (List.mem_append_left _ h)) t ht
    · exact ih (fun h => hφ (List.mem_append_right _ h)) t ht
  | later h _ ih =>
    intro t ht
    rw [tokensConsumed_append] at ht
    rcases List.mem_append.mp ht with ht | ht
    · exact h.endOfText_notMem hφ t ht
    · exact ih hφ t ht

end Grammar

/-! ## Advancing the lexer -/

/-- What the lexer has given to a parser, one answer for each time that it was advanced. Only the
last can be an error. -/
def Outcome.advances {α : Type} (o : Outcome α) : List (Except LexError Token) :=
  (tokensRead o.events).map .ok ++
    match o.result with
    | .error (.lexical e) => [.error e]
    | _ => []

namespace Lexer

/-- The lexer gives these results when it is advanced, and then has the other stream to read. -/
def Gives (l : Lexer) (results : List (Except LexError Token)) (s : TokenStream) : Prop :=
  l.answers (List.replicate results.length .advance) = results.map .token ∧
    (l.afterCalls (List.replicate results.length .advance)).unread = s

theorem Gives.cons {l : Lexer} {result : Except LexError Token}
    {results : List (Except LexError Token)} {s : TokenStream} (hresult : l.unread.head = result)
    (h : l.advance.2.Gives results s) : l.Gives (result :: results) s := by
  obtain ⟨hanswers, hunread⟩ := h
  refine ⟨?_, hunread⟩
  rw [← hresult, ← l.advance_spec.1]
  exact congrArg (LexerAnswer.token l.advance.1 :: ·) hanswers

end Lexer

/-- The events of a paced descent are those of a lexer that is one token ahead. -/
theorem Paced.gives {s rest : TokenStream} {es : List ParseEvent} (h : Paced s es rest)
    {l : Lexer} (hl : l.unread = s.tail) {last : List (Except LexError Token)}
    {after : TokenStream} (hlast : ∀ l : Lexer, l.unread = rest.tail → l.Gives last after) :
    l.Gives ((tokensRead es).map .ok ++ last) after := by
  induction h generalizing l with
  | stop => exact hlast l hl
  | @consume t next s rest es hnext _ ih =>
    rw [tail_cons] at hl
    refine .cons (hl ▸ hnext) (ih ?_ hlast)
    rw [l.advance_spec.2.1, hl]
  | skip hread _ _ ih =>
    rw [tokensRead, List.filterMap_cons_none hread]
    exact ih hl hlast

/-- As many tokens are read as consumed. -/
theorem Paced.length_read {s rest : TokenStream} {es : List ParseEvent} (h : Paced s es rest) :
    (tokensRead es).length = (tokensConsumed es).length := by
  induction h with
  | stop => rfl
  | consume _ _ ih => exact congrArg (· + 1) ih
  | skip hread hconsumed _ ih =>
    rw [tokensRead, tokensConsumed, List.filterMap_cons_none hread,
      List.filterMap_cons_none hconsumed]
    exact ih

/-- Reading goes no further than the tokens of the stream. -/
theorem Paced.length_advances_le {s rest : TokenStream} {es : List ParseEvent}
    (h : Paced s es rest) {last : List (Except LexError Token)}
    (hlast : last.length ≤ rest.tokens.length) :
    ((tokensRead es).map Except.ok ++ last).length ≤ s.tokens.length := by
  have hread := h.length_read
  have htokens := congrArg (fun s : TokenStream => s.tokens.length) h.eq_append
  simp only [tokens_append, List.length_append] at htokens
  rw [List.length_append, List.length_map]
  omega

/-! ## Rules -/

/-- What a rule does on a stream comes to an end. -/
structure Ends (name : RuleName) (s : TokenStream) (o : Outcome name.Value) : Prop where
  descent : Follows (.rule name) s o
  /-- No recursion or loop is cut short because it consumed nothing. -/
  unguarded : ∀ found p, o.result ≠ .error (.unexpected (.oneOf []) found p)
  calls : callCount o.events ≤ 5 * ((tokensConsumed o.events).length + 1)
  consumed : s = tokensConsumed o.events ++ o.rest
  /-- A rule that succeeds has consumed a token. -/
  success : ∀ v, o.result = .ok v → tokensConsumed o.events ≠ []
  endOfText : ∀ t ∈ tokensConsumed o.events, t.kind ≠ .endOfText
  /-- The lexer is not advanced more often than there are tokens before the end. -/
  advances : o.advances.length ≤ s.tokens.length
  /-- This is how a lexer is advanced whose last token is the current one. -/
  lexer : ∀ l : Lexer, l.unread = s.tail → l.Gives o.advances o.rest.tail

/-- A descent that is completed ends where it has consumed what its rule derives. -/
theorem Grammar.Completes.ends {name : RuleName} {s rest : TokenStream} {es : List ParseEvent}
    (h : Completes (.rule name) s es rest) (hrest : rest.Readable) (v : name.Value) :
    Ends name s ⟨.ok v, rest, es⟩ where
  descent := .completed h hrest
  unguarded := nofun
  calls := by
    have hlead := (Phrase.rule name).lead_le
    cases h.paid with
    | nothing _ hcalls _ => exact hcalls ▸ Nat.zero_le _
    | paid hpaid =>
      dsimp only
      omega
  consumed := h.paced.eq_append
  success _ _ hnil := by
    apply h.derives_consumed.ne_nil rfl
    rw [hnil]
    rfl
  endOfText := h.endOfText_notMem List.not_mem_nil
  advances := h.paced.length_advances_le (Nat.zero_le _)
  lexer _ hl := h.paced.gives hl fun _ hl => ⟨rfl, hl⟩

/-- A descent that breaks off ends with a token that is not expected, or one after which none can be
read. -/
theorem Grammar.Breaks.ends {name : RuleName} {s rest : TokenStream} {es : List ParseEvent}
    {calls : List RuleCall} {e : ParseError} (h : Breaks (.rule name) s es rest calls e) :
    Ends name s ⟨.error e, rest, es⟩ where
  descent := .broken h
  unguarded found p he := by
    obtain rfl := Except.error.inj he
    cases h.stuck with
    | mismatch _ hkinds => exact hkinds rfl
  calls := Nat.le_trans h.callCount_le (Nat.add_le_add_left (Phrase.rule name).lead_le _)
  consumed := h.paced.eq_append
  success := nofun
  endOfText := h.endOfText_notMem List.not_mem_nil
  advances := by
    cases h.stuck with
    | mismatch => exact h.paced.length_advances_le (Nat.zero_le _)
    | unreadable t x => exact h.paced.length_advances_le (Nat.le_refl 1)
  lexer _ hl := by
    cases h.stuck with
    | mismatch => exact h.paced.gives hl fun _ hl => ⟨rfl, hl⟩
    | unreadable t x =>
      refine h.paced.gives hl fun l hl => ?_
      rw [tail_cons] at hl ⊢
      refine .cons (hl ▸ rfl) ⟨rfl, ?_⟩
      change l.advance.2.unread = _
      rw [l.advance_spec.2.1, hl]
      rfl

theorem ends_rule (name : RuleName) {s : TokenStream} (hs : s.Readable) :
    Ends name s (ruleParser name .full s) := by
  have hfollows := follows_rule name hs
  generalize ruleParser name .full s = o at hfollows
  cases hfollows with
  | completed h hrest => exact h.ends hrest _
  | broken h => exact h.ends

/-- A rule does the same whatever is traced. -/
theorem inert_rule (name : RuleName) : Inert (ruleParser name) := by
  cases name with
  | program => exact inert_program
  | body => exact inert_body
  | declarations => exact inert_declarations
  | declaration => exact inert_declaration
  | statements => exact inert_statementsWith inert_body
  | statement => exact inert_statementWith inert_body
  | assignment => exact inert_assignment
  | conditional => exact inert_conditionalWith inert_body
  | iterative => exact inert_iterativeWith inert_body
  | print => exact inert_print
  | expression => exact inert_expression
  | simpleExpression => exact inert_simpleExpressionWith inert_expression
  | term => exact inert_termWith inert_expression
  | factor => exact inert_factorWith inert_expression
  | literal => exact inert_literal

/-! ## The whole front end -/

/-- The lexer and the parser make progress, and so come to an end. -/
structure Progresses (source : String) : Prop where
  /-- A token other than the end of the text takes at least one character. -/
  character : ∀ (l l' : Lexer) (t : Token), l.advance = (.ok t, l') → t.kind ≠ .endOfText →
    l'.scanner.source.remaining.length < l.scanner.source.remaining.length
  collect : (Lexer.ofString source).collect (source.length + 1) = some (collectTokens source)
  tokens : (collectTokens source).1.length ≤ source.length + 1
  /-- Recursion never gets as deep as there are tokens, whatever would be called there. -/
  depth : ∀ n, (∀ p, Agree n (expressionWith^[n] p) expression) ∧
    ∀ p, Agree n (bodyWith^[n] p) body
  /-- The events of a run that traces everything tell how a rule ends. -/
  rules : ∀ (name : RuleName) (s : TokenStream), s.Readable → Ends name s (ruleParser name .full s)
  /-- Whatever else is traced, a rule ends like that, and tells of some of these events. -/
  traced : ∀ (name : RuleName) (s : TokenStream) (tracing : Tracing),
    (ruleParser name tracing s).quiet = (ruleParser name .full s).quiet ∧
      (ruleParser name tracing s).events =
        (ruleParser name .full s).events.filter tracing.shows

theorem frontEnd_progresses (source : String) : Progresses source := by
  have hlength := length_ofString_le source
  refine ⟨fun _ _ _ => Lexer.length_advance_lt, ?_, ?_, fun n => ⟨agree_expression n,
    agree_body n⟩, fun name s => ends_rule name, fun name s tracing =>
    ⟨(inert_rule name).quiet_eq tracing s, (inert_rule name).events_eq tracing s⟩⟩
  · rw [Lexer.collect_eq (Nat.lt_succ_of_le hlength)]
    rfl
  · exact Nat.le_trans (length_listing_le _) (Nat.succ_le_succ hlength)

end WhileLang
