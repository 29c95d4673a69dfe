import WhileLang.Proofs.Parsing.Runs

/-!
# What is traced makes no difference

A parser looks at what it is asked to trace wherever it consumes a token and around every rule. Two
runs of it on one stream that are asked to trace different things are nevertheless in step
(`Outcome.InStep`): they give the same result, leave the same stream, and tell of the same events as
far as both are asked to. Every way of building a parser keeps this, and so every rule has it.

Hence a parser that is asked for less tells of a selection of what it tells of when it is asked for
everything (`Inert.events_eq`), and nothing else changes (`Inert.quiet_eq`).
-/

namespace WhileLang

variable {α β : Type}

/-! ## Events that are told -/

namespace Tracing

theorem shows_full (event : ParseEvent) : full.shows event = true := by
  cases event <;> rfl

/-- Two parsers tell of an event alike as far as both are asked to. -/
theorem filter_tell (tracing tracing' : Tracing) (event : ParseEvent) :
    (tracing.tell event).filter tracing'.shows = (tracing'.tell event).filter tracing.shows := by
  unfold tell
  cases h : tracing.shows event <;> cases h' : tracing'.shows event <;> simp [h, h']

end Tracing

/-! ## Two runs in step -/

/-- Two outcomes of one parser on one stream that was asked to trace this and that. -/
structure Outcome.InStep (tracing tracing' : Tracing) (o o' : Outcome α) : Prop where
  quiet : o.quiet = o'.quiet
  events : o.events.filter tracing'.shows = o'.events.filter tracing.shows

namespace Parser

/-- Whatever is traced, the runs on a stream are in step. -/
def Inert (p : Parser α) : Prop :=
  ∀ (tracing tracing' : Tracing) (s : TokenStream),
    Outcome.InStep tracing tracing' (p tracing s) (p tracing' s)

theorem inert_pure (a : α) : Inert (pure a : Parser α) := fun _ _ _ => ⟨rfl, rfl⟩

theorem Inert.bind {p : Parser α} {f : α → Parser β} (hp : Inert p) (hf : ∀ a, Inert (f a)) :
    Inert (p >>= f) := by
  intro tracing tracing' s
  have h := hp tracing tracing' s
  change Outcome.InStep _ _ (andThen p f tracing s) (andThen p f tracing' s)
  unfold andThen
  generalize p tracing s = o at h
  generalize p tracing' s = o' at h
  obtain ⟨result, rest, events⟩ := o
  obtain ⟨_, _, events'⟩ := o'
  obtain ⟨hquiet, hevents⟩ := h
  obtain ⟨rfl, rfl⟩ := Prod.mk.inj hquiet
  cases result with
  | error e => exact ⟨rfl, hevents⟩
  | ok a =>
    have hlater := hf a tracing tracing' rest
    refine ⟨hlater.quiet, ?_⟩
    dsimp only at hevents ⊢
    rw [List.filter_append, List.filter_append, hevents, hlater.events]

theorem Inert.map {p : Parser α} (f : α → β) (h : Inert p) : Inert (f <$> p) :=
  h.bind fun a => inert_pure (f a)

theorem Inert.ite {c : Prop} [Decidable c] {p q : Parser α} (hp : Inert p) (hq : Inert q) :
    Inert (if c then p else q) := by
  split
  · exact hp
  · exact hq

theorem inert_peek : Inert peek := by
  intro tracing tracing' s
  unfold peek
  split <;> exact ⟨rfl, rfl⟩

theorem inert_unexpected (e : Expected) : Inert (unexpected e : Parser α) := by
  intro tracing tracing' s
  unfold unexpected
  split <;> exact ⟨rfl, rfl⟩

/-- A token is consumed alike, whether this is told or not. -/
theorem inert_take? (accepts : TokenKind → Option α) : Inert (take? accepts) := by
  intro tracing tracing' s
  unfold take?
  split
  · exact ⟨rfl, rfl⟩
  · next t _ _ =>
    split
    · exact ⟨rfl, rfl⟩
    · split
      · exact ⟨rfl, rfl⟩
      · next next _ =>
        have htold := congrArg (List.cons (ParseEvent.read next))
          (tracing.filter_tell tracing' (.consumed t))
        exact ⟨rfl, htold⟩

theorem inert_expect (kinds : List TokenKind) : Inert (expect kinds) := by
  refine (inert_take? _).bind fun r => ?_
  cases r with
  | none => exact inert_unexpected _
  | some r => exact inert_pure r.2

/-- A rule succeeds or fails alike, whether its beginning and its end are told or not. -/
theorem Inert.inRule {p : Parser α} (rule : RuleName) (hp : Inert p) : Inert (p.inRule rule) := by
  intro tracing tracing' s
  have h := hp tracing tracing' s
  have hbegun := tracing.filter_tell tracing' (.enter rule)
  have hended := tracing.filter_tell tracing' (.leave rule)
  unfold Parser.inRule
  generalize p tracing s = o at h
  generalize p tracing' s = o' at h
  obtain ⟨result, rest, events⟩ := o
  obtain ⟨_, _, events'⟩ := o'
  obtain ⟨hquiet, hevents⟩ := h
  obtain ⟨rfl, rfl⟩ := Prod.mk.inj hquiet
  cases result with
  | error e =>
    refine ⟨rfl, ?_⟩
    dsimp only at hevents ⊢
    rw [List.filter_append, List.filter_append, hbegun, hevents]
  | ok a =>
    refine ⟨rfl, ?_⟩
    dsimp only at hevents ⊢
    simp only [List.filter_append, hbegun, hevents, hended]

/-- A recursive parser is inert if its body is, given parsers that are. -/
theorem inert_fix {body : (β → Parser α) → β → Parser α}
    (hbody : ∀ p, (∀ b, Inert (p b)) → ∀ b, Inert (body p b)) (b : β) : Inert (fix body b) := by
  intro tracing tracing' s
  generalize hn : s.length = n
  induction n using Nat.strongRecOn generalizing b tracing tracing' s with
  | ind n ih =>
    rw [fix, fix]
    refine hbody _ (fun b' tracing tracing' s' => ?_) b tracing tracing' s
    split
    · next hlt => exact ih s'.length (hn ▸ hlt) b' tracing tracing' s' rfl
    · exact inert_unexpected _ tracing tracing' s'

theorem inert_iterate {step : α → Parser (Option α)} (hstep : ∀ a, Inert (step a)) (a : α) :
    Inert (iterate step a) := by
  refine inert_fix (fun again hagain a => (hstep a).bind fun r => ?_) a
  cases r with
  | none => exact inert_pure a
  | some a' => exact hagain a'

/-! ## Any run and the fully traced one -/

/-- What is traced makes no difference to the result and to the stream that is left. -/
theorem Inert.quiet_eq {p : Parser α} (h : Inert p) (tracing : Tracing) (s : TokenStream) :
    (p tracing s).quiet = run p s := (h tracing .full s).quiet

theorem Inert.result_eq {p : Parser α} (h : Inert p) (tracing : Tracing) (s : TokenStream) :
    (p tracing s).result = (run p s).1 := congrArg Prod.fst (h.quiet_eq tracing s)

theorem Inert.rest_eq {p : Parser α} (h : Inert p) (tracing : Tracing) (s : TokenStream) :
    (p tracing s).rest = (run p s).2 := congrArg Prod.snd (h.quiet_eq tracing s)

/-- What is told is selected from what a fully traced run tells. -/
theorem Inert.events_eq {p : Parser α} (h : Inert p) (tracing : Tracing) (s : TokenStream) :
    (p tracing s).events = (p .full s).events.filter tracing.shows := by
  have hevents := (h tracing .full s).events
  rwa [List.filter_eq_self.mpr fun event _ => Tracing.shows_full event] at hevents

end Parser

/-! ## The rules -/

namespace Grammar

open WhileLang.Parser

theorem inert_leftChain {operator? : TokenKind → Option BinaryOp} {operand : Parser Tree}
    (h : Inert operand) : Inert (leftChain operator? operand) := by
  refine h.bind fun first => inert_iterate (fun left => ?_) first
  refine (inert_take? _).bind fun r => ?_
  cases r with
  | none => exact inert_pure none
  | some r => exact h.bind fun right => inert_pure _

theorem inert_literal : Inert literal :=
  Inert.inRule _ ((inert_expect _).bind fun _ => inert_pure _)

theorem inert_closeParenthesis : Inert closeParenthesis := by
  refine inert_peek.bind fun kind => ?_
  split
  · exact (inert_expect _).bind fun _ => inert_pure ()
  · exact (inert_pure ()).ite (inert_unexpected _)

theorem inert_operandWith {p : Parser Tree} (h : Inert p) : Inert (operandWith p) := by
  refine inert_peek.bind fun kind => ?_
  split
  any_goals exact inert_literal
  · exact (inert_expect _).bind fun _ => inert_pure _
  · exact (inert_expect _).bind fun _ =>
      h.bind fun _ => inert_closeParenthesis.bind fun _ => inert_pure _
  · exact inert_unexpected _

theorem inert_factorWith {p : Parser Tree} (h : Inert p) : Inert (factorWith p) := by
  refine Inert.inRule _ ((inert_take? _).bind fun r => ?_)
  cases r with
  | none => exact inert_operandWith h
  | some r => exact (inert_operandWith h).bind fun _ => inert_pure _

theorem inert_termWith {p : Parser Tree} (h : Inert p) : Inert (termWith p) :=
  Inert.inRule _ (inert_leftChain (inert_factorWith h))

theorem inert_simpleExpressionWith {p : Parser Tree} (h : Inert p) :
    Inert (simpleExpressionWith p) :=
  Inert.inRule _ (inert_leftChain (inert_termWith h))

theorem inert_expressionWith {p : Parser Tree} (h : Inert p) : Inert (expressionWith p) := by
  refine Inert.inRule _ ((inert_simpleExpressionWith h).bind fun left =>
    (inert_take? _).bind fun r => ?_)
  cases r with
  | none => exact inert_pure left
  | some r => exact (inert_simpleExpressionWith h).bind fun _ => inert_pure _

theorem inert_expression : Inert expression :=
  inert_fix (fun _ h _ => inert_expressionWith (h ())) ()

theorem inert_declaration : Inert declaration :=
  Inert.inRule _ ((inert_expect _).bind fun _ => (inert_expect _).bind fun _ =>
    (inert_expect _).bind fun _ => inert_pure _)

theorem inert_declarations : Inert declarations :=
  Inert.inRule _ (inert_declaration.bind fun first =>
    inert_iterate
      (fun _ => inert_peek.bind fun _ =>
        (inert_declaration.bind fun _ => inert_pure _).ite (inert_pure none))
      first)

theorem inert_optionalDeclarations : Inert optionalDeclarations :=
  inert_peek.bind fun _ => inert_declarations.ite (inert_pure _)

theorem inert_assignment : Inert assignment :=
  Inert.inRule _ ((inert_expect _).bind fun _ => (inert_expect _).bind fun _ =>
    inert_expression.bind fun _ => inert_pure _)

theorem inert_print : Inert print :=
  Inert.inRule _ ((inert_expect _).bind fun _ => inert_expression.bind fun _ => inert_pure _)

section

variable {p : Parser TreeBuilder} (h : Inert p)

include h

theorem inert_elseWith : Inert (elseWith p) := by
  refine (inert_take? _).bind fun r => ?_
  cases r with
  | none => exact inert_pure _
  | some r => exact h.bind fun _ => inert_pure _

theorem inert_conditionalWith : Inert (conditionalWith p) :=
  Inert.inRule _ ((inert_expect _).bind fun _ => inert_expression.bind fun _ =>
    (inert_expect _).bind fun _ => h.bind fun _ => (inert_elseWith h).bind fun _ =>
      (inert_expect _).bind fun _ => inert_pure _)

theorem inert_iterativeWith : Inert (iterativeWith p) :=
  Inert.inRule _ ((inert_expect _).bind fun _ => inert_expression.bind fun _ =>
    (inert_expect _).bind fun _ => h.bind fun _ => (inert_expect _).bind fun _ => inert_pure _)

theorem inert_statementWith : Inert (statementWith p) := by
  refine Inert.inRule _ (inert_peek.bind fun kind => ?_)
  split
  · exact Inert.map _ inert_assignment
  · exact Inert.map _ (inert_conditionalWith h)
  · exact Inert.map _ (inert_iterativeWith h)
  · exact Inert.map _ inert_print
  · exact inert_unexpected _

theorem inert_statementsWith : Inert (statementsWith p) := by
  refine Inert.inRule _ ((inert_statementWith h).bind fun first =>
    inert_iterate (fun tree => (inert_take? _).bind fun r => ?_) first)
  cases r with
  | none => exact inert_pure none
  | some r => exact (inert_statementWith h).bind fun _ => inert_pure _

theorem inert_bodyWith : Inert (bodyWith p) :=
  Inert.inRule _ (inert_optionalDeclarations.bind fun _ =>
    (inert_statementsWith h).bind fun _ => inert_pure _)

end

theorem inert_body : Inert body :=
  inert_fix (fun _ h _ => inert_bodyWith (h ())) ()

theorem inert_program : Inert program :=
  Inert.inRule _ ((inert_expect _).bind fun _ => (inert_expect _).bind fun _ =>
    (inert_expect _).bind fun _ => inert_body.bind fun _ =>
      (inert_expect _).bind fun _ => inert_pure _)

/-- However often programs are parsed, each call does what a fully traced run does. -/
theorem programs_succ (n : Nat) (s : TokenStream) (tracing : Tracing) :
    programs (n + 1) s tracing = (run program s).1 :: programs n (run program s).2 tracing := by
  rw [programs, inert_program.result_eq, inert_program.rest_eq]

end Grammar

end WhileLang
