import WhileLang.Proofs.Diagnostics
import WhileLang.Proofs.Parsing.DescentRules
import WhileLang.Proofs.Parsing.Trailing

/-!
# The trace of rules

If rules are traced, the log of a syntactic analysis says where each rule begins and where it ends
with success. These records are the log of the calls that the parser made (`ruleRecords_callLog`):

* they are nested, and each rule begins inside one whose production names it;
* all rules are closed if and only if the text is a program;
* if it is not, the rules that are not closed are those that were under way, from the rule for
  programs to the one that could not go on, and nothing is recorded after that.

What is nested is read off descents, whose events are those of the parser.
-/

namespace WhileLang

open Grammar TokenStream

/-! ## Steps -/

/-- A record of the trace: a rule begins, or it ends with success. -/
inductive RuleStep where
  | enter (rule : RuleName)
  | leave (rule : RuleName)

namespace RuleStep

def text : RuleStep → String
  | enter rule => "Begin: " ++ rule.text
  | leave rule => "End: " ++ rule.text

def record (step : RuleStep) : LogRecord := ⟨.debug, .parser, step.text, []⟩

/-- The rules that are not closed after the step, given those before it. The innermost comes
first. -/
def unclosed : RuleStep → List RuleName → List RuleName
  | enter rule, active => rule :: active
  | leave _, active => active.tail

end RuleStep

/-- The step is in its place while these rules are not closed: a rule begins inside one that calls
it, and the one that ends is the innermost. -/
def RuleStep.Fits : RuleStep → List RuleName → Prop
  | enter rule, active =>
    ∃ caller, active.head? = some caller ∧ rule ∈ (production caller).rules
  | leave rule, active => active.head? = some rule

def ParseEvent.step? : ParseEvent → Option RuleStep
  | .enter rule => some (.enter rule)
  | .leave rule => some (.leave rule)
  | .read _ | .consumed _ => none

/-- The steps among events. -/
def ruleSteps (events : List ParseEvent) : List RuleStep := events.filterMap ParseEvent.step?

@[simp] theorem ruleSteps_append (es fs : List ParseEvent) :
    ruleSteps (es ++ fs) = ruleSteps es ++ ruleSteps fs := List.filterMap_append

@[simp] theorem ruleSteps_enter (rule : RuleName) (es : List ParseEvent) :
    ruleSteps (.enter rule :: es) = .enter rule :: ruleSteps es := rfl

@[simp] theorem ruleSteps_inRule (rule : RuleName) (es : List ParseEvent) :
    ruleSteps (.enter rule :: (es ++ [.leave rule])) =
      .enter rule :: (ruleSteps es ++ [.leave rule]) := by
  rw [ruleSteps_enter, ruleSteps_append]
  rfl

/-! ## Nested steps -/

/-- The rules that are not closed after the steps. -/
def unclosedAfter (active : List RuleName) (steps : List RuleStep) : List RuleName :=
  steps.foldl (fun active step => step.unclosed active) active

@[simp] theorem unclosedAfter_nil (active : List RuleName) : unclosedAfter active [] = active := rfl

@[simp] theorem unclosedAfter_cons (active : List RuleName) (step : RuleStep)
    (steps : List RuleStep) :
    unclosedAfter active (step :: steps) = unclosedAfter (step.unclosed active) steps := rfl

@[simp] theorem unclosedAfter_append (active : List RuleName) (steps later : List RuleStep) :
    unclosedAfter active (steps ++ later) = unclosedAfter (unclosedAfter active steps) later :=
  List.foldl_append

/-- Every step is in its place. -/
def Nested (active : List RuleName) (steps : List RuleStep) : Prop :=
  ∀ before step after, steps = before ++ step :: after → step.Fits (unclosedAfter active before)

namespace Nested

variable {active : List RuleName}

theorem nil (active : List RuleName) : Nested active [] := by
  intro before step after h
  simp at h

theorem append {steps later : List RuleStep} (h : Nested active steps)
    (hlater : Nested (unclosedAfter active steps) later) : Nested active (steps ++ later) := by
  intro before step after heq
  rcases List.append_eq_append_iff.mp heq with ⟨within, rfl, hw⟩ | ⟨within, rfl, hw⟩
  · rw [unclosedAfter_append]
    exact hlater within step after hw
  · cases within with
    | nil =>
      rw [List.append_nil] at hlater
      exact hlater [] step after hw.symm
    | cons step' within =>
      obtain ⟨rfl, -⟩ := List.cons.inj hw
      exact h before step within rfl

theorem singleton {step : RuleStep} (h : step.Fits active) : Nested active [step] := by
  intro before step' after heq
  rw [List.singleton_eq_append_iff] at heq
  rcases heq with ⟨rfl, hstep⟩ | ⟨-, hnil⟩
  · obtain ⟨rfl, -⟩ := List.cons.inj hstep
    exact h
  · exact absurd hnil (List.cons_ne_nil _ _)

theorem cons {step : RuleStep} {steps : List RuleStep} (h : step.Fits active)
    (hlater : Nested (step.unclosed active) steps) : Nested active (step :: steps) :=
  append (singleton h) hlater

end Nested

/-! ## The steps of a descent -/

namespace Grammar

/-- All rules that begin among the events end among them. -/
def Closed (es : List ParseEvent) : Prop :=
  ∀ active, unclosedAfter active (ruleSteps es) = active

theorem Closed.nil : Closed [] := fun _ => rfl

theorem Closed.append {es fs : List ParseEvent} (hes : Closed es) (hfs : Closed fs) :
    Closed (es ++ fs) := by
  intro active
  rw [ruleSteps_append, unclosedAfter_append, hes, hfs]

theorem Closed.inRule {es : List ParseEvent} (h : Closed es) (rule : RuleName) :
    Closed (.enter rule :: (es ++ [.leave rule])) := by
  intro active
  rw [ruleSteps_inRule, unclosedAfter_cons, unclosedAfter_append, h]
  rfl

variable {φ : Phrase} {s rest : TokenStream} {es : List ParseEvent} {calls : List RuleCall}
  {e : ParseError}

theorem Completes.closed (h : Completes φ s es rest) : Closed es := by
  induction h with
  | word => exact fun _ => rfl
  | rule _ ih => exact ih.inRule _
  | sequence _ _ ihp ihq => exact ihp.append ihq
  | left _ ih | right _ ih | present _ ih => exact ih
  | absent | done => exact .nil
  | more _ _ ih ihs => exact ih.append ihs

/-- Inside a rule that calls all rules of the phrase, a descent through it is nested. -/
theorem Completes.nested (h : Completes φ s es rest) {caller : RuleName}
    (hφ : φ.rules ⊆ (production caller).rules) (outer : List RuleName) :
    Nested (caller :: outer) (ruleSteps es) := by
  induction h generalizing caller outer with
  | word | absent | done => exact .nil _
  | @rule name s rest es h ih =>
    have hcalled : name ∈ (production caller).rules := hφ (List.mem_singleton_self name)
    rw [ruleSteps_inRule]
    refine .cons ⟨caller, rfl, hcalled⟩ (.append (ih (List.Subset.refl _) _) ?_)
    rw [h.closed]
    exact .singleton rfl
  | sequence hp _ ihp ihq =>
    obtain ⟨hleft, hright⟩ := List.append_subset.mp hφ
    rw [ruleSteps_append]
    refine .append (ihp hleft outer) ?_
    rw [hp.closed]
    exact ihq hright outer
  | left _ ih => exact ih (List.append_subset.mp hφ).1 outer
  | right _ ih => exact ih (List.append_subset.mp hφ).2 outer
  | present _ ih => exact ih hφ outer
  | more h _ ih ihs =>
    rw [ruleSteps_append]
    refine .append (ih hφ outer) ?_
    rw [h.closed]
    exact ihs hφ outer

theorem Breaks.nested (h : Breaks φ s es rest calls e) {caller : RuleName}
    (hφ : φ.rules ⊆ (production caller).rules) (outer : List RuleName) :
    Nested (caller :: outer) (ruleSteps es) := by
  induction h generalizing caller outer with
  | word | neither => exact .nil _
  | @rule name _ _ _ _ _ _ _ ih =>
    have hcalled : name ∈ (production caller).rules := hφ (List.mem_singleton_self name)
    exact .cons ⟨caller, rfl, hcalled⟩ (ih (List.Subset.refl _) _)
  | first _ ih | left _ ih => exact ih (List.append_subset.mp hφ).1 outer
  | right _ ih => exact ih (List.append_subset.mp hφ).2 outer
  | second hp _ ih =>
    obtain ⟨hleft, hright⟩ := List.append_subset.mp hφ
    rw [ruleSteps_append]
    refine .append (hp.nested hleft outer) ?_
    rw [hp.closed]
    exact ih hright outer
  | present _ ih | round _ ih => exact ih hφ outer
  | later h _ ih =>
    rw [ruleSteps_append]
    refine .append (h.nested hφ outer) ?_
    rw [h.closed]
    exact ih hφ outer

/-- The rules that are not closed are those of the calls under way. -/
theorem Breaks.unclosedAfter_eq (h : Breaks φ s es rest calls e) (active : List RuleName) :
    unclosedAfter active (ruleSteps es) = (calls.map RuleCall.rule).reverse ++ active := by
  induction h generalizing active with
  | word | neither => rfl
  | rule _ _ ih =>
    rw [ruleSteps_enter, unclosedAfter_cons, ih, List.map_cons, List.reverse_cons,
      List.append_assoc]
    rfl
  | first _ ih | left _ ih | right _ ih | present _ ih | round _ ih => exact ih active
  | second h _ ih | later h _ ih => rw [ruleSteps_append, unclosedAfter_append, h.closed, ih]

/-! ## The calls under way -/

/-- How a descent through a phrase breaks off: it is stuck itself, or a rule of the phrase is called
and breaks off, after all that was called before has ended. -/
inductive BreaksIn (φ : Phrase) (s rest : TokenStream) (e : ParseError) :
    List ParseEvent → List RuleCall → Prop where
  | stuck {es : List ParseEvent} (hes : Closed es) (h : Stuck rest e) : BreaksIn φ s rest e es []
  | called {us : List Token} {name : RuleName} {s' : TokenStream} {before es : List ParseEvent}
      {calls : List RuleCall} (hbefore : Closed before) (hname : name ∈ φ.rules)
      (hs : s = us ++ s') (h : Breaks (.rule name) s' es rest (⟨name, s'⟩ :: calls) e) :
      BreaksIn φ s rest e (before ++ es) (⟨name, s'⟩ :: calls)

namespace BreaksIn

theorem mono {ψ : Phrase} (h : BreaksIn φ s rest e es calls) (hφ : φ.rules ⊆ ψ.rules) :
    BreaksIn ψ s rest e es calls := by
  cases h with
  | stuck hes h => exact .stuck hes h
  | called hbefore hname hs h => exact .called hbefore (hφ hname) hs h

/-- Something else may be completed before. -/
theorem after {ψ : Phrase} {s' : TokenStream} {before : List ParseEvent}
    (hp : Completes ψ s before s') (h : BreaksIn φ s' rest e es calls) :
    BreaksIn φ s rest e (before ++ es) calls := by
  obtain ⟨us, rfl, -⟩ := hp.exists_append
  cases h with
  | stuck hes h => exact .stuck (hp.closed.append hes) h
  | @called vs name s'' before' es calls hbefore hname hs h =>
    rw [← List.append_assoc]
    rw [hs, ← append_append]
    exact .called (hp.closed.append hbefore) hname rfl h

end BreaksIn

theorem Breaks.inCall (h : Breaks φ s es rest calls e) : BreaksIn φ s rest e es calls := by
  induction h with
  | word h | neither h => exact .stuck .nil h
  | @rule name s rest es calls e h hrun =>
    have hs : s = ([] : List Token) ++ s := rfl
    exact .called .nil (List.mem_singleton_self name) hs (h.rule hrun)
  | first _ ih | left _ ih => exact ih.mono (List.subset_append_left _ _)
  | right _ ih => exact ih.mono (List.subset_append_right _ _)
  | second hp _ ih => exact (ih.after hp).mono (List.subset_append_right _ _)
  | present _ ih | round _ ih => exact ih.mono (List.Subset.refl _)
  | later h _ ih => exact ih.after h

/-- The last thing that the first call did was the second, directly. It did nothing more when that
had failed. -/
structure RuleCall.FailsIn (c d : RuleCall) : Prop where
  calls : d.rule ∈ (production c.rule).rules
  stream : ∃ us : List Token, c.stream = us ++ d.stream
  rest : c.outcome.rest = d.outcome.rest
  events : ∃ before, c.outcome.events = before ++ d.outcome.events ∧
    unclosedAfter [] (ruleSteps before) = [c.rule]

/-- The call failed itself: all that it called has ended, and it cannot go on where it stands. -/
structure RuleCall.FailsItself (c : RuleCall) (e : ParseError) : Prop where
  events : unclosedAfter [] (ruleSteps c.outcome.events) = [c.rule]
  stuck : Stuck c.outcome.rest e

/-- The calls that are under way when the first of them fails, down to the one that fails itself. -/
structure UnderWay (calls : List RuleCall) (e : ParseError) : Prop where
  failed : ∀ c ∈ calls, c.outcome.result = .error e
  chain : calls.IsChain RuleCall.FailsIn
  last : ∃ c, calls.getLast? = some c ∧ c.FailsItself e

theorem UnderWay.cons {c d : RuleCall} (hc : c.outcome.result = .error e) (hcd : c.FailsIn d)
    (h : UnderWay (d :: calls) e) : UnderWay (c :: d :: calls) e := by
  obtain ⟨last, hlast, hstuck⟩ := h.last
  refine ⟨?_, .cons_cons hcd h.chain, last, ?_, hstuck⟩
  · intro c' hc'
    rcases List.mem_cons.mp hc' with rfl | hmem
    · exact hc
    · exact h.failed c' hmem
  · rw [List.getLast?_cons_cons]
    exact hlast

/-- A rule that breaks off is the outermost of the calls under way. -/
theorem Breaks.exists_call {name : RuleName} (h : Breaks (.rule name) s es rest calls e) :
    ∃ inner, calls = ⟨name, s⟩ :: inner ∧
      (⟨name, s⟩ : RuleCall).outcome = ⟨.error e, rest, es⟩ := by
  cases h with
  | rule h hrun => exact ⟨_, rfl, hrun⟩

theorem Breaks.underWay {name : RuleName}
    (h : Breaks (.rule name) s es rest (⟨name, s⟩ :: calls) e) :
    UnderWay (⟨name, s⟩ :: calls) e := by
  induction calls generalizing name s es with
  | nil =>
    obtain ⟨-, -, hrun⟩ := h.exists_call
    cases h with
    | rule h =>
      cases h.inCall with
      | stuck hes hstuck =>
        refine ⟨?_, .singleton _, ⟨name, s⟩, rfl, ?_, ?_⟩
        · intro c hc
          rw [List.mem_singleton.mp hc, hrun]
        · rw [hrun, ruleSteps_enter, unclosedAfter_cons, hes]
          rfl
        · rw [hrun]
          exact hstuck
  | cons d calls ih =>
    obtain ⟨-, -, hrun⟩ := h.exists_call
    cases h with
    | rule h =>
      cases h.inCall with
      | @called us name' s' before es' _ hbefore hname hs hd =>
        obtain ⟨-, -, hrun'⟩ := hd.exists_call
        refine .cons ?_ ⟨hname, ⟨us, hs⟩, ?_, .enter name :: before, ?_, ?_⟩ (ih hd)
        · rw [hrun]
        · rw [hrun, hrun']
        · rw [hrun, hrun']
          rfl
        · rw [ruleSteps_enter, unclosedAfter_cons, hbefore]
          rfl

/-- Nothing is done after a call that fails is under way. -/
theorem UnderWay.events_suffix {c : RuleCall} (h : UnderWay (c :: calls) e) :
    ∀ d ∈ c :: calls, d.outcome.events <:+ c.outcome.events := by
  have hchain := h.chain
  clear h
  induction calls generalizing c with
  | nil =>
    intro d hd
    obtain rfl := List.mem_singleton.mp hd
    exact List.suffix_rfl
  | cons c' calls ih =>
    intro d hd
    rcases List.mem_cons.mp hd with rfl | hmem
    · exact List.suffix_rfl
    · obtain ⟨hcall, hlater⟩ := List.isChain_cons_cons.mp hchain
      obtain ⟨before, hbefore, -⟩ := hcall.events
      rw [hbefore]
      exact (ih hlater d hmem).trans (List.suffix_append _ _)

end Grammar

/-! ## The records of an analysis -/

/-- The record belongs to the trace of rules. Its message shows it. -/
def LogRecord.tracesRule (r : LogRecord) : Bool :=
  "Begin: ".toList.isPrefixOf r.message.toList || "End: ".toList.isPrefixOf r.message.toList

theorem RuleStep.tracesRule_record (step : RuleStep) : step.record.tracesRule = true := by
  cases step <;> simp [LogRecord.tracesRule, record, text]

theorem RuleName.text_injective : Function.Injective RuleName.text := by
  intro rule rule' h
  cases rule <;> cases rule' <;> first | rfl | exact absurd h (by decide)

/-- Different steps have different records. -/
theorem RuleStep.record_injective : Function.Injective RuleStep.record := by
  intro step step' h
  have htext : step.text.toList = step'.text.toList :=
    congrArg (fun r : LogRecord => r.message.toList) h
  cases step <;> cases step' <;> simp [text] at htext
  · rw [RuleName.text_injective (String.toList_injective htext)]
  · rw [RuleName.text_injective (String.toList_injective htext)]

/-- An event leaves a record of the trace if it is a step. -/
theorem ParseEvent.tracedRule?_eq {o : Options} (h : o.traceRules = true) (event : ParseEvent) :
    (event.record? o).filter LogRecord.tracesRule = event.step?.map RuleStep.record := by
  cases event with
  | read t | consumed t =>
    exact filter_record?_of_not (by simp [record, LogRecord.tracesRule, List.isPrefixOf])
  | enter rule =>
    have hrecord : record? o (.enter rule) = some (RuleStep.enter rule).record := if_pos h
    rw [hrecord, Option.filter_some_pos (RuleStep.tracesRule_record _)]
    rfl
  | leave rule =>
    have hrecord : record? o (.leave rule) = some (RuleStep.leave rule).record := if_pos h
    rw [hrecord, Option.filter_some_pos (RuleStep.tracesRule_record _)]
    rfl

/-- The records of the trace are those of the steps. -/
theorem filter_tracesRule {o : Options} (h : o.traceRules = true) (source : String) :
    (analyze o source).log.filter LogRecord.tracesRule =
      (ruleSteps (analysisEvents o.mode source)).map RuleStep.record := by
  refine analyze_filter_log (ParseEvent.tracedRule?_eq h) (fun mode tokens tree error? => ?_) source
  simp [finishedRecord, LogRecord.tracesRule, List.isPrefixOf]

/-- The steps are the log of the calls that the parser made on the text. -/
structure IsCallLog (source : String) (error? : Option ParseError) (steps : List RuleStep) :
    Prop where
  nested : ∃ later, steps = .enter .program :: later ∧ Nested [.program] later
  closed : unclosedAfter [] steps = [] ↔ error? = none
  /-- What is not closed after a failure was under way when it happened, and nothing is recorded
  later. -/
  failed : ∀ e, error? = some e → ∃ inner : List RuleCall,
    UnderWay (⟨.program, .ofString source⟩ :: inner) e ∧
      (unclosedAfter [] steps).reverse = .program :: inner.map RuleCall.rule ∧
      ∀ c ∈ RuleCall.mk .program (.ofString source) :: inner,
        ruleSteps c.outcome.events <:+ steps

/-- The parser of a text logs a descent through the rule for programs. -/
theorem isCallLog_parseText {source : String} (h : (collectTokens source).1 ≠ []) :
    IsCallLog source (ParseError.ofResult? (parseText .full source).1)
      (ruleSteps (parseText .full source).2) := by
  obtain ⟨first, hfirst⟩ := readable_iff_listing.mpr h
  obtain ⟨o, hrun, hparse, hfollows⟩ := parseText_follows hfirst
  rw [hparse]
  cases hfollows with
  | completed hc =>
    cases hc with
    | @rule _ _ rest es hc =>
      change IsCallLog source none (ruleSteps (.enter .program :: (es ++ [.leave .program])))
      refine ⟨⟨ruleSteps es ++ [.leave .program], ruleSteps_inRule _ _, ?_⟩, ?_, nofun⟩
      · refine .append (hc.nested (List.Subset.refl _) []) ?_
        rw [hc.closed]
        exact .singleton rfl
      · exact iff_of_true (hc.closed.inRule .program []) rfl
  | @broken e rest es calls hb =>
    have hunclosed := hb.unclosedAfter_eq []
    rw [List.append_nil] at hunclosed
    obtain ⟨inner, rfl, -⟩ := hb.exists_call
    have hway := hb.underWay
    change IsCallLog source (some e) (ruleSteps es)
    refine ⟨?_, ?_, ?_⟩
    · cases hb with
      | @rule _ _ _ es _ _ hb =>
        exact ⟨ruleSteps es, ruleSteps_enter _ _, hb.nested (List.Subset.refl _) []⟩
    · rw [hunclosed]
      exact iff_of_false (by simp) nofun
    · intro e' he
      obtain rfl := Option.some.inj he
      refine ⟨inner, hway, ?_, ?_⟩
      · rw [hunclosed, List.reverse_reverse]
        rfl
      · intro c hc
        obtain ⟨before, hbefore⟩ := hway.events_suffix c hc
        refine ⟨ruleSteps before, ?_⟩
        rw [← ruleSteps_append, hbefore]
        exact congrArg (fun o : Outcome TreeBuilder => ruleSteps o.events) hrun

/-- If rules are traced, the records of the trace are the log of the parser's calls, and tell it
unambiguously. -/
theorem ruleRecords_callLog (o : Options) (source : String) (hmode : o.mode = .syntactic)
    (htrace : o.traceRules = true) (h : (collectTokens source).1 ≠ []) :
    ∃ steps : List RuleStep,
      (∀ steps' : List RuleStep,
        (analyze o source).log.filter LogRecord.tracesRule = steps'.map RuleStep.record ↔
          steps' = steps) ∧
      IsCallLog source (analyze o source).error? steps := by
  refine ⟨ruleSteps (parseText .full source).2, ?_, ?_⟩
  · intro steps'
    rw [filter_tracesRule htrace, hmode]
    exact (List.map_inj_right fun _ _ heq => RuleStep.record_injective heq).trans eq_comm
  · rw [analyze_error?_eq hmode]
    exact isCallLog_parseText h

theorem ruleRecords_callLog_parenthesis :
    (collectTokens "program p : print (1 ; end").1 ≠ [] ∧
      (unclosedAfter [] (ruleSteps (parseText .full "program p : print (1 ; end").2)).reverse =
        [.program, .body, .statements, .statement, .print, .expression, .simpleExpression, .term,
          .factor] ∧
      ∃ steps : List RuleStep,
        (∀ steps' : List RuleStep,
          (analyze ⟨.syntactic, true, false, true⟩ "program p : print (1 ; end").log.filter
              LogRecord.tracesRule = steps'.map RuleStep.record ↔ steps' = steps) ∧
        IsCallLog "program p : print (1 ; end"
          (analyze ⟨.syntactic, true, false, true⟩ "program p : print (1 ; end").error?
          steps := by
  have hsome : (collectTokens "program p : print (1 ; end").1 ≠ [] := by decide +kernel
  exact ⟨hsome, by decide +kernel, ruleRecords_callLog _ _ rfl rfl hsome⟩

end WhileLang
