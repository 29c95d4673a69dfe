import WhileLang.Proofs.Diagnostics
import WhileLang.Proofs.Lexing.Cursor
import WhileLang.Proofs.Parsing.DescentRules
import WhileLang.Proofs.Parsing.Pace
import WhileLang.Proofs.Parsing.Trailing

/-!
# The trace of tokens

Reading tokens and consuming them are logged at two places. In the log of a syntactic analysis both
agree with the tokens of the text, and consuming stays one token behind reading
(`analyze_tracesTokens`). This is the pace that every descent keeps, read off its records.
-/

namespace WhileLang

open Grammar TokenStream

/-! ## The records of tokens -/

namespace LogRecord

/-- The record of a token that was read. -/
def read (t : Token) : LogRecord := ⟨.trace, .lexer, "token", tokenFields t⟩

/-- The record of a token that was consumed. -/
def consumed (t : Token) : LogRecord := ⟨.debug, .parser, "consumed token", tokenFields t⟩

def tracesRead (r : LogRecord) : Bool := r.level == .trace && r.message == "token"

def tracesConsumed (r : LogRecord) : Bool := r.level == .debug && r.message == "consumed token"

end LogRecord

/-- Only rules are recorded besides tokens, and their records look different. -/
theorem RuleName.text_ne (rule : RuleName) :
    "Begin: " ++ rule.text ≠ "consumed token" ∧ "End: " ++ rule.text ≠ "consumed token" := by
  cases rule <;> decide

theorem ParseEvent.tracedRead?_eq (o : Options) (event : ParseEvent) :
    (event.record? o).filter LogRecord.tracesRead = event.read?.map LogRecord.read := by
  cases event with
  | read t => rfl
  | consumed t | enter rule | leave rule => exact filter_record?_of_not rfl

theorem ParseEvent.tracedConsumed?_eq {o : Options} (h : o.traceTokens = true)
    (event : ParseEvent) :
    (event.record? o).filter LogRecord.tracesConsumed =
      event.consumed?.map LogRecord.consumed := by
  cases event with
  | read t => rfl
  | consumed t =>
    have hrecord : record? o (.consumed t) = some (LogRecord.consumed t) := if_pos h
    rw [hrecord]
    rfl
  | enter rule =>
    exact filter_record?_of_not (by simp [record, LogRecord.tracesConsumed, rule.text_ne.1])
  | leave rule =>
    exact filter_record?_of_not (by simp [record, LogRecord.tracesConsumed, rule.text_ne.2])

theorem ParseEvent.consumed?_eq_some {event : ParseEvent} {t : Token}
    (h : event.consumed? = some t) : event = .consumed t := by
  cases event <;> cases h
  rfl

/-- Only consuming a token leaves a record of that. -/
theorem ParseEvent.eq_consumed {o : Options} (htrace : o.traceTokens = true) {event : ParseEvent}
    {r : LogRecord} (h : event.record? o = some r) (hr : r.tracesConsumed = true) :
    ∃ t, event = .consumed t ∧ r = LogRecord.consumed t := by
  have hfilter := tracedConsumed?_eq htrace event
  rw [h, Option.filter_some_pos hr] at hfilter
  obtain ⟨t, ht, hrecord⟩ := Option.map_eq_some_iff.mp hfilter.symm
  exact ⟨t, consumed?_eq_some ht, hrecord.symm⟩

/-- The log of a parser that has read `n` of the tokens. -/
structure IsTokenLog (tokens : List Token) (n : Nat) (log : List LogRecord) : Prop where
  length : n ≤ tokens.length
  read : log.filter LogRecord.tracesRead = (tokens.take n).map LogRecord.read
  consumed : log.filter LogRecord.tracesConsumed =
    (tokens.take n).dropLast.map LogRecord.consumed
  /-- The end of the text can only be the last token that is read. -/
  endOfText : ∀ t ∈ (tokens.take n).dropLast, t.kind ≠ .endOfText
  /-- The record of a token that is consumed comes immediately after that of the next token. -/
  order : ∀ before r after, log = before ++ r :: after → r.tracesConsumed = true →
    ∃ i t next earlier, tokens[i]? = some t ∧ tokens[i + 1]? = some next ∧
      r = LogRecord.consumed t ∧ before = earlier ++ [LogRecord.read next] ∧
      earlier.filter LogRecord.tracesRead = (tokens.take (i + 1)).map LogRecord.read ∧
      earlier.filter LogRecord.tracesConsumed = (tokens.take i).map LogRecord.consumed

/-- Where a record says that a token was consumed, the events before it are known. -/
theorem Paced.split_records {s rest : TokenStream} {es : List ParseEvent} {first : Token}
    {o : Options} (h : Paced s es rest) (htrace : o.traceTokens = true)
    {before after : List LogRecord} {r : LogRecord}
    (hlog : (ParseEvent.read first :: es).filterMap (ParseEvent.record? o) = before ++ r :: after)
    (hr : r.tracesConsumed = true) :
    ∃ t next earlier s', r = LogRecord.consumed t ∧
      before = (ParseEvent.read first :: earlier).filterMap (ParseEvent.record? o) ++
        [LogRecord.read next] ∧
      Paced s earlier (cons t s') ∧ s'.head = .ok next := by
  obtain ⟨fs, gs, hes, hbefore, hgs⟩ := List.filterMap_eq_append_iff.mp hlog
  obtain ⟨silent, event, later, hsplit, hsilent, hevent, -⟩ := List.filterMap_eq_cons_iff.mp hgs
  obtain ⟨t, rfl, rfl⟩ := ParseEvent.eq_consumed htrace hevent hr
  rw [hsplit, ← List.append_assoc] at hes
  have hnone : silent.filterMap (ParseEvent.record? o) = [] :=
    List.filterMap_eq_nil_iff.mpr hsilent
  have hrecords : (fs ++ silent).filterMap (ParseEvent.record? o) = before := by
    rw [List.filterMap_append, hnone, List.append_nil, hbefore]
  generalize fs ++ silent = events at hes hrecords
  cases events with
  | nil => cases hes
  | cons event events =>
    obtain ⟨rfl, htail⟩ := List.cons.inj hes
    obtain ⟨earlier, next, s', rfl, hearlier, hs'⟩ := h.split htail
    refine ⟨t, next, earlier, s', rfl, ?_, hearlier, hs'⟩
    rw [← hrecords, ← List.cons_append, List.filterMap_append]
    rfl

/-- A parser that reads the first token and then keeps the pace has a log of its tokens. -/
theorem Paced.isTokenLog {s rest : TokenStream} {es : List ParseEvent} {first : Token}
    {o : Options} (h : Paced s es rest) (hs : s.head = .ok first)
    (hkinds : ∀ t ∈ s.tokens, t.kind ≠ .endOfText) (htrace : o.traceTokens = true)
    {last : LogRecord} (hread : last.tracesRead = false)
    (hconsumed : last.tracesConsumed = false) :
    IsTokenLog s.listing ((tokensConsumed es).length + 1)
      ((ParseEvent.read first :: es).filterMap (ParseEvent.record? o) ++ [last]) := by
  have hdrop := h.dropLast_take ⟨first, hs⟩
  refine ⟨(h.take_listing ⟨first, hs⟩).1, ?_, ?_, ?_, ?_⟩
  · rw [filter_append_last hread, filter_records (ParseEvent.tracedRead?_eq o), ← h.read_eq hs]
    rfl
  · rw [filter_append_last hconsumed, filter_records (ParseEvent.tracedConsumed?_eq htrace), hdrop]
    rfl
  · intro t ht
    rw [hdrop] at ht
    apply hkinds
    rw [h.eq_append, tokens_append]
    exact List.mem_append_left _ ht
  · intro before r after hlog hr
    rcases List.eq_nil_or_concat after with rfl | ⟨after, r', rfl⟩
    · obtain ⟨-, hlast⟩ := List.append_inj' hlog rfl
      cases hlast
      rw [hr] at hconsumed
      cases hconsumed
    · rw [List.concat_eq_append, ← List.cons_append, ← List.append_assoc] at hlog
      obtain ⟨hrecords, -⟩ := List.append_inj' hlog rfl
      obtain ⟨t, next, earlier, s', rfl, rfl, hearlier, hnext⟩ := h.split_records htrace hrecords hr
      obtain ⟨ht, ht'⟩ := hearlier.at_consumed hnext
      refine ⟨(tokensConsumed earlier).length, t, next, _, ht, ht', rfl, rfl, ?_, ?_⟩
      · rw [filter_records (ParseEvent.tracedRead?_eq o), ← hearlier.read_eq hs]
        rfl
      · rw [filter_records (ParseEvent.tracedConsumed?_eq htrace),
          (hearlier.take_listing ⟨first, hs⟩).2]
        rfl

/-! ## The log of an analysis -/

/-- At the most verbose level every record is shown. -/
theorem LogFilter.shows_trace (r : LogRecord) : (upTo (some .trace)).shows r = true := by
  obtain ⟨level, origin, message, fields⟩ := r
  cases level <;> rfl

theorem tracesRead_finishedRecord (mode : Mode) (tokens : List Token) (tree : TreeBuilder)
    (error? : Option ParseError) :
    (finishedRecord mode tokens tree error?).tracesRead = false := rfl

theorem tracesConsumed_finishedRecord (mode : Mode) (tokens : List Token) (tree : TreeBuilder)
    (error? : Option ParseError) :
    (finishedRecord mode tokens tree error?).tracesConsumed = false := by
  simp [finishedRecord, LogRecord.tracesConsumed]

/-- The words of a program, from its first word to its last. -/
structure IsProgram (us : List Token) : Prop where
  sentence : Sentence (us.map Token.kind)
  ends : ∃ first inner last, us = first :: (inner ++ [last]) ∧ first.kind = .programWord ∧
    last.kind = .endWord ∧ ∀ t ∈ inner, t.kind ≠ .programWord ∧ t.kind ≠ .endWord

theorem IsProgram.of_sentence {us : List Token} (h : Sentence (us.map Token.kind)) :
    IsProgram us := by
  obtain ⟨inner, hkinds, hprogram, hend⟩ := h.exists_inner
  obtain ⟨first, us, rfl, hfirst, hrest⟩ := List.map_eq_cons_iff.mp hkinds
  obtain ⟨us, ends, rfl, rfl, hends⟩ := List.map_eq_append_iff.mp hrest
  obtain ⟨last, rfl, hlast⟩ := List.map_eq_singleton_iff.mp hends
  refine ⟨h, first, us, last, rfl, hfirst, hlast, fun t ht => ⟨?_, ?_⟩⟩
  · rintro hkind
    exact hprogram (hkind ▸ List.mem_map_of_mem ht)
  · rintro hkind
    exact hend (hkind ▸ List.mem_map_of_mem ht)

/-- What the log says of the tokens of a text that is parsed, with an error or without one. -/
structure TracesParse (source : String) (error? : Option ParseError) (n : Nat)
    (log : List LogRecord) : Prop where
  records : IsTokenLog (collectTokens source).1 n log
  /-- The tokens that are consumed from an accepted text are its program. -/
  accepted : error? = none → IsProgram ((collectTokens source).1.take n).dropLast
  /-- Before a lexical error, all tokens are read. -/
  lexical : ∀ e, error? = some (.lexical e) → n = (collectTokens source).1.length

/-- What the log of an analysis says of the tokens of the text. -/
structure TracesTokens (o : Options) (source : String) (log : List LogRecord) : Prop where
  syntactic : o.mode = .syntactic → ∃ n, TracesParse source (analyze o source).error? n log
  lexical : o.mode = .lexical →
    log.filter LogRecord.tracesRead = (collectTokens source).1.map LogRecord.read ∧
      log.filter LogRecord.tracesConsumed = []
  last : log.getLast?.map LogRecord.message = some "analysis finished"

section

variable {source : String} {last : LogRecord} (hread : last.tracesRead = false)
  (hconsumed : last.tracesConsumed = false)

include hread hconsumed

/-- Where the first token cannot be read, no token is. -/
theorem tracesParse_unreadable {e : LexError}
    (h : (TokenStream.ofString source).head = .error e) :
    TracesParse source (some (.lexical e)) 0 [last] := by
  obtain ⟨-, htokens⟩ := parseText_unreadable h
  refine ⟨?_, nofun, fun _ _ => by rw [htokens]; rfl⟩
  rw [htokens]
  refine ⟨Nat.le_refl 0, filter_append_last hread [], filter_append_last hconsumed [], nofun, ?_⟩
  intro before r after hlog hr
  have hmem : r ∈ [last] := hlog ▸ List.mem_append_right before List.mem_cons_self
  rw [List.mem_singleton.mp hmem, hconsumed] at hr
  cases hr

/-- A descent through the rule for programs tells how far it came in the tokens of the text. -/
theorem Grammar.Follows.tracesParse {o : Options} {outcome : Outcome TreeBuilder} {first : Token}
    (h : Follows (.rule .program) (.ofString source) outcome)
    (hfirst : (TokenStream.ofString source).head = .ok first) (htrace : o.traceTokens = true) :
    TracesParse source (ParseError.ofResult? outcome.result)
      ((tokensConsumed outcome.events).length + 1)
      ((ParseEvent.read first :: outcome.events).filterMap (ParseEvent.record? o) ++ [last]) := by
  have hpaced := h.paced
  have hlog := hpaced.isTokenLog hfirst (fun _ ht => kind_ne_of_mem_ofScanner ht) htrace hread
    hconsumed
  cases h with
  | completed h =>
    refine ⟨hlog, fun _ => ?_, nofun⟩
    change IsProgram ((TokenStream.ofString source).listing.take _).dropLast
    rw [hpaced.dropLast_take ⟨first, hfirst⟩]
    exact .of_sentence h.derives_consumed
  | broken h =>
    refine ⟨hlog, nofun, fun e he => ?_⟩
    obtain rfl := Option.some.inj he
    exact h.length_consumed.symm

end

theorem exists_tracesParse {o : Options} (source : String) (hmode : o.mode = .syntactic)
    (htrace : o.traceTokens = true) :
    ∃ n, TracesParse source (analyze o source).error? n (analyze o source).log := by
  rw [analyze_log_eq, analyze_error?_eq hmode, hmode, analysisEvents]
  generalize hlast : finishedRecord .syntactic _ _ _ = last
  have hread : last.tracesRead = false := hlast ▸ tracesRead_finishedRecord _ _ _ _
  have hconsumed : last.tracesConsumed = false := hlast ▸ tracesConsumed_finishedRecord _ _ _ _
  cases hhead : (TokenStream.ofString source).head with
  | error e =>
    rw [(parseText_unreadable hhead).1]
    exact ⟨0, tracesParse_unreadable hread hconsumed hhead⟩
  | ok first =>
    obtain ⟨outcome, -, hparse, hfollows⟩ := parseText_follows hhead
    rw [hparse]
    exact ⟨_, hfollows.tracesParse hread hconsumed hhead htrace⟩

/-- At the most verbose level, and with tokens traced, the log of an analysis tells how it went
through the tokens of the text. -/
theorem analyze_tracesTokens (o : Options) (source : String) (htrace : o.traceTokens = true) :
    TracesTokens o source
      ((analyze o source).log.filter (LogFilter.upTo (some .trace)).shows) := by
  rw [List.filter_eq_self.mpr fun r _ => LogFilter.shows_trace r]
  refine ⟨fun hmode => exists_tracesParse source hmode htrace, fun hmode => ⟨?_, ?_⟩, ?_⟩
  · rw [analyze_filter_log (ParseEvent.tracedRead?_eq o) tracesRead_finishedRecord, hmode]
    change (((collectTokens source).1.map ParseEvent.read).filterMap _).map _ = _
    rw [List.filterMap_map]
    exact congrArg (List.map LogRecord.read) List.filterMap_some
  · rw [analyze_filter_log (ParseEvent.tracedConsumed?_eq htrace) tracesConsumed_finishedRecord,
      hmode]
    change (((collectTokens source).1.map ParseEvent.read).filterMap _).map _ = _
    have hnone : (collectTokens source).1.filterMap (ParseEvent.consumed? ∘ ParseEvent.read) = [] :=
      List.filterMap_eq_nil_iff.mpr fun _ _ => rfl
    rw [List.filterMap_map, hnone]
    rfl
  · rw [analyze_log_eq, List.getLast?_concat]
    rfl

theorem analyze_tracesTokens_symbol :
    (⟨.syntactic, false, true, true⟩ : Options).traceTokens = true ∧
      (analyze ⟨.syntactic, false, true, true⟩ "program p : print ?").error? =
        some (.lexical ⟨.illegalSymbol '?', ⟨1, 19⟩⟩) ∧
      TracesTokens ⟨.syntactic, false, true, true⟩ "program p : print ?"
        ((analyze ⟨.syntactic, false, true, true⟩ "program p : print ?").log.filter
          (LogFilter.upTo (some .trace)).shows) :=
  ⟨rfl, by decide +kernel, analyze_tracesTokens _ _ rfl⟩

end WhileLang
