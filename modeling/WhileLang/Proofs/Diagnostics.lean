import WhileLang.CommandLine.Batch
import WhileLang.Proofs.Parsing.Correctness

/-!
# Diagnostics

What is traced and logged has no influence on what is found, reported and returned
(`diagnostics_inert`). The parser looks at its toggles wherever it consumes a token and around every
rule, but two runs that trace different things are in step (`Grammar.inert_program`). So two
analyses of a text in one mode differ in nothing but their logs (`analyze_eq_of_mode`), and these
are selections from the same events (`analyze_log_eq`).

The log of a whole run also depends on the libraries that choose what is shown, which are not used
for anything else.
-/

namespace WhileLang

/-! ## One analysis -/

/-- Analyses that have found the same. -/
structure SameFindings (a a' : Analysis) : Prop where
  tokens : a.tokens = a'.tokens
  lexError : a.lexError? = a'.lexError?
  tree : a.tree = a'.tree
  error : a.error? = a'.error?
  verdict : a.verdict = a'.verdict

section

variable {o o' : Options}

/-- Analyses in one mode differ only in what they log. -/
theorem analyze_eq_of_mode (h : o.mode = o'.mode) (source : String) :
    analyze o source = { analyze o' source with log := (analyze o source).log } := by
  have hresult := parseText_result o.tracing o'.tracing source
  unfold analyze
  rw [h]
  cases o'.mode with
  | lexical => rfl
  | syntactic =>
    dsimp only
    rw [hresult]

theorem sameFindings_analyze (h : o.mode = o'.mode) (source : String) :
    SameFindings (analyze o source) (analyze o' source) := by
  rw [analyze_eq_of_mode h]
  exact ⟨rfl, rfl, rfl, rfl, rfl⟩

/-- The report depends on the mode and on whether the tree is wanted. -/
theorem report_eq (hmode : o.mode = o'.mode) (htree : o.showTree = o'.showTree)
    (name source : String) :
    report o name (analyze o source) = report o' name (analyze o' source) := by
  rw [analyze_eq_of_mode hmode]
  generalize (analyze o source).log = log
  unfold report
  rw [htree]
  rfl

end

/-! ## Its log -/

/-- What happens while a text is analysed in a mode: all that the parser tells of when it traces
everything. -/
def analysisEvents (mode : Mode) (source : String) : List ParseEvent :=
  match mode with
  | .lexical => (collectTokens source).1.map .read
  | .syntactic => (parseText .full source).2

/-- The record of an event, if the options ask for it. -/
def ParseEvent.record? (o : Options) (event : ParseEvent) : Option LogRecord :=
  if o.tracing.shows event then some event.record else none

/-- Whether it is asked for or not, a record of another sort does not count. -/
theorem ParseEvent.filter_record?_of_not {o : Options} {event : ParseEvent}
    {sort : LogRecord → Bool} (h : sort event.record = false) :
    (event.record? o).filter sort = none := by
  unfold record?
  split
  · exact Option.filter_some_neg (Bool.not_eq_true _ ▸ h)
  · rfl

/-- The error of a result. -/
def ParseError.ofResult? {α : Type} : Except ParseError α → Option ParseError
  | .ok _ => none
  | .error e => some e

theorem analyze_error?_eq {o : Options} (h : o.mode = .syntactic) (source : String) :
    (analyze o source).error? = ParseError.ofResult? (parseText .full source).1 := by
  rw [parseText_result .full o.tracing]
  unfold analyze
  rw [h]
  dsimp only
  cases (parseText o.tracing source).1 <;> rfl

theorem map_record_filter (o : Options) (events : List ParseEvent) :
    (events.filter o.tracing.shows).map ParseEvent.record =
      events.filterMap (ParseEvent.record? o) := by
  rw [← List.filterMap_eq_map, List.filterMap_filter]
  rfl

/-- The log holds the records of the events that the options ask for, and then a summary. -/
theorem analyze_log_eq (o : Options) (source : String) :
    (analyze o source).log =
      (analysisEvents o.mode source).filterMap (ParseEvent.record? o) ++
        [finishedRecord o.mode (analyze o source).tokens (analyze o source).tree
          (analyze o source).error?] := by
  rw [← map_record_filter]
  unfold analyze analysisEvents
  cases o.mode with
  | lexical =>
    have hall : ∀ event ∈ (collectTokens source).1.map ParseEvent.read,
        o.tracing.shows event = true := by
      intro event hevent
      obtain ⟨t, -, rfl⟩ := List.mem_map.mp hevent
      rfl
    dsimp only
    rw [List.filter_eq_self.mpr hall, List.map_map]
    rfl
  | syntactic =>
    dsimp only
    rw [← parseText_events]

/-- The records of one sort are those of the events that are recorded so. -/
theorem filter_records {α : Type} {o : Options} {sort : LogRecord → Bool}
    {select : ParseEvent → Option α} {record : α → LogRecord}
    (h : ∀ event, (event.record? o).filter sort = (select event).map record)
    (events : List ParseEvent) :
    (events.filterMap (ParseEvent.record? o)).filter sort =
      (events.filterMap select).map record := by
  rw [List.filter_filterMap, List.map_filterMap]
  exact congrArg (fun select => events.filterMap select) (funext h)

/-- A last record of another sort makes no difference. -/
theorem filter_append_last {sort : LogRecord → Bool} {last : LogRecord} (h : sort last = false)
    (records : List LogRecord) : (records ++ [last]).filter sort = records.filter sort := by
  rw [List.filter_append, List.filter_cons_of_neg (Bool.not_eq_true _ ▸ h)]
  exact List.append_nil _

/-- The records of one sort in the whole log, if the summary is not of that sort. -/
theorem analyze_filter_log {α : Type} {o : Options} {sort : LogRecord → Bool}
    {select : ParseEvent → Option α} {record : α → LogRecord}
    (h : ∀ event, (event.record? o).filter sort = (select event).map record)
    (hlast : ∀ mode tokens tree error?, sort (finishedRecord mode tokens tree error?) = false)
    (source : String) :
    (analyze o source).log.filter sort =
      ((analysisEvents o.mode source).filterMap select).map record := by
  rw [analyze_log_eq, filter_append_last (hlast _ _ _ _), filter_records h]

/-! ## The whole program -/

section

variable {Argument Environment Refusal Path Error : Type}

/-- Settings that ask for the same work, and for no viewer, whatever is to be traced and logged. -/
structure SameWork (s s' : Settings Path) : Prop where
  files : s.files = s'.files
  mode : s.options.mode = s'.options.mode
  noTree : s.has .noTree = s'.has .noTree
  noView : s.has .view = false ∧ s'.has .view = false

theorem SameWork.showTree {s s' : Settings Path} (h : SameWork s s') :
    s.options.showTree = s'.options.showTree := by
  unfold Settings.options
  rw [h.noTree]

variable [ToString Path] [ToString Error]

section

variable {o o' : Options} (hmode : o.mode = o'.mode) (htree : o.showTree = o'.showTree)
  (read : TextReader Path Error)

include hmode htree

/-- A file is reported alike and passes alike. -/
theorem runFile_eq (path : Path) :
    (runFile read o path).output = (runFile read o' path).output ∧
      (runFile read o path).passes = (runFile read o' path).passes := by
  unfold runFile
  cases read path with
  | error e => exact ⟨rfl, rfl⟩
  | ok source =>
    have hverdict := (sameFindings_analyze hmode source).verdict
    refine ⟨report_eq hmode htree (toString path) source, ?_⟩
    change ((analyze o source).verdict == .accepted) = ((analyze o' source).verdict == .accepted)
    rw [hverdict]

theorem runBatch_eq (files : List Path) :
    (runBatch read o files).output = (runBatch read o' files).output ∧
      (runBatch read o files).exitCode = (runBatch read o' files).exitCode := by
  have hfile := runFile_eq hmode htree read
  unfold runBatch
  simp only [List.map_map, List.all_map, Function.comp_def, hfile]
  exact ⟨trivial, trivial⟩

end

/-- The libraries are asked for the settings, and after that only for the log. -/
theorem Libraries.run_of_settings (lib : Libraries Argument Environment Refusal Path)
    {arguments : List Argument} {s : Settings Path} (h : lib.settings arguments = .ok s)
    (read : TextReader Path Error) (environment : Environment) :
    lib.run read environment arguments =
      .ok ⟨(runBatch read s.options s.files).exitCode, (runBatch read s.options s.files).output,
        lib.write (lib.selection s environment) (runBatch read s.options s.files).log⟩ := by
  unfold run
  rw [h]
  rfl

/-- Neither the options for tracing and logging nor what the environment wants to be logged have an
influence on what an analysis finds, or on what a run prints and returns, whatever libraries read
the arguments and choose what is logged. -/
theorem diagnostics_inert (lib : Libraries Argument Environment Refusal Path)
    (read : TextReader Path Error) :
    (∀ (o o' : Options) (source : String), o.mode = o'.mode →
      SameFindings (analyze o source) (analyze o' source)) ∧
    ∀ (environment environment' : Environment) (arguments arguments' : List Argument)
      (s s' : Settings Path),
      lib.settings arguments = .ok s → lib.settings arguments' = .ok s' → SameWork s s' →
      ∃ run run', lib.run read environment arguments = .ok run ∧
        lib.run read environment' arguments' = .ok run' ∧
        run.output = run'.output ∧ run.exitCode = run'.exitCode := by
  constructor
  · intro o o' source h
    exact sameFindings_analyze h source
  · intro environment environment' arguments arguments' s s' hs hs' h
    obtain ⟨hsame, hcode⟩ := runBatch_eq h.mode h.showTree read s.files
    refine ⟨_, _, lib.run_of_settings hs read environment,
      lib.run_of_settings hs' read environment', ?_, ?_⟩
    · exact hsame.trans (by rw [h.files])
    · exact hcode.trans (by rw [h.files])

end

/-- A run that traces everything although nothing is to be logged, and one that traces nothing. -/
theorem diagnostics_inert_verbose :
    ∃ s s', parseArguments ["a", "b"] = .ok s ∧
      parseArguments ["-V", "a", "--trace-tokens", "b", "--trace-procedures"] = .ok s' ∧
      SameWork s s' ∧ ∀ read : TextReader String FileError,
        ∃ run run', runProgram read none ["a", "b"] = .ok run ∧
          runProgram read (some "off")
            ["-V", "a", "--trace-tokens", "b", "--trace-procedures"] = .ok run' ∧
          run.output = run'.output ∧ run.exitCode = run'.exitCode := by
  have hs : parseArguments ["a", "b"] = .ok ⟨["a", "b"], none, []⟩ := rfl
  have hs' : parseArguments ["-V", "a", "--trace-tokens", "b", "--trace-procedures"] =
      .ok ⟨["a", "b"], none, [.verbose, .traceTokens, .traceRules]⟩ := rfl
  have hsame : SameWork ⟨["a", "b"], none, []⟩
      ⟨["a", "b"], none, [.verbose, .traceTokens, .traceRules]⟩ :=
    ⟨rfl, rfl, by decide, by decide, by decide⟩
  exact ⟨_, _, hs, hs', hsame, fun read =>
    (diagnostics_inert Libraries.own read).2 _ _ _ _ _ _ hs hs' hsame⟩

end WhileLang
