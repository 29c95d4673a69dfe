import WhileLang.Proofs.Diagnostics
import WhileLang.Proofs.CommandLine.Arguments

/-!
# Batches

A run over many files is a loop that adds to what was printed and logged before, and remembers
whether all files were accepted (`runBatch_eq_loop`). What one round adds depends on its file alone.
So the whole run is put together from runs over the single files (`run_concatenates`), whatever
libraries read the arguments and choose what is logged. If a single file can be named alone, as it
can for `Libraries.own` (`namesEach_own`), these are runs of the program.
-/

namespace WhileLang

variable {Argument Environment Refusal Path Error : Type}

/-! ## The log -/

namespace Libraries

variable (lib : Libraries Argument Environment Refusal Path)

theorem write_append (shows : LogSelection) (records later : List LogRecord) :
    lib.write shows (records ++ later) = lib.write shows records ++ lib.write shows later := by
  unfold write
  rw [List.filter_append, List.map_append, Text.unlines_append]

theorem write_flatMap {α : Type} (shows : LogSelection) (xs : List α)
    (records : α → List LogRecord) :
    lib.write shows (xs.flatMap records) =
      String.join (xs.map fun x => lib.write shows (records x)) := by
  induction xs with
  | nil => rfl
  | cons x xs ih => rw [List.flatMap_cons, write_append, ih, List.map_cons, String.join_cons]

end Libraries

variable [ToString Path] [ToString Error]

/-! ## One file -/

section

variable (read : TextReader Path Error) (o : Options) (path : Path)

/-- What is printed for a file. -/
def fileOutput : String :=
  match read path with
  | .error _ => "Error: File not found.\n"
  | .ok source => report o (toString path) (analyze o source)

/-- What is logged for a file. -/
def fileLog : List LogRecord :=
  analyzingRecord o path ::
    match read path with
    | .error e => [unreadableRecord path e]
    | .ok source => (analyze o source).log

/-- The file can be read, and its analysis finds no error. -/
def FileAccepted : Prop := ∃ source, read path = .ok source ∧ (analyze o source).error? = none

theorem output_runFile : (runFile read o path).output = fileOutput read o path := by
  unfold runFile fileOutput
  cases read path <;> rfl

theorem log_runFile :
    analyzingRecord o path :: (runFile read o path).log = fileLog read o path := by
  unfold runFile fileLog
  cases read path <;> rfl

theorem passes_runFile_iff : (runFile read o path).passes = true ↔ FileAccepted read o path := by
  unfold runFile FileAccepted
  cases read path with
  | error e => simp [FileRun.passes]
  | ok source =>
    cases herror : (analyze o source).error? <;>
      simp [FileRun.passes, Analysis.verdict, herror]

end

/-! ## The loop over the files -/

/-- What was printed and logged, and whether all files were accepted. -/
structure BatchState where
  output : String
  log : List LogRecord
  accepted : Bool

namespace BatchState

/-- Nothing was done but to say that the run starts. -/
def starting (o : Options) (files : List Path) : BatchState :=
  ⟨"", [startingRecord o files], true⟩

/-- One round of the loop. A file that cannot be read does not end it. -/
def next (read : TextReader Path Error) (o : Options) (st : BatchState) (path : Path) :
    BatchState :=
  let run := runFile read o path
  { output := st.output ++ run.output
    log := st.log ++ analyzingRecord o path :: run.log
    accepted :=
      match run.analysis? with
      | none => false
      | some a => if a.verdict = .rejected then false else st.accepted }

def finish (st : BatchState) : BatchRun := ⟨st.output, st.log, if st.accepted then 0 else 1⟩

/-- What a round adds depends on its file alone. -/
theorem next_eq (read : TextReader Path Error) (o : Options) (st : BatchState) (path : Path) :
    st.next read o path =
      ⟨st.output ++ fileOutput read o path, st.log ++ fileLog read o path,
        st.accepted && (runFile read o path).passes⟩ := by
  unfold next
  dsimp only
  rw [output_runFile, log_runFile]
  unfold FileRun.passes
  cases (runFile read o path).analysis? with
  | none => simp
  | some a => cases hverdict : a.verdict <;> simp [hverdict]

theorem foldl_next (read : TextReader Path Error) (o : Options) (st : BatchState)
    (files : List Path) :
    files.foldl (next read o) st =
      ⟨st.output ++ String.join (files.map (fileOutput read o)),
        st.log ++ files.flatMap (fileLog read o),
        st.accepted && files.all fun path => (runFile read o path).passes⟩ := by
  induction files generalizing st with
  | nil => simp
  | cons path files ih =>
    rw [List.foldl_cons, ih, next_eq]
    simp [String.append_assoc, Bool.and_assoc]

end BatchState

theorem runBatch_eq_loop (read : TextReader Path Error) (o : Options) (files : List Path) :
    runBatch read o files =
      (files.foldl (BatchState.next read o) (.starting o files)).finish := by
  rw [BatchState.foldl_next]
  unfold runBatch BatchState.finish BatchState.starting
  simp [output_runFile, log_runFile, List.flatMap_map, Function.comp_def]

/-! ## The whole program -/

/-- A run over files prints and logs for one after the other. It succeeds if all are accepted. -/
structure RunsOver (lib : Libraries Argument Environment Refusal Path)
    (read : TextReader Path Error) (o : Options) (shows : LogSelection) (files : List Path)
    (run : ProgramRun) : Prop where
  output : run.output = String.join (files.map (fileOutput read o))
  log : run.log = lib.write shows [startingRecord o files] ++
    String.join (files.map fun path => lib.write shows (fileLog read o path))
  success : run.exitCode = 0 ↔ ∀ path ∈ files, FileAccepted read o path
  failure : run.exitCode ≠ 0 → run.exitCode = 1

/-- The settings for one file of the batch alone. -/
def Settings.forFile (s : Settings Path) (path : Path) : Settings Path := { s with files := [path] }

/-- Each file that is named among others can be named alone, with the same options. -/
def Libraries.NamesEach (lib : Libraries Argument Environment Refusal Path) : Prop :=
  ∀ arguments s, lib.settings arguments = .ok s → ∀ path ∈ s.files,
    ∃ alone, lib.settings alone = .ok (s.forFile path)

theorem namesEach_own : Libraries.own.NamesEach := by
  intro arguments s h path hpath
  obtain ⟨hwell, -⟩ := wellFormed_of_parseArguments h
  have hname : "" ∉ (s.forFile path).files := fun hmem =>
    hwell.files (List.mem_singleton.mp hmem ▸ hpath)
  have hwell' : (s.forFile path).WellFormed := ⟨hwell.flags, hname⟩
  exact ⟨_, parseArguments_arguments hwell' (List.cons_ne_nil path [])⟩

section

variable (lib : Libraries Argument Environment Refusal Path) (read : TextReader Path Error)
  (environment : Environment)

/-- What the program does with its settings, by the loop over their files. -/
def runSettings (s : Settings Path) : ProgramRun :=
  let st := s.files.foldl (BatchState.next read s.options) (.starting s.options s.files)
  ⟨if st.accepted then 0 else 1, st.output, lib.write (lib.selection s environment) st.log⟩

theorem Libraries.run_eq {arguments : List Argument} {s : Settings Path}
    (h : lib.settings arguments = .ok s) :
    lib.run read environment arguments = .ok (runSettings lib read environment s) := by
  rw [lib.run_of_settings h read environment, runBatch_eq_loop]
  rfl

theorem runsOver_runSettings (s : Settings Path) :
    RunsOver lib read s.options (lib.selection s environment) s.files
      (runSettings lib read environment s) := by
  unfold runSettings
  rw [BatchState.foldl_next]
  have hall : (s.files.all fun path => (runFile read s.options path).passes) = true ↔
      ∀ path ∈ s.files, FileAccepted read s.options path := by
    simp only [List.all_eq_true, passes_runFile_iff]
  generalize (s.files.all fun path => (runFile read s.options path).passes) = all at hall
  refine ⟨String.empty_append, ?_, ?_, ?_⟩
  · exact (lib.write_append _ _ _).trans (congrArg _ (lib.write_flatMap _ _ _))
  · change (if true && all then 0 else 1) = 0 ↔ _
    rw [← hall]
    cases all <;> decide
  · change (if true && all then 0 else 1) ≠ 0 → (if true && all then 0 else 1) = 1
    cases all <;> decide

/-- The run over a batch is put together from runs over its single files. -/
structure Concatenates (s : Settings Path) (run : ProgramRun) : Prop where
  loop : run = runSettings lib read environment s
  files : RunsOver lib read s.options (lib.selection s environment) s.files run
  single : ∀ path ∈ s.files, RunsOver lib read s.options (lib.selection s environment) [path]
    (runSettings lib read environment (s.forFile path))
  output : run.output = String.join
    (s.files.map fun path => (runSettings lib read environment (s.forFile path)).output)
  exitCode : run.exitCode = 0 ↔
    ∀ path ∈ s.files, (runSettings lib read environment (s.forFile path)).exitCode = 0
  /-- If each file can be named alone, the program can be run on it alone. -/
  alone : lib.NamesEach → ∀ path ∈ s.files, ∃ arguments,
    lib.settings arguments = .ok (s.forFile path) ∧ (s.forFile path).has .view = false ∧
      lib.run read environment arguments =
        .ok (runSettings lib read environment (s.forFile path))

/-- A batch is run as its files are, one after the other. -/
theorem run_concatenates (arguments : List Argument) (s : Settings Path)
    (h : lib.settings arguments = .ok s) (hview : s.has .view = false) :
    ∃ run, lib.run read environment arguments = .ok run ∧
      Concatenates lib read environment s run := by
  have hover := runsOver_runSettings lib read environment s
  have hsingle : ∀ path, RunsOver lib read s.options (lib.selection s environment) [path]
      (runSettings lib read environment (s.forFile path)) :=
    fun path => runsOver_runSettings lib read environment (s.forFile path)
  refine ⟨_, lib.run_eq read environment h, rfl, hover, fun path _ => hsingle path, ?_, ?_, ?_⟩
  · rw [hover.output]
    congr 2
    funext path
    rw [(hsingle path).output]
    simp
  · rw [hover.success]
    refine forall₂_congr fun path _ => ?_
    rw [(hsingle path).success]
    simp
  · intro hnames path hpath
    obtain ⟨alone, halone⟩ := hnames arguments s h path hpath
    exact ⟨alone, halone, hview, lib.run_eq read environment halone⟩

end

/-- A file that is accepted, one that is rejected, and none besides. -/
def twoFiles : TextReader String FileError := fun path =>
  if path = "good" then .ok "program p : print 1 end"
  else if path = "bad" then .ok "program p : print"
  else .error .notFound

theorem run_concatenates_mixed :
    parseArguments ["bad", "missing", "--no-ast", "good", "bad"] =
        .ok ⟨["bad", "missing", "good", "bad"], none, [.noTree]⟩ ∧
      ∃ run, runProgram twoFiles none ["bad", "missing", "--no-ast", "good", "bad"] = .ok run ∧
        run.exitCode = 1 ∧ Libraries.own.NamesEach ∧
        Concatenates Libraries.own twoFiles none
          ⟨["bad", "missing", "good", "bad"], none, [.noTree]⟩ run := by
  have hread : parseArguments ["bad", "missing", "--no-ast", "good", "bad"] =
      .ok ⟨["bad", "missing", "good", "bad"], none, [.noTree]⟩ := rfl
  obtain ⟨run, hrun, hconcat⟩ := run_concatenates Libraries.own twoFiles none _ _ hread (by decide)
  refine ⟨hread, run, hrun, ?_, namesEach_own, hconcat⟩
  rw [hconcat.loop]
  decide +kernel

end WhileLang
