import WhileLang.Files
import WhileLang.Log.FilterText
import WhileLang.Analysis.Report
import WhileLang.CommandLine.Help

/-!
# Analysing a batch of files

Each file is read, analysed and reported on its own, in the order given; one that cannot be read
does not stop the others. Files are read by a function from paths to texts, so that a batch can
be run over a `FileStore` as well as over the files of a machine.

The program leaves it to its libraries to read its arguments, to choose what is logged and to write
the log. They are parameters of `Libraries.run`; `runProgram` is the program with the libraries of
`Libraries.own`, where arguments and paths are texts.
-/

namespace WhileLang

/-! ## Files -/

/-- How the text of a file is found. Paths and errors can be shown. -/
abbrev TextReader (Path Error : Type) := Path → Except Error String

structure FileRun where
  output : String
  /-- The analysis, if the file could be read. -/
  analysis? : Option Analysis
  log : List LogRecord
deriving DecidableEq, Repr

namespace FileRun

/-- A file passes if it could be read and was accepted. -/
def passes (r : FileRun) : Bool :=
  match r.analysis? with
  | some a => a.verdict == .accepted
  | none => false

end FileRun

section

variable {Path Error : Type} [ToString Path] [ToString Error]

def unreadableRecord (path : Path) (e : Error) : LogRecord :=
  ⟨.warn, .report, "cannot read source file", [("path", toString path), ("error", toString e)]⟩

def runFile (read : TextReader Path Error) (o : Options) (path : Path) : FileRun :=
  match read path with
  | .error e =>
    { output := "Error: File not found.\n"
      analysis? := none
      log := [unreadableRecord path e] }
  | .ok source =>
    let a := analyze o source
    { output := report o (toString path) a, analysis? := some a, log := a.log }

/-! ## Batches -/

/-- What a whole run prints, logs and returns to its caller. -/
structure BatchRun where
  output : String
  log : List LogRecord
  exitCode : Nat
deriving DecidableEq, Repr

/-- The record at the beginning of a run. -/
def startingRecord (o : Options) (files : List Path) : LogRecord :=
  ⟨.debug, .program, "starting", [("config", o.logText), ("files", toString files.length)]⟩

def analyzingRecord (o : Options) (path : Path) : LogRecord :=
  ⟨.info, .program, "analyzing file", [("path", toString path), ("mode", o.mode.logName)]⟩

/-- Runs over the files. The run succeeds if every file passes. -/
def runBatch (read : TextReader Path Error) (o : Options) (files : List Path) : BatchRun :=
  let runs := files.map (fun path => (path, runFile read o path))
  { output := String.join (runs.map (·.2.output))
    log := startingRecord o files ::
      runs.flatMap (fun run => analyzingRecord o run.1 :: run.2.log)
    exitCode := if runs.all (·.2.passes) then 0 else 1 }

end

/-! ## The program -/

/-- Which records are shown. -/
abbrev LogSelection := LogRecord → Bool

/-- What the program leaves to its libraries. -/
structure Libraries (Argument Environment Refusal Path : Type) where
  /-- What the arguments ask for, or why they ask for nothing that can be done. -/
  settings : List Argument → Except Refusal (Settings Path)
  /-- What the environment wants to be logged, if it has a wish that can be understood. -/
  wanted? : Environment → Option LogSelection
  /-- What a directive wants to be logged. -/
  directed : String → LogSelection
  /-- A record as it is written. -/
  line : LogRecord → String

/-- Everything a caller sees of the program. -/
structure ProgramRun where
  exitCode : Nat
  output : String
  log : String
deriving DecidableEq, Repr

namespace Libraries

variable {Argument Environment Refusal Path Error : Type} [ToString Path] [ToString Error]
  (lib : Libraries Argument Environment Refusal Path)

/-- What is logged. The environment counts for more than the settings. -/
def selection (s : Settings Path) (environment : Environment) : LogSelection :=
  (lib.wanted? environment).getD (lib.directed s.defaultDirective)

/-- The text of a log, each record that is shown on a line. -/
def write (shows : LogSelection) (records : List LogRecord) : String :=
  Text.unlines ((records.filter shows).map lib.line)

/-- Runs the program on its arguments. -/
def run (read : TextReader Path Error) (environment : Environment) (arguments : List Argument) :
    Except Refusal ProgramRun := do
  let settings ← lib.settings arguments
  let batch := runBatch read settings.options settings.files
  pure ⟨batch.exitCode, batch.output, lib.write (lib.selection settings environment) batch.log⟩

/-- Arguments and paths are texts, and the environment may give the text of a filter. -/
def own : Libraries String (Option String) Stop String where
  settings := parseArguments
  wanted? environment? := (environment?.bind LogFilter.ofText?).map LogFilter.shows
  directed directive := ((LogFilter.ofText? directive).getD (.upTo (some .error))).shows
  line := LogRecord.line

end Libraries

def runProgram (read : TextReader String FileError) (environment? : Option String)
    (arguments : List String) : Except Stop ProgramRun :=
  Libraries.own.run read environment? arguments

end WhileLang
