import WhileLang.Analysis.Basic

/-!
# Settings and command line arguments

`Settings` is what a command line asks for. How its arguments are read does not matter to the rest
of the program; `parseArguments` is one way to read them, for arguments and paths that are texts.

Options and files may be mixed. Long options begin with two dashes, short ones with one and may
be run together; `--` ends the options. Arguments are read from left to right, and the first
fault found counts.

Files, and a mode given as an argument of its own, are looked at only when the next option is
recognised or the arguments end (`Reading.settle`). So an unknown option is reported before a
faulty value in front of it, but not before a value joined to its option.
-/

namespace WhileLang

def Mode.ofName? : String → Option Mode
  | "lexical" => some .lexical
  | "syntax" => some .syntactic
  | _ => none

/-- The options without a value. -/
inductive Flag where
  | traceRules | traceTokens | noTree | view | verbose
deriving DecidableEq, Repr

/-- What a command line asks for. Its files are named by paths of some sort. -/
structure Settings (Path : Type) where
  files : List Path
  mode? : Option Mode
  flags : List Flag
deriving DecidableEq, Repr

namespace Settings

variable {Path : Type}

def has (s : Settings Path) (flag : Flag) : Bool := flag ∈ s.flags

/-- The standard options, changed by what was given. -/
def options (s : Settings Path) : Options where
  mode := s.mode?.getD Options.standard.mode
  traceRules := Options.standard.traceRules || s.has .traceRules
  traceTokens := Options.standard.traceTokens || s.has .traceTokens
  showTree := Options.standard.showTree && !s.has .noTree

/-- What is logged if the environment does not say otherwise: much if anything is traced or verbose,
and only warnings if not. -/
def defaultDirective (s : Settings Path) : String :=
  if s.has .verbose || s.options.isTracing then "tinyfront=debug" else "warn"

end Settings

/-! ## Reading arguments -/

inductive UsageError where
  | unknownArgument
  /-- No such mode, a mode that is missing, or an empty file name. -/
  | invalidValue
  | argumentConflict
  /-- A value was given to an option that takes none. -/
  | tooManyValues
  | missingRequiredArgument
deriving DecidableEq, Repr

/-- Why the arguments give nothing to do. -/
inductive Stop where
  /-- Help was asked for, in full or in short. -/
  | help (full : Bool)
  | misuse (error : UsageError)
deriving DecidableEq, Repr

/-- Asking for help is no failure. -/
def Stop.exitCode : Stop → Nat
  | help _ => 0
  | misuse _ => 2

/-- Arguments that were read but not yet looked at. -/
inductive Pending where
  | nothing
  /-- The mode's option, and its value if that was read. -/
  | mode (value? : Option String)
  | files (names : List String)
deriving DecidableEq, Repr

/-- The state of reading: what is settled, and what is not. -/
structure Reading where
  settings : Settings String
  pending : Pending
deriving DecidableEq, Repr

/-- What an option's name stands for. -/
inductive OptionName where
  | flag (flag : Flag)
  | mode
  | help
deriving DecidableEq, Repr

namespace OptionName

def ofLong? : String → Option OptionName
  | "trace-procedures" => some (flag .traceRules)
  | "trace-tokens" => some (flag .traceTokens)
  | "no-ast" => some (flag .noTree)
  | "view" => some (flag .view)
  | "verbose" => some (flag .verbose)
  | "mode" => some mode
  | "help" => some help
  | _ => none

def ofLetter? : Char → Option OptionName
  | 'V' => some (flag .verbose)
  | 'm' => some mode
  | 'h' => some help
  | _ => none

end OptionName

namespace Reading

def initial : Reading := ⟨⟨[], none, []⟩, .nothing⟩

def setMode (r : Reading) (value : String) : Except Stop Reading :=
  if r.settings.mode?.isSome then .error (.misuse .argumentConflict)
  else
    match Mode.ofName? value with
    | none => .error (.misuse .invalidValue)
    | some mode => .ok ⟨{ r.settings with mode? := some mode }, .nothing⟩

def settle (r : Reading) : Except Stop Reading :=
  match r.pending with
  | .nothing => .ok r
  | .mode none => .error (.misuse .invalidValue)
  | .mode (some value) => r.setMode value
  | .files names =>
    if "" ∈ names then .error (.misuse .invalidValue)
    else .ok ⟨{ r.settings with files := r.settings.files ++ names }, .nothing⟩

/-- An option that is not followed by a value in the same argument. -/
def takeOption (r : Reading) (name : OptionName) (full : Bool) : Except Stop Reading := do
  let r ← r.settle
  match name with
  | .help => .error (.help full)
  | .mode => .ok { r with pending := .mode none }
  | .flag flag =>
    if r.settings.has flag then .error (.misuse .argumentConflict)
    else .ok { r with settings := { r.settings with flags := r.settings.flags ++ [flag] } }

/-- A mode whose value is in the same argument. -/
def takeJoinedMode (r : Reading) (value : String) : Except Stop Reading := do
  (← r.settle).setMode value

/-- A long option: a name, and perhaps an equals sign and a value. -/
def takeLong (r : Reading) (name : String) (value? : Option String) : Except Stop Reading :=
  match OptionName.ofLong? name, value? with
  | none, _ => .error (.misuse .unknownArgument)
  | some .mode, some value => r.takeJoinedMode value
  | some _, some _ => .error (.misuse .tooManyValues)
  | some option, none => r.takeOption option true

/-- Short options run together. What follows the mode's letter is its value, after an equals sign
that may stand between. -/
def takeShort (r : Reading) : List Char → Except Stop Reading
  | [] => .ok r
  | letter :: rest =>
    match OptionName.ofLetter? letter, rest with
    | none, _ => .error (.misuse .unknownArgument)
    | some .mode, [] => r.takeOption .mode false
    | some .mode, '=' :: value => r.takeJoinedMode (String.ofList value)
    | some .mode, value => r.takeJoinedMode (String.ofList value)
    | some option, rest => do (← r.takeOption option false).takeShort rest

def takeFile (r : Reading) (name : String) : Except Stop Reading :=
  match r.pending with
  | .files names => .ok { r with pending := .files (names ++ [name]) }
  | _ => do
    let r ← r.settle
    .ok { r with pending := .files [name] }

/-- An argument that is no option: the value of the mode's option before it, or else a file. -/
def takePlain (r : Reading) (argument : String) : Except Stop Reading :=
  match r.pending with
  | .mode none => .ok { r with pending := .mode (some argument) }
  | _ => r.takeFile argument

def splitLong (text : List Char) : String × Option String :=
  match text.dropWhile (· ≠ '=') with
  | [] => (String.ofList text, none)
  | _ :: value => (String.ofList (text.takeWhile (· ≠ '=')), some (String.ofList value))

/-- One argument before the end of the options. -/
def takeArgument (r : Reading) (argument : String) : Except Stop Reading :=
  match argument.toList with
  | '-' :: '-' :: c :: text => r.takeLong (splitLong (c :: text)).1 (splitLong (c :: text)).2
  | '-' :: c :: letters => r.takeShort (c :: letters)
  | _ => r.takePlain argument

def takeAll (r : Reading) : List String → Except Stop Reading
  | [] => r.settle
  | "--" :: arguments => do (← arguments.foldlM takeFile r).settle
  | argument :: arguments => do (← r.takeArgument argument).takeAll arguments

end Reading

/-- What the arguments of the program say, its own name not among them. -/
def parseArguments (arguments : List String) : Except Stop (Settings String) := do
  let r ← Reading.initial.takeAll arguments
  if r.settings.files.isEmpty then .error (.misuse .missingRequiredArgument)
  else .ok r.settings

end WhileLang
