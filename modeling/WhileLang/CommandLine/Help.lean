import WhileLang.Text.Lines
import WhileLang.CommandLine.Arguments

/-!
# Help texts

The short help has one line for each option, the full help says what the modes are.
-/

namespace WhileLang

namespace Help

/-- What the program does, and how it is called. -/
def opening : List String :=
  ["tinyfront runs lexical or syntax analysis over source files",
    "",
    "Usage: tinyfront [OPTIONS] <FILES>...",
    "",
    "Arguments:"]

def short : List String :=
  opening ++
  ["  <FILES>...  Source files to analyze, in order",
    "",
    "Options:",
    "  -m, --mode <MODE>       Analysis to run [possible values: lexical, syntax]",
    "      --trace-procedures  Trace entry and exit of every grammar rule",
    "      --trace-tokens      Trace every token the parser consumes",
    "      --no-ast            Do not print the AST table",
    "      --view              Browse tokens and tree in a terminal viewer after each file",
    "  -V, --verbose           Enable verbose logging",
    "  -h, --help              Print help (see more with '--help')"]

def full : List String :=
  opening ++
  ["  <FILES>...",
    "          Source files to analyze, in order",
    "",
    "Options:",
    "  -m, --mode <MODE>",
    "          Analysis to run",
    "",
    "          Possible values:",
    "          - lexical: Tokenize only and print the token table",
    "          - syntax:  Parse and print the AST table",
    "",
    "      --trace-procedures",
    "          Trace entry and exit of every grammar rule",
    "",
    "      --trace-tokens",
    "          Trace every token the parser consumes",
    "",
    "      --no-ast",
    "          Do not print the AST table",
    "",
    "      --view",
    "          Browse tokens and tree in a terminal viewer after each file",
    "",
    "  -V, --verbose",
    "          Enable verbose logging",
    "",
    "  -h, --help",
    "          Print help (see a summary with '-h')"]

end Help

/-- What is printed when the arguments give nothing to do. -/
def Stop.output : Stop → String
  | .help true => Text.unlines Help.full
  | .help false => Text.unlines Help.short
  | .misuse _ => ""

end WhileLang
