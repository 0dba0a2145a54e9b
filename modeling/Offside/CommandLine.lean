import Offside.Host
import Offside.Outline
import Offside.Program
import Offside.Report
import Offside.Settings

namespace Offside

def helpText : String :=
  "Parses a program into its syntax tree\n\n" ++
  "Usage: offside [OPTIONS] [ARGUMENTS]...\n\n" ++
  "Arguments:\n" ++
  "  [ARGUMENTS]...     Arguments passed through to the program\n\n" ++
  "Options:\n" ++
  "      --main <FILE>      Program entry file [default: main.ark]\n" ++
  "      --lex-mode <MODE>  Tokenization strategy [default: classic] [fast, classic]\n" ++
  "  -o, --out <FILE>       Write the syntax tree as JSON to this file\n" ++
  "      --path <DIR>       Library search directory, may be repeated\n" ++
  "  -h, --help             Print help"

def usageText : String :=
  "Usage: offside [OPTIONS] [ARGUMENTS]...\n\nFor more information, try '--help'.\n"

/-- One line that names the form of every block of a program. -/
def symbolLine (program : Block) : String :=
  match program.symbols with
  | [] => "main: no symbols"
  | symbols => "main: " ++ String.intercalate ", " (symbols.map (·.form.label))

def treeText (program : Block) : String :=
  program.outline.json.pretty 0

def decodeText (bytes : ByteArray) : Except FileError String :=
  match String.fromUTF8? bytes with
  | some text => .ok text
  | none => .error .notText

variable {m : Type → Type} [Monad m] [Host m]

/-- Goes on with a result, or reports why there is none and stops with status 1. -/
def orReport {α : Type} (outcome : Outcome α) (next : α → m Nat) : m Nat :=
  match outcome with
  | .ok a => next a
  | .error diagnostic => do
    Host.complain diagnostic.report
    return 1

/-- Tokenizes, nests and reads a source, and tells of each stage that succeeds. -/
def readSource (strategy : Strategy) (source : Source) (next : Block → m Nat) : m Nat :=
  orReport (tokensOf strategy source) fun tokens => do
    Host.finish .tokenized
    orReport (indent tokens) fun indented => do
      let tree := nest (lines indented)
      Host.finish .nested
      orReport (programOf source tree) fun program => do
        Host.finish .parsed
        Host.finish .all
        next program

/-- Writes the syntax tree where it was asked for, or sums it up. -/
def deliver (out? : Option String) (program : Block) : m Nat :=
  match out? with
  | none => do
    Host.say (symbolLine program)
    return 0
  | some path => do
    match ← Host.write path (treeText program) with
    | .ok _ =>
      Host.say ("Wrote syntax tree to " ++ path)
      return 0
    | .error e =>
      Host.complain ("Failed to write " ++ path ++ ": " ++ e.message ++ "\n")
      return 1

/-- Runs the program on its main file and gives the exit status. -/
def runSettings (settings : Settings) : m Nat := do
  let bytes ← Host.read settings.mainFile
  match bytes.bind decodeText with
  | .ok text =>
    readSource settings.strategy ⟨settings.mainFile, text, 0⟩ (deliver settings.out?)
  | .error e =>
    Host.complain ("Failed to read " ++ settings.mainFile ++ ": " ++ e.message ++ "\n")
    return 1

def run (arguments : List String) : m Nat :=
  match requestOf arguments with
  | .run settings => runSettings settings
  | .help => do
    Host.say helpText
    return 0
  | .misuse => do
    Host.complain usageText
    return 2

end Offside
