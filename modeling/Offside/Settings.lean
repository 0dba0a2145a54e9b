import Offside.Lexing

namespace Offside

/-- What a run of the program is asked to do. -/
structure Settings where
  mainFile : String
  strategy : Strategy
  out? : Option String
  libraries : List String
  arguments : List String
deriving DecidableEq, Repr

/-- The options that take a value. -/
inductive Choice where
  | mainFile
  | strategy
  | out
  | library
deriving DecidableEq, Repr

/-- The options given so far. -/
structure Given where
  mainFile? : Option String := none
  strategy? : Option Strategy := none
  out? : Option String := none
  libraries : List String := []

inductive Request where
  | run (settings : Settings)
  | help
  | misuse
deriving DecidableEq, Repr

/-- An argument of the command line by itself. -/
inductive Argument where
  | word
  | separator
  | help
  | option (choice : Choice) (value? : Option String)
  | unknown

def Strategy.ofName? : String → Option Strategy
  | "fast" => some .fast
  | "classic" => some .classic
  | _ => none

def Choice.ofName? : String → Option Choice
  | "main" => some .mainFile
  | "lex-mode" => some .strategy
  | "out" => some .out
  | "path" => some .library
  | _ => none

/-- Takes the value of an option. Only libraries can be given more than once, and no path is
empty. -/
def Given.set (given : Given) (choice : Choice) (value : String) : Option Given :=
  match choice with
  | .mainFile =>
    if given.mainFile?.isSome || value.isEmpty then none
    else some { given with mainFile? := some value }
  | .strategy =>
    match given.strategy?, Strategy.ofName? value with
    | none, some strategy => some { given with strategy? := some strategy }
    | _, _ => none
  | .out =>
    if given.out?.isSome || value.isEmpty then none else some { given with out? := some value }
  | .library =>
    if value.isEmpty then none else some { given with libraries := given.libraries ++ [value] }

def Given.settings (given : Given) (arguments : List String) : Settings :=
  ⟨given.mainFile?.getD "main.ark", given.strategy?.getD .classic, given.out?, given.libraries,
    arguments⟩

/-- An option spelled out after two dashes, with or without a value behind an equals sign. -/
def Argument.ofLong (text : List Char) : Argument :=
  let name := String.ofList (text.takeWhile (· != '='))
  let value? := ((text.dropWhile (· != '=')).tail?).map String.ofList
  match Choice.ofName? name with
  | some choice => .option choice value?
  | none => if name = "help" && value?.isNone then .help else .unknown

/-- An option of one letter after a dash, with or without a value behind it. -/
def Argument.ofShort (letter : Char) (text : List Char) : Argument :=
  match letter, text with
  | 'h', _ => .help
  | 'o', [] => .option .out none
  | 'o', '=' :: value => .option .out (some (String.ofList value))
  | 'o', value => .option .out (some (String.ofList value))
  | _, _ => .unknown

def Argument.ofText (text : String) : Argument :=
  match text.toList with
  | ['-', '-'] => .separator
  | '-' :: '-' :: long => .ofLong long
  | '-' :: letter :: short => .ofShort letter short
  | _ => .word

/-- Reads the command line from the left. The first word and all that follows it are for the
program. -/
def Given.request (given : Given) : List String → Request
  | [] => .run (given.settings [])
  | text :: texts =>
    match Argument.ofText text with
    | .word => .run (given.settings (text :: texts))
    | .separator => .run (given.settings texts)
    | .help => .help
    | .unknown => .misuse
    | .option choice (some value) =>
      match given.set choice value with
      | some given => given.request texts
      | none => .misuse
    | .option choice none =>
      match texts with
      | [] => .misuse
      | value :: texts =>
        match Argument.ofText value with
        | .word =>
          match given.set choice value with
          | some given => given.request texts
          | none => .misuse
        | _ => .misuse

def requestOf (texts : List String) : Request :=
  Given.request {} texts

end Offside
