namespace Offside

/-- Why a file cannot be read or written. -/
inductive FileError where
  | missing
  | denied
  | notDirectory
  | isDirectory
  | nameTooLong
  | notText
  | other (code : Nat) (description : String)
deriving DecidableEq, Repr

namespace FileError

def system (code : Nat) (description : String) : String :=
  description ++ " (os error " ++ toString code ++ ")"

def message : FileError → String
  | missing => system 2 "No such file or directory"
  | denied => system 13 "Permission denied"
  | notDirectory => system 20 "Not a directory"
  | isDirectory => system 21 "Is a directory"
  | nameTooLong => system 36 "File name too long"
  | notText => "stream did not contain valid UTF-8"
  | other code description => system code description

end FileError

/-- The parts of a run whose time is told. -/
inductive Stage where
  | tokenized
  | nested
  | parsed
  | all
deriving DecidableEq, Repr

def Stage.label : Stage → String
  | tokenized => "Tokenized in"
  | nested => "Nested in"
  | parsed => "Parsed in"
  | all => "Total time:"

/-- What the command line needs from the machine it runs on. -/
class Host (m : Type → Type) where
  read : String → m (Except FileError ByteArray)
  write : String → String → m (Except FileError Unit)
  /-- Prints a line. -/
  say : String → m Unit
  /-- Prints to the error channel. -/
  complain : String → m Unit
  /-- Tells that a stage has come to its end. -/
  finish : Stage → m Unit

end Offside
