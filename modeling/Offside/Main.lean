import Offside.CommandLine

namespace Offside

/-- An error number. Some calls give it with its sign turned. -/
def errorNumber (code : UInt32) : Nat :=
  if code.toNat < 0x80000000 then code.toNat else 0x100000000 - code.toNat

/-- The file error an operating system's answer stands for. -/
def FileError.ofSystem (e : IO.Error) : FileError :=
  match e with
  | .noFileOrDirectory .. => .missing
  | .permissionDenied .. => .denied
  | .inappropriateType _ code description | .invalidArgument _ code description =>
    match errorNumber code with
    | 20 => .notDirectory
    | 21 => .isDirectory
    | 36 => .nameTooLong
    | number => .other number description
  | e => .other 0 (toString e)

/-- When the run and the stage under way began, in nanoseconds. -/
structure Clock where
  start : Nat
  stage : Nat

abbrev Machine := StateT Clock IO

def duration (nanoseconds : Nat) : String :=
  toString (nanoseconds / 1000) ++ "µs"

def attempt {α : Type} (action : IO α) : Machine (Except FileError α) := do
  match ← action.toBaseIO with
  | .ok a => return .ok a
  | .error e => return .error (.ofSystem e)

instance : Host Machine where
  read path := attempt (IO.FS.readBinFile path)
  write path text := attempt (IO.FS.writeFile path text)
  say line := IO.println line
  complain text := IO.eprint text
  finish stage := do
    let now ← IO.monoNanosNow
    let clock ← get
    let since := if stage = .all then clock.start else clock.stage
    IO.println (stage.label ++ " " ++ duration (now - since))
    set { clock with stage := now }

end Offside

def main (arguments : List String) : IO UInt32 := do
  let now ← IO.monoNanosNow
  let (status, _) ← (Offside.run arguments : Offside.Machine Nat).run ⟨now, now⟩
  return status.toUInt32
