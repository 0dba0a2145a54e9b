import Offside.Host
import Offside.Sections

namespace Offside

/-- A directory tree held in memory, with what has been printed. Files go by the names on the way
to them. -/
structure Workspace where
  files : List (List String × ByteArray)
  output : List String := []
  errors : String := ""

inductive Entry where
  | file (content : ByteArray)
  | directory

namespace Workspace

def entry? (w : Workspace) (names : List String) : Option Entry :=
  match w.files.lookup names with
  | some content => some (.file content)
  | none =>
    if names.isEmpty || w.files.any (names.isPrefixOf ·.1) then some .directory else none

/-- Names may take 255 bytes. -/
def isTooLong (name : String) : Bool :=
  255 < name.utf8ByteSize

/-- Follows names through directories. -/
def enter (w : Workspace) : List String → List String → Except FileError (List String)
  | here, [] => .ok here
  | here, name :: names =>
    if name = "" || name = "." then w.enter here names
    else if name = ".." then w.enter here.dropLast names
    else if isTooLong name then .error .nameTooLong
    else
      match w.entry? (here ++ [name]) with
      | some .directory => w.enter (here ++ [name]) names
      | some (.file _) => .error .notDirectory
      | none => .error .missing

def namesOf (path : String) : List String :=
  (splitWhere (· == '/') path.toList).map String.ofList

/-- Where the last name of a path leads, or nothing if the path itself says directory. -/
def locate (w : Workspace) (path : String) : Except FileError (Option (List String)) := do
  let names := namesOf path
  let here ← w.enter [] names.dropLast
  match names.getLast? with
  | none | some "" | some "." | some ".." => return none
  | some name => if isTooLong name then throw .nameTooLong else return some (here ++ [name])

/-- The device that swallows what is written to it and is empty to read. -/
def isNull (path : String) : Bool :=
  path == "/dev/null"

/-- Outside of the tree there is nothing but directories without a name. -/
def outside? (path : String) : Option FileError :=
  if path.startsWith "/" then
    if (namesOf path).all (fun name => name == "" || name == "." || name == "..") then
      some .isDirectory
    else some .missing
  else none

def read (w : Workspace) (path : String) : Except FileError ByteArray :=
  if isNull path then .ok ByteArray.empty
  else
    match outside? path with
    | some e => .error e
    | none => do
      match ← w.locate path with
      | none => throw .isDirectory
      | some names =>
        match w.entry? names with
        | some (.file content) => return content
        | some .directory => throw .isDirectory
        | none => throw .missing

def put (w : Workspace) (names : List String) (content : ByteArray) : Workspace :=
  { w with files := (names, content) :: w.files.filter (·.1 != names) }

/-- A path to be written may not end in a slash, whether or not there is something at it. -/
def write (w : Workspace) (path text : String) : Except FileError Workspace :=
  if isNull path then .ok w
  else
    match outside? path with
    | some e => .error e
    | none => do
      let bare := String.ofList (path.toList.reverse.dropWhile (· == '/')).reverse
      match ← w.locate bare with
      | none => throw .isDirectory
      | some names =>
        match w.entry? names with
        | some .directory => throw .isDirectory
        | _ => if bare = path then return w.put names text.toUTF8 else throw .isDirectory

end Workspace

instance : Host (StateM Workspace) where
  read path := do return (← get).read path
  write path text := do
    match (← get).write path text with
    | .ok w =>
      set w
      return .ok ()
    | .error e => return .error e
  say line := modify fun w => { w with output := w.output ++ [line] }
  complain text := modify fun w => { w with errors := w.errors ++ text }
  finish stage := modify fun w => { w with output := w.output ++ [stage.label] }

end Offside
