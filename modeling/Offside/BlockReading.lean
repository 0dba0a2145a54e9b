import Offside.TopLevel
import Offside.Matching
import Offside.Readers

namespace Offside

/-- The names a span declares in square brackets at its beginning, and what comes after them.
Nothing if the brackets are left open. -/
def declarations? : List Tree → Option (List Token × List Tree)
  | [] => some ([], [])
  | first :: rest =>
    if first.hasKind .openBracket then
      match rest.dropWhile (!·.hasKind .closeBracket) with
      | [] => none
      | _ :: body => some ((rest.takeWhile (!·.hasKind .closeBracket)).filterMap Tree.name?, body)
    else some ([], first :: rest)

/-- Takes the keyword of a form and the declarations off a span. -/
def heading? (form : BlockForm) (span : List Tree) : Option (Heading × List Tree) :=
  match span with
  | .token t :: rest =>
    if t.kind = .keyword && t.text == form.keyword then
      (declarations? rest).map fun (declarations, body) => (⟨declarations, t.span.start⟩, body)
    else none
  | _ => none

def readHeading (form : BlockForm) (span : List Tree) : Outcome (Heading × List Tree) :=
  match heading? form span with
  | some result => .ok result
  | none => refuse (.invalidBlock form) (origin span)

/-- What stands on the line of a keyword, and what is indented below it. -/
def headerAndBody (span : List Tree) : List Tree × List Tree :=
  span.span (!·.isGroup)

/-- Reads the blocks of a program or a closure, one a line. -/
def readSymbols (r : Readers) (span : List Tree) : Outcome (List Block) :=
  ((splitWhere (·.hasKind .newline) span).filter (!·.isEmpty)).mapM r.block

/-- The steps of a sequence, divided by commas and line breaks. -/
def stepsOf (span : List Tree) : List (List Tree) :=
  (split [.comma, .newline] false (ungroup span)).filter (!·.isEmpty)

/-- The token of an import path. -/
def pathToken? : Tree → Option Token
  | .token t => if t.hasKindIn [.name, .dot] then some t else none
  | .group _ => none

/-- Parameters in parentheses, commas left out, and what comes after them. A function may go
without. -/
def signature? : List Tree → Option (List String × List Tree)
  | [] => some ([], [])
  | first :: rest => do
    if first.hasKind .openParen then
      let n ← closerIndex? .openParen .closeParen 0 rest
      let names ← ((rest.take n).filter (!·.hasKind .comma)).mapM Tree.name?
      return (names.map (·.text), rest.drop (n + 1))
    else none

/-- The iterator's name and the span it runs over. The word between them is not looked at. -/
def iteration? : List Tree → Option (String × List Tree)
  | iterator :: _ :: iteratee => do
    let t ← iterator.name?
    if iteratee.isEmpty then none else some (t.text, iteratee)
  | _ => none

/-- A function's name, its parameters, and what its value is read from. -/
def functionParts? (span : List Tree) : Option (String × List String × List Tree) :=
  match headerAndBody span with
  | (first :: header, body) => do
    let t ← first.name?
    let (parameters, inline) ← signature? header
    return (t.text, parameters, inline ++ ungroup body)
  | ([], _) => none

/-- Reads the body of a block whose heading has been taken off. -/
def BlockForm.readBody (r : Readers) (form : BlockForm) (heading : Heading) (span : List Tree) :
    Outcome Block :=
  let read (part : List Tree) : Outcome Value := r.valueAt part heading.origin
  let invalid : Outcome Block := refuse (.invalidBlock form) heading.origin
  match form with
  | imports =>
    match span.mapM pathToken? with
    | some (t :: symbols) => .ok (.imports heading (t :: symbols))
    | _ => invalid
  | closure =>
    let (header, body) := headerAndBody span
    match soleName? header with
    | some name => do
      let symbols ← readSymbols r (ungroup body)
      return .closure heading name symbols
    | none => invalid
  | conditional =>
    let (header, body) := headerAndBody span
    if header.isEmpty || body.isEmpty then invalid
    else do
      let condition ← read header
      let value ← read body
      return .conditional heading condition value
  | otherwise => do
    let value ← read span
    return .otherwise heading value
  | sequence => do
    let steps ← (stepsOf span).mapM read
    if steps.isEmpty then invalid else return .sequence heading steps
  | each =>
    let (header, body) := headerAndBody span
    match iteration? header with
    | some (iterator, part) =>
      if body.isEmpty then invalid
      else do
        let iteratee ← read part
        let value ← read body
        return .each heading iterator iteratee value
    | none => invalid
  | repetition =>
    let (header, body) := headerAndBody span
    if header.isEmpty || body.isEmpty then invalid
    else do
      let count ← read header
      let value ← read body
      return .repetition heading count value
  | function =>
    match functionParts? span with
    | some (name, parameters, part) => do
      let value ← read part
      return .function heading name parameters value
    | none => invalid

/-- Reads a span as a block of one form. -/
def BlockForm.read (r : Readers) (form : BlockForm) (span : List Tree) : Outcome Block := do
  let (heading, body) ← readHeading form span
  form.readBody r heading body

/-- Reads the block that the keyword at the beginning of a span introduces. -/
def blockStep (r : Readers) (span : List Tree) : Outcome Block :=
  match span with
  | [] => refuse .unexpectedBlock .unknown
  | .group items :: rest => refuse .unexpectedBlock (origin (.group items :: rest))
  | .token t :: _ =>
    match BlockForm.introducedBy? t with
    | some form => form.read r span
    | none => refuse (.unexpectedToken t.text) t.span.start

end Offside
