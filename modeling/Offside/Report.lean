import Offside.Blank
import Offside.Diagnostic
import Offside.Quotation

namespace Offside

namespace Cause

/-- The headline of a report. -/
def headline : Cause → String
  | unexpectedToken _ => "Unexpected token"
  | unexpectedBlock => "Unexpected block"
  | invalidBlock form => "Invalid " ++ form.label
  | noExpression => "No expression"
  | inconsistentIndentation _ _ => "Inconsistent indentation"

/-- What is wrong, in one clause. -/
def message : Cause → String
  | unexpectedToken text => "unexpected token: " ++ quotation text
  | unexpectedBlock => "unexpected block"
  | invalidBlock form => "invalid " ++ form.label
  | noExpression => "no expression"
  | inconsistentIndentation width unit =>
    "inconsistent indentation: width " ++ toString width ++ " with unit " ++ toString unit

/-- What may help to mend it. -/
def tip? : Cause → Option String
  | unexpectedToken text =>
    if text.isEmpty then none else some ("Unexpected token: \x60" ++ spelling text ++ "\x60")
  | unexpectedBlock =>
    some "A symbol must start with a keyword, is this line indented too far?"
  | invalidBlock _ => none
  | noExpression => none
  | inconsistentIndentation width unit =>
    some ("Indentation of width " ++ toString width ++
      " is not a multiple of the indent unit (" ++ toString unit ++ ")")

end Cause

/-- Puts a text at the right end of a field that is at least `width` characters wide. -/
def alignRight (width : Nat) (text : String) : String :=
  String.ofList (List.replicate (width - text.length) ' ') ++ text

def isIndent (c : Char) : Bool :=
  c == ' ' || c == '\t'

/-- A line without its indentation and the blanks at its end. -/
def excerpt (line : List Char) : List Char :=
  trimEnd (line.dropWhile isIndent)

/-- The column of the excerpt that a column of the whole line comes to, at least the first. -/
def caretColumn (line : List Char) (column : Nat) : Nat :=
  max 1 (column - (line.takeWhile isIndent).length)

def tipLine (cause : Cause) : List String :=
  match cause.tip? with
  | some tip => ["  = " ++ tip]
  | none => []

/-- The lines of a report: headline, place, the source line with a caret below, and a tip. -/
def Diagnostic.reportLines (diagnostic : Diagnostic) : List String :=
  let position := diagnostic.position
  let place : List String :=
    match position with
    | .unknown => ["  at <unknown>"]
    | .within source _ =>
      let number := toString position.line
      let gutter := alignRight (number.length + 2) "|"
      ["  at " ++ source.name ++ ":" ++ number ++ ":" ++ toString position.column,
        gutter,
        number ++ " | " ++ String.ofList (excerpt position.lineText),
        gutter ++ " " ++ alignRight (caretColumn position.lineText position.column) "^"]
  diagnostic.cause.headline :: place ++ tipLine diagnostic.cause

def Diagnostic.report (diagnostic : Diagnostic) : String :=
  String.join (diagnostic.reportLines.map (· ++ "\n"))

end Offside
