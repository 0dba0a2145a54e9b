import Offside.Sections
import Offside.Tree

namespace Offside

/-- The lines of a program, empty ones left out. -/
def lines (tokens : List Token) : List (List Token) :=
  (splitWhere (·.kind == .newline) tokens).filter (!·.isEmpty)

/-- The whitespace a line begins with. -/
def indentation? : List Token → Option String
  | [] => none
  | token :: _ => if token.kind = .whitespace then some token.text else none

/-- The indentation of the lines that go with this one. -/
def levelOf (line : List Token) : String :=
  (indentation? line).getD ""

/-- Whether a line is indented, and otherwise than its level. -/
def isNestedUnder (level : String) (line : List Token) : Bool :=
  match indentation? line with
  | some indentation => indentation != level
  | none => false

/-- A line as it stands in a tree: a line break, then its tokens without the whitespace. -/
def layLine : List Token → List Tree
  | [] => []
  | first :: line =>
    .token (.lineBreak first.span) ::
      ((first :: line).filter (·.kind != .whitespace)).map .token

/-- Lines at a level stand side by side, and a run of lines off it becomes one group, whose level
is that of the run's first line. -/
def nestAt (level : String) : List (List Token) → List Tree
  | [] => []
  | line :: lines =>
    if isNestedUnder level line then
      .group (layLine line ++ nestAt (levelOf line) (lines.takeWhile (isNestedUnder level))) ::
        nestAt level (lines.dropWhile (isNestedUnder level))
    else layLine line ++ nestAt level lines
termination_by lines => lines.length
decreasing_by
  · exact Nat.lt_succ_of_le (List.takeWhile_prefix _).length_le
  · exact Nat.lt_succ_of_le (List.dropWhile_suffix _).length_le
  · exact Nat.lt_succ_self _

/-- The tree of a program's lines, nested as they are indented. -/
def nest : List (List Token) → List Tree
  | [] => []
  | line :: lines => nestAt (levelOf line) (line :: lines)

end Offside
