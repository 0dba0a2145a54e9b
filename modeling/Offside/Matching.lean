import Offside.Tree

namespace Offside

def Kind.closer? : Kind → Option Kind
  | openParen => some closeParen
  | openBracket => some closeBracket
  | openCurly => some closeCurly
  | _ => none

/-- Where a bracket that was opened before the span is closed, when `inner` brackets opened after
it have to be closed first. -/
def closerIndex? (opening closing : Kind) : Nat → List Tree → Option Nat
  | _, [] => none
  | inner, tree :: span =>
    if tree.hasKind opening then (closerIndex? opening closing (inner + 1) span).map (· + 1)
    else if tree.hasKind closing then
      match inner with
      | 0 => some 0
      | inner + 1 => (closerIndex? opening closing inner span).map (· + 1)
    else (closerIndex? opening closing inner span).map (· + 1)

/-- The index that closes the bracket at an index. -/
def closeOf? (span : List Tree) (i : Nat) : Option Nat :=
  match span.drop i with
  | .token t :: rest => do
    let closing ← t.kind.closer?
    let n ← closerIndex? t.kind closing 0 rest
    return i + 1 + n
  | _ => none

/-- The index of the square bracket that the last item closes. -/
def openOfLast? (span : List Tree) : Option Nat :=
  match span.reverse with
  | [] => none
  | last :: rest =>
    if last.hasKind .closeBracket then
      (closerIndex? .closeBracket .openBracket 0 rest).map (rest.length - 1 - ·)
    else none

end Offside
