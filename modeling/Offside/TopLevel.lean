import Offside.Sections
import Offside.Tree

namespace Offside

/-- How many brackets of each sort are open. A count falls below zero where more are closed. -/
structure Depth where
  parens : Int
  brackets : Int
  braces : Int
deriving DecidableEq, Repr

namespace Depth

def top : Depth :=
  ⟨0, 0, 0⟩

/-- The depth after an item. The inside of a group does not count. -/
def after (depth : Depth) : Tree → Depth
  | .group _ => depth
  | .token t =>
    match t.kind with
    | .openParen => { depth with parens := depth.parens + 1 }
    | .openBracket => { depth with brackets := depth.brackets + 1 }
    | .openCurly => { depth with braces := depth.braces + 1 }
    | .closeParen => { depth with parens := depth.parens - 1 }
    | .closeBracket => { depth with brackets := depth.brackets - 1 }
    | .closeCurly => { depth with braces := depth.braces - 1 }
    | _ => depth

end Depth

/-- Each item of a span with the depth after it. -/
def depths (depth : Depth) : List Tree → List (Tree × Depth)
  | [] => []
  | tree :: span => (tree, depth.after tree) :: depths (depth.after tree) span

/-- The token that divides a span where it stands: one of some kinds, outside of all brackets. -/
def separator? (kinds : List Kind) : Tree × Depth → Option Token
  | (.token t, depth) => if t.hasKindIn kinds && depth == .top then some t else none
  | (.group _, _) => none

/-- The part before the first separator, and each separator with the part after it. -/
def cut (kinds : List Kind) (span : List Tree) : List Tree × List (Token × List Tree) :=
  let (first, others) := sections (separator? kinds) (depths .top span)
  (first.map Prod.fst, others.map fun (t, part) => (t, part.map Prod.fst))

/-- The parts between separators. With `keep` a separator opens the part after it. -/
def split (kinds : List Kind) (keep : Bool) (span : List Tree) : List (List Tree) :=
  if span.isEmpty then []
  else
    let (first, others) := cut kinds span
    first :: others.map fun (t, part) => if keep then .token t :: part else part

/-- Where the first separator stands. -/
def topIndex? (kinds : List Kind) (span : List Tree) : Option Nat :=
  (depths .top span).findIdx? fun item => (separator? kinds item).isSome

/-- What stands before the first separator, the separator, and what stands after it. -/
def divide? (kinds : List Kind) (span : List Tree) : Option (List Tree × Token × List Tree) := do
  let i ← topIndex? kinds span
  match span.drop i with
  | .token t :: rest => some (span.take i, t, rest)
  | _ => none

theorem map_fst_depths (depth : Depth) (span : List Tree) :
    (depths depth span).map Prod.fst = span := by
  induction span generalizing depth with
  | nil => rfl
  | cons tree span ih => rw [depths, List.map_cons, ih]

end Offside
