import Offside.Matching

namespace Offside

mutual

/-- The items of a tree on one level without line breaks, and whether a block begins among them.
From its keyword on, a block stays as it was. -/
def Tree.spread : Tree → List Tree × Bool
  | .token t =>
    if t.kind = .newline then ([], false) else ([.token t], (BlockForm.introducedBy? t).isSome)
  | .group items => spread items

def spread : List Tree → List Tree × Bool
  | [] => ([], false)
  | tree :: span =>
    match tree.spread with
    | (items, true) => (items ++ span, true)
    | (items, false) =>
      let (rest, met) := spread span
      (items ++ rest, met)

end

/-- Makes a group of what stands between two matching parentheses, and of what stands after one
that is never closed. The first block outside of parentheses ends the regrouping. -/
def regroup : List Tree → List Tree
  | [] => []
  | tree :: span =>
    if tree.opensBlock then tree :: span
    else if tree.hasKind .openParen then
      match closerIndex? .openParen .closeParen 0 span with
      | some n => tree :: .group (regroup (span.take n)) :: regroup (span.drop n)
      | none => if span.isEmpty then [tree] else [tree, .group (regroup span)]
    else tree :: regroup span
termination_by span => span.length
decreasing_by
  · exact Nat.lt_succ_of_le (List.take_prefix _ _).length_le
  · exact Nat.lt_succ_of_le (List.drop_suffix _ _).length_le
  · exact Nat.lt_succ_self _
  · exact Nat.lt_succ_self _

/-- The inside of a span that is one group in parentheses. -/
def inParens? : List Tree → Option (List Tree)
  | [left, .group items, right] =>
    if left.hasKind .openParen && right.hasKind .closeParen then some items else none
  | _ => none

end Offside
