import Offside.Recognition

namespace Offside

/-- The text a token at the beginning can reach: the rest of the line, then a run of line
feeds. -/
def horizon (text : List Char) : List Char :=
  text.takeWhile (· != '\n') ++ (text.dropWhile (· != '\n')).takeWhile (· == '\n')

/-- How many of the characters after `c` belong to the longest matching piece that starts
with `c`. -/
def longestTail? (c : Char) (text : List Char) : Option Nat :=
  (List.range (horizon (c :: text)).length).reverse.find? fun n =>
    (preferredKind? (c :: text.take n)).isSome

/-- Cuts longest matching pieces off the front of a text as long as there are any. The second
part is what is left: empty, or a text of which no beginning matches. -/
def munch : List Char → List (List Char) × List Char
  | [] => ([], [])
  | c :: text =>
    match longestTail? c text with
    | none => ([], c :: text)
    | some n =>
      let (pieces, rest) := munch (text.drop n)
      ((c :: text.take n) :: pieces, rest)
termination_by text => text.length
decreasing_by
  simp only [List.length_drop, List.length_cons]
  omega

theorem munch_flatten (text : List Char) : (munch text).1.flatten ++ (munch text).2 = text := by
  fun_induction munch text with
  | case1 => rfl
  | case2 c text h => rfl
  | case3 c text n h pieces rest he ih =>
    rw [he] at ih
    simp only [List.flatten_cons, List.cons_append, List.append_assoc, ih, List.take_append_drop]

end Offside
