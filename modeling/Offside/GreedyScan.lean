import Offside.Recognition

namespace Offside

/-- Extends a piece as long as the extension matches, then starts the next piece. -/
def greedyFrom (piece : List Char) : List Char → List (List Char)
  | [] => [piece]
  | c :: text =>
    if (firstKind? (piece ++ [c])).isSome then greedyFrom (piece ++ [c]) text
    else piece :: greedyFrom [c] text

/-- Cuts a text in one pass, without ever giving back a character. -/
def greedy : List Char → List (List Char)
  | [] => []
  | c :: text => greedyFrom [c] text

theorem greedyFrom_flatten (piece text : List Char) :
    (greedyFrom piece text).flatten = piece ++ text := by
  fun_induction greedyFrom piece text with
  | case1 piece => simp
  | case2 piece c text h ih => rw [ih, List.append_assoc]; rfl
  | case3 piece c text h ih => rw [List.flatten_cons, ih]; rfl

theorem greedy_flatten (text : List Char) : (greedy text).flatten = text := by
  cases text with
  | nil => rfl
  | cons c text => exact greedyFrom_flatten [c] text

end Offside
