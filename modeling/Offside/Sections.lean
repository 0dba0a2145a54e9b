namespace Offside

/-- The part before the first separator, and each separator with the part after it. -/
def sections {α β : Type} (separator? : α → Option β) : List α → List α × List (β × List α)
  | [] => ([], [])
  | x :: xs =>
    let (first, others) := sections separator? xs
    match separator? x with
    | some s => ([], (s, first) :: others)
    | none => (x :: first, others)

/-- The parts between the elements that satisfy `p`, empty ones included. -/
def splitWhere {α : Type} (p : α → Bool) (xs : List α) : List (List α) :=
  let (first, others) := sections (fun x => if p x then some x else none) xs
  first :: others.map Prod.snd

end Offside
