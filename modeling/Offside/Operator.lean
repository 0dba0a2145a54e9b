namespace Offside

/-- How tightly an operator binds, and whether equals group from the left. -/
structure Rank where
  precedence : Nat
  leftAssociative : Bool
deriving DecidableEq, Repr, Inhabited

/-- Every operator with its rank, ordered by spelling. -/
def operators : List (String × Rank) :=
  [("%", ⟨2, true⟩),
   ("*", ⟨2, true⟩),
   ("**", ⟨3, false⟩),
   ("+", ⟨1, true⟩),
   ("-", ⟨1, true⟩),
   ("/", ⟨2, true⟩),
   ("<", ⟨0, true⟩),
   ("<=", ⟨0, true⟩),
   ("==", ⟨0, true⟩),
   (">", ⟨0, true⟩),
   (">=", ⟨0, true⟩),
   ("and", ⟨0, true⟩),
   ("nand", ⟨0, true⟩),
   ("nor", ⟨0, true⟩),
   ("not", ⟨0, false⟩),
   ("or", ⟨0, true⟩),
   ("xnor", ⟨0, true⟩),
   ("xor", ⟨0, true⟩)]

def rankOf? (operator : String) : Option Rank :=
  operators.lookup operator

/-- Whether an operator that waits for its right side is complete once `next` comes. -/
def Rank.closedBy (waiting next : Rank) : Bool :=
  waiting.precedence > next.precedence ||
    (waiting.precedence == next.precedence && next.leftAssociative)

end Offside
