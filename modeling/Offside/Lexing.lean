import Offside.Diagnostic
import Offside.GreedyScan
import Offside.MaximalMunch

namespace Offside

/-- How a text is cut into tokens: in one greedy pass, or always at the longest match. -/
inductive Strategy where
  | fast
  | classic
deriving DecidableEq, Repr, Inhabited

/-- The tokens of consecutive pieces, the first of which starts at `offset`. A piece of no kind
takes up room and yields nothing. -/
def place (source : Source) (kindOf? : List Char → Option Kind) :
    Nat → List (List Char) → List Token
  | _, [] => []
  | offset, piece :: pieces =>
    let stop := offset + byteLength piece
    let tokens := place source kindOf? stop pieces
    match kindOf? piece with
    | some kind =>
      ⟨kind, String.ofList piece, ⟨.within source offset, .within source stop⟩⟩ :: tokens
    | none => tokens

def dropComments (tokens : List Token) : List Token :=
  tokens.filter (·.kind != .comment)

def fastTokens (source : Source) : List Token :=
  dropComments (place source firstKind? 0 (greedy source.text.toList))

def classicTokens (source : Source) : Outcome (List Token) :=
  match munch source.text.toList with
  | (pieces, []) => .ok (dropComments (place source preferredKind? 0 pieces))
  | (pieces, c :: _) =>
    refuse (.unexpectedToken (String.singleton c)) (.within source (byteLength pieces.flatten))

def tokensOf (strategy : Strategy) (source : Source) : Outcome (List Token) :=
  match strategy with
  | .fast => .ok (fastTokens source)
  | .classic => classicTokens source

end Offside
