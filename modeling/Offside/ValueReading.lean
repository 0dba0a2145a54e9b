import Offside.BlockReading
import Offside.ConstructReading
import Offside.Regrouping

namespace Offside

/-- A token that is a value all by itself. -/
def literal? : List Tree → Option Value
  | [.token t] => if t.kind.isValue then some (.literal t) else none
  | _ => none

/-- Reads a span that is a single value or a group in parentheses, and any other by `compound`. -/
def readSimple (r : Readers) (span : List Tree) (compound : List Tree → Outcome Value) :
    Outcome Value :=
  match literal? span with
  | some value => .ok value
  | none =>
    match inParens? span with
    | some inner => r.value inner
    | none => compound span

/-- Reads a span as the first composite expression that fits. -/
def readConstruct (r : Readers) (span : List Tree) : Outcome Value :=
  match shape? span with
  | some shape => do
    let construct ← shape.read r
    return .construct construct
  | none => refuse (.unexpectedToken (((firstLeaf? span).map (·.text)).getD "")) (origin span)

/-- Reads an expression with its lines joined and its parentheses grouped. -/
def readFlat (r : Readers) (span : List Tree) : Outcome Value :=
  readSimple r (regroup (spread span).1) (readConstruct r)

/-- Reads a value, given readers for the spans inside it. -/
def valueStep (r : Readers) (span : List Tree) : Outcome Value :=
  match unwrap span with
  | [] => refuse .noExpression .unknown
  | first :: rest =>
    if first.opensBlock then do
      let block ← blockStep r (first :: rest)
      return .block block
    else readSimple r (first :: rest) (readFlat r)

end Offside
