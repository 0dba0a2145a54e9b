import Offside.TopLevel
import Offside.Operator
import Offside.Readers

namespace Offside

/-- An element of an operator expression as it is written. -/
inductive Part where
  | operand (value : Value)
  | binary (token : Token) (rank : Rank)
  | unary (token : Token) (rank : Rank)

/-- An operator that waits for the end of its right side. -/
structure Pending where
  item : Item
  rank : Rank

def operatorRank (t : Token) : Outcome Rank :=
  match rankOf? t.text with
  | some rank => .ok rank
  | none => refuse (.unexpectedToken t.text) t.span.start

/-- Reads operators with their right sides. While an operand is missing, `missing` says where to
complain about it, and an operator that comes then is unary. -/
def readClauses (r : Readers) : Option Position → List (Token × List Tree) → Outcome (List Part)
  | some position, [] => refuse .noExpression position
  | none, [] => .ok []
  | missing, (t, operand) :: clauses => do
    let rank ← operatorRank t
    let operator := if missing.isSome then Part.unary t rank else .binary t rank
    if operand.isEmpty then
      let parts ← readClauses r (some t.span.start) clauses
      return operator :: parts
    else
      let value ← r.valueAt operand (origin operand)
      let parts ← readClauses r none clauses
      return operator :: .operand value :: parts

/-- Reads an operator expression in the order in which it is written. -/
def readParts (r : Readers) (span : List Tree) : Outcome (List Part) :=
  match cut [.operator] span with
  | ([], clauses) => readClauses r (some (origin span)) clauses
  | (first, clauses) => do
    let value ← r.valueAt first (origin first)
    let parts ← readClauses r none clauses
    return .operand value :: parts

/-- Puts each operator behind its operands. The pending operators are given innermost first. -/
def shunt : List Pending → List Part → List Item
  | pending, [] => pending.map (·.item)
  | pending, .operand value :: parts => .operand value :: shunt pending parts
  | pending, .unary t rank :: parts => shunt (⟨.unary t, rank⟩ :: pending) parts
  | pending, .binary t rank :: parts =>
    let complete := pending.takeWhile (·.rank.closedBy rank)
    let waiting := pending.dropWhile (·.rank.closedBy rank)
    complete.map (·.item) ++ shunt (⟨.operator t, rank⟩ :: waiting) parts

/-- Reads an operator expression into postfix order. -/
def readPostfix (r : Readers) (span : List Tree) : Outcome (List Item) := do
  let parts ← readParts r span
  return shunt [] parts

end Offside
