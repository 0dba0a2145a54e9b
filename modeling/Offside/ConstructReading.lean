import Offside.Entries
import Offside.Outline
import Offside.Postfix
import Offside.Shape

namespace Offside

/-- A name, a colon and what they label. -/
def labelled? : List Tree → Option (Token × List Tree)
  | label :: colon :: rest => do
    let t ← label.name?
    if colon.hasKind .colon then some (t, rest) else none
  | _ => none

/-- Reads an argument. Without a label its position is its name. -/
def readArgument (r : Readers) (opener : Position) (part : List Tree) (i : Nat) :
    Outcome (String × Value) :=
  match labelled? part with
  | some (t, rest) => do
    let value ← r.valueAt rest t.span.start
    return (t.text, value)
  | none => do
    let value ← r.valueAt part opener
    return (toString i, value)

def indexKey (i : Nat) (position : Position) : Value :=
  .literal ⟨.decimal, toString i, ⟨position, position⟩⟩

/-- Reads an entry of a dictionary. Without a key its position is its key. -/
def readEntry (r : Readers) (opener : Position) (part : List Tree) (i : Nat) :
    Outcome (Value × Value) :=
  match divide? [.colon] part with
  | some (left, colon, right) => do
    let key ← r.valueAt left colon.span.start
    let value ← r.valueAt right colon.span.start
    return (key, value)
  | none => do
    let position := (origin part).orElse opener
    let value ← r.valueAt part position
    return (indexKey i position, value)

/-- Reads what stands between commas, each part with its position. -/
def readListed {α : Type} (read : List Tree → Nat → Outcome α) (span : List Tree) :
    Outcome (List α) :=
  (split [.comma] false span).zipIdx.mapM fun (part, i) => read part i

/-- Reads the parts of a composite expression. -/
def Shape.read (r : Readers) : Shape → Outcome Construct
  | returning keyword span => do
    let value ← r.valueAt span keyword.start
    return .returning value
  | call callee opener span => do
    let arguments ← readListed (readArgument r opener.start) span
    let value ← r.value callee
    return .call value (collect (· == ·) arguments)
  | access subject opener span => do
    let key ← r.valueAt span opener.start
    let value ← r.value subject
    return .access value key
  | chain subject accessors => do
    let value ← r.value subject
    return .chain value accessors
  | lambda parameters arrow span => do
    let body ← r.valueAt span arrow.span.start
    return .lambda parameters body
  | dictionary opener span => do
    let entries ← readListed (readEntry r opener.start) span
    return .dictionary (collect Value.same entries)
  | operation span => do
    let items ← readPostfix r span
    return .operation items
  | assignment left t right => do
    let target ← r.valueAt left t.span.start
    let value ← r.valueAt right t.span.start
    return .assignment target t value

end Offside
