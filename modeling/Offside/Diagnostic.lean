import Offside.Form

namespace Offside

/-- Why a program is refused. -/
inductive Cause where
  | unexpectedToken (text : String)
  | unexpectedBlock
  | invalidBlock (form : BlockForm)
  | noExpression
  | inconsistentIndentation (width unit : Nat)
deriving DecidableEq, Repr, Inhabited

structure Diagnostic where
  cause : Cause
  position : Position
deriving DecidableEq, Repr, Inhabited

/-- Places a diagnostic that was raised where nothing stood. -/
def Diagnostic.orAt (diagnostic : Diagnostic) (position : Position) : Diagnostic :=
  ⟨diagnostic.cause, diagnostic.position.orElse position⟩

abbrev Outcome := Except Diagnostic

/-- The same outcome, its diagnostic placed at `position` unless it has a place of its own. -/
def Outcome.orAt {α : Type} (outcome : Outcome α) (position : Position) : Outcome α :=
  outcome.mapError (·.orAt position)

def refuse {α : Type} (cause : Cause) (position : Position) : Outcome α :=
  .error ⟨cause, position⟩

end Offside
