import Offside.Diagnostic

namespace Offside

def repeatText (count : Nat) (text : String) : String :=
  String.join (List.replicate count text)

/-- Whether the line ends here, with nothing but its line break or the end of the program left. -/
def endsLine : List Token → Bool
  | [] => true
  | token :: _ => token.kind == .newline

/-- Keeps the whitespace that indents a line, as whole multiples of the unit, and drops the rest.
The unit is the first indentation met; `fresh` says that the line has no other token so far. -/
def indentFrom (unit? : Option String) (fresh : Bool) : List Token → Outcome (List Token)
  | [] => .ok []
  | token :: tokens =>
    match token.kind with
    | .whitespace =>
      if fresh && !endsLine tokens then
        let unit := unit?.getD token.text
        let width := token.text.length
        if width % unit.length = 0 then do
          let rest ← indentFrom (some unit) fresh tokens
          return ⟨.whitespace, repeatText (width / unit.length) unit, token.span⟩ :: rest
        else refuse (.inconsistentIndentation width unit.length) token.span.start
      else indentFrom unit? fresh tokens
    | .newline => do
      let rest ← indentFrom unit? true tokens
      return Token.lineBreak token.span :: rest
    | _ => do
      let rest ← indentFrom unit? false tokens
      return token :: rest

/-- Rewrites every indentation as repetitions of the first one and drops all other whitespace. -/
def indent (tokens : List Token) : Outcome (List Token) :=
  indentFrom none false tokens

end Offside
