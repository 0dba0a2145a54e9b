import Offside.TopLevel
import Offside.Matching

namespace Offside

/-- A composite expression taken apart, its parts not read yet. -/
inductive Shape where
  | returning (keyword : Tree) (value : List Tree)
  | call (callee : List Tree) (opener : Tree) (arguments : List Tree)
  | access (subject : List Tree) (opener : Tree) (key : List Tree)
  | chain (subject : List Tree) (accessors : List Token)
  | lambda (parameters : List String) (arrow : Token) (body : List Tree)
  | dictionary (opener : Tree) (entries : List Tree)
  | operation (span : List Tree)
  | assignment (left : List Tree) (operator : Token) (right : List Tree)

/-- What a call, an access or a chain can start from. -/
def canBeSubject (span : List Tree) : Bool :=
  !span.isEmpty && (topIndex? [.operator, .assignment, .arrow] span).isNone

def hasArrow (span : List Tree) : Bool :=
  (topIndex? [.arrow] span).isSome

/-- The names in a chain, which has nothing but dots between them. -/
def accessors? : List Tree → Option (List Token)
  | [] => some []
  | .group _ :: _ => none
  | .token t :: span =>
    if t.kind = .dot then accessors? span
    else if t.kind.isValue then (accessors? span).map (t :: ·)
    else none

/-- The parameters before an arrow: a name, or names between commas in parentheses. -/
def parameters? (span : List Tree) : Option (List String) :=
  match leaves span with
  | [] => none
  | [t] => (soleName? [.token t]).map ([·])
  | first :: rest =>
    if first.kind == .openParen && rest.getLast?.any (·.kind == .closeParen) then
      (split [.comma] false (rest.dropLast.map .token)).mapM soleName?
    else none

def returning? : List Tree → Option Shape
  | [] => none
  | keyword :: value => if keyword.hasKind .returnWord then some (.returning keyword value) else none

def call? (span : List Tree) : Option Shape :=
  match span.reverse with
  | closer :: .group arguments :: opener :: before =>
    let callee := before.reverse
    if closer.hasKind .closeParen && opener.hasKind .openParen && !hasArrow span &&
        canBeSubject callee then
      some (.call callee opener arguments)
    else none
  | _ => none

def access? (span : List Tree) : Option Shape := do
  let i ← openOfLast? span
  match span.drop i with
  | [] => none
  | opener :: rest =>
    if !hasArrow span && canBeSubject (span.take i) then
      some (.access (span.take i) opener rest.dropLast)
    else none

def chain? (span : List Tree) : Option Shape := do
  let (subject, _, rest) ← divide? [.dot] span
  if hasArrow span || !canBeSubject subject then none
  else
    let accessors ← accessors? rest
    if accessors.isEmpty then none else some (.chain subject accessors)

def lambda? (span : List Tree) : Option Shape := do
  let (head, arrow, body) ← divide? [.arrow] span
  let parameters ← parameters? head
  return .lambda parameters arrow body

def dictionary? (span : List Tree) : Option Shape :=
  match span with
  | [] => none
  | opener :: rest =>
    if opener.hasKind .openCurly && closeOf? span 0 == some rest.length then
      some (.dictionary opener rest.dropLast)
    else none

/-- An operation or an assignment, by what comes first outside of all brackets. -/
def operation? (span : List Tree) : Option Shape := do
  let (_, t, _) ← divide? [.operator, .assignment] span
  if t.kind = .operator then some (.operation span) else none

def assignment? (span : List Tree) : Option Shape := do
  let (left, t, right) ← divide? [.operator, .assignment] span
  if t.kind = .assignment then some (.assignment left t right) else none

/-- Takes a span apart as one form of composite expression. -/
def ConstructForm.shape? : ConstructForm → List Tree → Option Shape
  | returning => returning?
  | call => call?
  | access => access?
  | chain => chain?
  | lambda => lambda?
  | dictionary => dictionary?
  | operation => operation?
  | assignment => assignment?

/-- Takes a span apart as the first form that fits. -/
def shape? (span : List Tree) : Option Shape :=
  ConstructForm.inOrder.findSome? (·.shape? span)

end Offside
