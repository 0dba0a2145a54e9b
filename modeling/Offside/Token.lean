import Offside.Source

namespace Offside

/-- What a token is, in the order in which the grammar is consulted. -/
inductive Kind where
  | float
  | scientific
  | binary
  | octal
  | decimal
  | hexadecimal
  | boolean
  | string
  | operator
  | assignment
  | arrow
  | keyword
  | returnWord
  | name
  | whitespace
  | newline
  | comment
  | openParen
  | openBracket
  | openCurly
  | closeParen
  | closeBracket
  | closeCurly
  | colon
  | dot
  | comma
deriving DecidableEq, Repr, Inhabited

namespace Kind

def all : List Kind :=
  [float, scientific, binary, octal, decimal, hexadecimal, boolean, string, operator, assignment,
    arrow, keyword, returnWord, name, whitespace, newline, comment, openParen, openBracket,
    openCurly, closeParen, closeBracket, closeCurly, colon, dot, comma]

theorem mem_all (kind : Kind) : kind ∈ all := by
  cases kind <;> decide

def label : Kind → String
  | float => "Float"
  | scientific => "Scientific"
  | binary => "Binary"
  | octal => "Octal"
  | decimal => "Decimal"
  | hexadecimal => "Hexadecimal"
  | boolean => "Boolean"
  | string => "String"
  | operator => "Operator"
  | assignment => "Assignment"
  | arrow => "Arrow"
  | keyword => "Keyword"
  | returnWord => "Return"
  | name => "Name"
  | whitespace => "Whitespace"
  | newline => "Newline"
  | comment => "Comment"
  | openParen => "OpenParen"
  | openBracket => "OpenBracket"
  | openCurly => "OpenCurly"
  | closeParen => "CloseParen"
  | closeBracket => "CloseBracket"
  | closeCurly => "CloseCurly"
  | colon => "Colon"
  | dot => "Dot"
  | comma => "Comma"

/-- Tokens of these kinds can stand alone as a value. -/
def isValue : Kind → Bool
  | float | scientific | binary | octal | decimal | hexadecimal | boolean | string | name => true
  | _ => false

end Kind

structure Token where
  kind : Kind
  text : String
  span : Span
deriving DecidableEq, Repr, Inhabited

namespace Token

/-- Tokens are the same when kind and text agree, wherever they stand. -/
def same (a b : Token) : Bool :=
  a.kind == b.kind && a.text == b.text

def hasKindIn (token : Token) (kinds : List Kind) : Bool :=
  kinds.contains token.kind

def display (token : Token) : String :=
  "Token \x7b\nkind: " ++ token.kind.label ++ ",\nvalue: " ++ token.text ++ "\x7d"

/-- The marker put before each line of a token tree. -/
def lineBreak (span : Span) : Token :=
  ⟨.newline, "\n", span⟩

theorem same_iff {a b : Token} : a.same b = true ↔ a.kind = b.kind ∧ a.text = b.text := by
  simp [same]

end Token

end Offside
