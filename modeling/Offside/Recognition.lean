import Offside.Operator
import Offside.Token

namespace Offside

def keywords : List String :=
  ["if", "else", "do", "each", "repeat", "import", "closure", "fn"]

def assignments : List String :=
  ["=", "+=", "*=", "-=", "/=", "%=", "**="]

def isSpacing (c : Char) : Bool :=
  let n := c.toNat
  n == 0x20 || n == 0x0c || n == 0x0d || n == 0x09 || n == 0x0b || n == 0xa0 || n == 0x1680 ||
    (0x2000 ≤ n && n ≤ 0x200a) || n == 0x2028 || n == 0x2029 || n == 0x202f || n == 0x205f ||
    n == 0x3000 || n == 0xfeff

def isBinaryDigit (c : Char) : Bool :=
  c == '0' || c == '1'

def isOctalDigit (c : Char) : Bool :=
  '0' ≤ c && c ≤ '7'

def isHexDigit (c : Char) : Bool :=
  c.isDigit || ('a' ≤ c && c ≤ 'f') || ('A' ≤ c && c ≤ 'F')

def isNameStart (c : Char) : Bool :=
  c == '$' || c == '_' || c.isAlpha

def isNamePart (c : Char) : Bool :=
  isNameStart c || c.isDigit

/-- One or more characters of a class. -/
def isRun (p : Char → Bool) (text : List Char) : Bool :=
  !text.isEmpty && text.all p

/-- A text without the minus sign it may begin with. -/
def unsigned : List Char → List Char
  | '-' :: text => text
  | text => text

/-- Digits on both sides of a point. -/
def isFraction (text : List Char) : Bool :=
  match text.span Char.isDigit with
  | (whole, '.' :: part) => !whole.isEmpty && isRun Char.isDigit part
  | _ => false

/-- Digits, with or without a fraction, then an exponent. -/
def isScientific (text : List Char) : Bool :=
  match text.span (fun c => c != 'e' && c != 'E') with
  | (mantissa, _ :: exponent) =>
    (isRun Char.isDigit mantissa || isFraction mantissa) && isRun Char.isDigit (unsigned exponent)
  | _ => false

/-- Digits of a class after a zero and a letter that names their base. -/
def isRadix (letter : Char) (digit : Char → Bool) : List Char → Bool
  | '0' :: c :: digits => c == letter && isRun digit digits
  | _ => false

/-- The inside of a quotation and the mark that ends it. A backslash takes the character after it
into the quotation; line feeds never stand inside. -/
def closesQuote (mark : Char) : List Char → Bool
  | [] => false
  | [c] => c == mark
  | '\\' :: c :: text => c != '\n' && closesQuote mark text
  | c :: text => c != mark && c != '\\' && c != '\n' && closesQuote mark text

def isQuoted : List Char → Bool
  | '"' :: text => closesQuote '"' text
  | '\'' :: text => closesQuote '\'' text
  | _ => false

def isName : List Char → Bool
  | [] => false
  | c :: text => isNameStart c && text.all isNamePart

/-- A point or at least two colons. -/
def isDots (text : List Char) : Bool :=
  text == ['.'] || (2 ≤ text.length && text.all (· == ':'))

namespace Kind

/-- Whether a text belongs to a kind. -/
def accepts : Kind → List Char → Bool
  | float, text => isFraction (unsigned text)
  | scientific, text => isScientific (unsigned text)
  | binary, text => isRadix 'b' isBinaryDigit (unsigned text)
  | octal, text => isRadix 'o' isOctalDigit (unsigned text)
  | decimal, text =>
    isRadix 'd' Char.isDigit (unsigned text) || isRun Char.isDigit (unsigned text)
  | hexadecimal, text => isRadix 'x' isHexDigit (unsigned text)
  | boolean, text => (["true", "false"].map String.toList).contains text
  | string, text => isQuoted text
  | operator, text => (operators.map (·.1.toList)).contains text
  | assignment, text => (assignments.map String.toList).contains text
  | arrow, text => text == ['=', '>']
  | keyword, text => (keywords.map String.toList).contains text
  | returnWord, text => text == "return".toList
  | name, text => isName text
  | whitespace, text => isRun isSpacing text
  | newline, text => isRun (· == '\n') text
  | comment, '#' :: text => !text.contains '\n'
  | comment, _ => false
  | openParen, text => text == ['(']
  | openBracket, text => text == ['[']
  | openCurly, text => text == ['{']
  | closeParen, text => text == [')']
  | closeBracket, text => text == [']']
  | closeCurly, text => text == ['}']
  | colon, text => text == [':']
  | dot, '!' :: text => isDots text
  | dot, text => isDots text
  | comma, text => text == [','] || text == [';']

end Kind

/-- Every kind a text belongs to, in grammar order. -/
def kindsOf (text : List Char) : List Kind :=
  Kind.all.filter (·.accepts text)

def firstKind? (text : List Char) : Option Kind :=
  Kind.all.find? (·.accepts text)

/-- The kind given to a text: a keyword or return before anything else, then grammar order. -/
def preferredKind? (text : List Char) : Option Kind :=
  let kinds := kindsOf text
  (kinds.find? fun kind => kind == .keyword || kind == .returnWord).or kinds.head?

theorem firstKind?_eq_head? (text : List Char) : firstKind? text = (kindsOf text).head? := by
  simp [firstKind?, kindsOf]

end Offside
