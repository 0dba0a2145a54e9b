import Offside.Extender
import Offside.Printable

namespace Offside

/-- What is spelled out in a quotation besides characters that cannot be shown. -/
structure Quoting where
  double : Bool
  single : Bool
  extender : Bool

namespace Quoting

/-- Inside double quotes. -/
def quoted : Quoting :=
  ⟨true, false, true⟩

/-- Between other marks. -/
def bare : Quoting :=
  ⟨true, true, false⟩

/-- Between other marks, at the beginning: what attaches to the character before has none. -/
def bareFirst : Quoting :=
  ⟨true, true, true⟩

def codePoint (c : Char) : List Char :=
  "\\u\x7b".toList ++ Nat.toDigits 16 c.toNat ++ ['}']

def spell (q : Quoting) (c : Char) : List Char :=
  match c with
  | '\x00' => ['\\', '0']
  | '\t' => ['\\', 't']
  | '\r' => ['\\', 'r']
  | '\n' => ['\\', 'n']
  | '\\' => ['\\', '\\']
  | '"' => if q.double then ['\\', '"'] else ['"']
  | '\'' => if q.single then ['\\', '\''] else ['\'']
  | c => if (q.extender && isExtender c) || !isPrintable c then codePoint c else [c]

end Quoting

/-- A text in double quotes. -/
def quotation (text : String) : String :=
  String.ofList ('"' :: text.toList.flatMap Quoting.quoted.spell ++ ['"'])

/-- A text to be put between marks of another sort. -/
def spelling (text : String) : String :=
  match text.toList with
  | [] => ""
  | c :: rest => String.ofList (Quoting.bareFirst.spell c ++ rest.flatMap Quoting.bare.spell)

end Offside
