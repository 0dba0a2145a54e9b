namespace Offside

/-- The part of JSON that a syntax tree is written in. -/
inductive Json where
  | text (s : String)
  | list (items : List Json)
  | record (fields : List (String × Json))
deriving Repr, Inhabited

namespace Json

def hexDigit (n : Nat) : Char :=
  if n < 10 then Char.ofNat (0x30 + n) else Char.ofNat (0x57 + n)

/-- A character inside a JSON string. Control characters are spelled out, all others stand for
themselves. -/
def escape (c : Char) : List Char :=
  match c with
  | '"' => ['\\', '"']
  | '\\' => ['\\', '\\']
  | '\n' => ['\\', 'n']
  | '\r' => ['\\', 'r']
  | '\t' => ['\\', 't']
  | '\x08' => ['\\', 'b']
  | '\x0c' => ['\\', 'f']
  | c =>
    if c.toNat < 0x20 then
      ['\\', 'u', '0', '0', hexDigit (c.toNat / 16), hexDigit (c.toNat % 16)]
    else [c]

def quote (s : String) : String :=
  String.ofList ('"' :: s.toList.flatMap escape ++ ['"'])

/-- A new line, indented by two blanks a level. -/
def breakLine (level : Nat) : String :=
  String.ofList ('\n' :: List.replicate (2 * level) ' ')

/-- Parts between brackets, each on a line of its own one level further in. -/
def enclose (level : Nat) (left right : String) : List String → String
  | [] => left ++ right
  | part :: parts =>
    let inner := breakLine (level + 1)
    left ++ inner ++ String.intercalate ("," ++ inner) (part :: parts) ++ breakLine level ++ right

mutual

def pretty (level : Nat) : Json → String
  | .text s => quote s
  | .list items => enclose level "[" "]" (prettyItems (level + 1) items)
  | .record fields => enclose level "\x7b" "\x7d" (prettyFields (level + 1) fields)

def prettyItems (level : Nat) : List Json → List String
  | [] => []
  | item :: items => pretty level item :: prettyItems level items

def prettyFields (level : Nat) : List (String × Json) → List String
  | [] => []
  | (label, value) :: fields =>
    (quote label ++ ": " ++ pretty level value) :: prettyFields level fields

end

end Json

end Offside
