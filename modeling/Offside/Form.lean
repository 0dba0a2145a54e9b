import Offside.Token

namespace Offside

/-- The eight blocks a keyword can introduce. -/
inductive BlockForm where
  | imports
  | closure
  | conditional
  | otherwise
  | sequence
  | each
  | repetition
  | function
deriving DecidableEq, Repr, Inhabited

namespace BlockForm

def all : List BlockForm :=
  [imports, closure, conditional, otherwise, sequence, each, repetition, function]

def keyword : BlockForm → String
  | imports => "import"
  | closure => "closure"
  | conditional => "if"
  | otherwise => "else"
  | sequence => "do"
  | each => "each"
  | repetition => "repeat"
  | function => "fn"

def label : BlockForm → String
  | imports => "Import"
  | closure => "Closure"
  | conditional => "If"
  | otherwise => "Else"
  | sequence => "Do"
  | each => "Each"
  | repetition => "Repeat"
  | function => "Function"

/-- The block a token introduces. -/
def introducedBy? (token : Token) : Option BlockForm :=
  if token.kind = .keyword then all.find? (·.keyword == token.text) else none

end BlockForm

/-- The eight composite expressions, in the order in which a span is tried for them. -/
inductive ConstructForm where
  | returning
  | call
  | access
  | chain
  | lambda
  | dictionary
  | operation
  | assignment
deriving DecidableEq, Repr, Inhabited

namespace ConstructForm

def inOrder : List ConstructForm :=
  [returning, call, access, chain, lambda, dictionary, operation, assignment]

def label : ConstructForm → String
  | returning => "Return"
  | call => "Call"
  | access => "Access"
  | chain => "Chain"
  | lambda => "Lambda"
  | dictionary => "Dictionary"
  | operation => "Operation"
  | assignment => "Assignment"

end ConstructForm

end Offside
