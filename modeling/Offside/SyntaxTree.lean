import Offside.Diagnostic

namespace Offside

/-- What every block begins with: the names declared in brackets after its keyword, and the place
of that keyword. -/
structure Heading where
  declarations : List Token
  origin : Position
deriving DecidableEq, Repr, Inhabited

mutual

inductive Value where
  | literal (token : Token)
  | block (block : Block)
  | construct (construct : Construct)

inductive Block where
  | imports (heading : Heading) (symbols : List Token)
  | closure (heading : Heading) (name : String) (symbols : List Block)
  | conditional (heading : Heading) (condition value : Value)
  | otherwise (heading : Heading) (value : Value)
  | sequence (heading : Heading) (steps : List Value)
  | each (heading : Heading) (iterator : String) (iteratee value : Value)
  | repetition (heading : Heading) (count value : Value)
  | function (heading : Heading) (name : String) (parameters : List String) (value : Value)

inductive Construct where
  | returning (value : Value)
  | call (callee : Value) (arguments : List (String × Value))
  | access (subject key : Value)
  | chain (subject : Value) (accessors : List Token)
  | lambda (parameters : List String) (body : Value)
  | dictionary (entries : List (Value × Value))
  | operation (items : List Item)
  | assignment (left : Value) (operator : Token) (right : Value)

/-- An element of an operation in postfix order. A unary operator takes the one operand before
it, any other operator two. -/
inductive Item where
  | operator (token : Token)
  | unary (token : Token)
  | operand (value : Value)

end

instance : Inhabited Value := ⟨.literal default⟩

instance : Inhabited Block := ⟨.imports default []⟩

namespace Block

def heading : Block → Heading
  | imports h _ => h
  | closure h _ _ => h
  | conditional h _ _ => h
  | otherwise h _ => h
  | sequence h _ => h
  | each h _ _ _ => h
  | repetition h _ _ => h
  | function h _ _ _ => h

def form : Block → BlockForm
  | imports .. => .imports
  | closure .. => .closure
  | conditional .. => .conditional
  | otherwise .. => .otherwise
  | sequence .. => .sequence
  | each .. => .each
  | repetition .. => .repetition
  | function .. => .function

/-- The blocks a closure consists of. -/
def symbols : Block → List Block
  | closure _ _ symbols => symbols
  | _ => []

end Block

def Construct.form : Construct → ConstructForm
  | returning .. => .returning
  | call .. => .call
  | access .. => .access
  | chain .. => .chain
  | lambda .. => .lambda
  | dictionary .. => .dictionary
  | operation .. => .operation
  | assignment .. => .assignment

end Offside
