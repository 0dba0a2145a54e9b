import Offside.Json
import Offside.SyntaxTree

namespace Offside

/-- A syntax tree reduced to labels, tokens and places. Comparing, listing and writing out work on
this form. -/
inductive Outline where
  | text (s : String)
  | token (t : Token)
  | place (p : Position)
  | list (items : List Outline)
  | record (fields : List (String × Outline))
deriving Repr, Inhabited

namespace Outline

def label (name : String) (content : Outline) : Outline :=
  record [(name, content)]

def tokens (ts : List Token) : Outline :=
  list (ts.map token)

def texts (ss : List String) : Outline :=
  list (ss.map text)

def pair (a b : Outline) : Outline :=
  list [a, b]

/-- The block of a form with a heading and the fields that belong to the form. -/
def block (form : BlockForm) (heading : Heading) (fields : List (String × Outline)) : Outline :=
  record [("origin", place heading.origin), ("declarations", tokens heading.declarations),
    ("kind", label form.label (record fields))]

def construct (form : ConstructForm) (fields : List (String × Outline)) : Outline :=
  label form.label (record fields)

end Outline

mutual

def Value.outline : Value → Outline
  | .literal t => .label "Literal" (.token t)
  | .block b => .label "Block" b.outline
  | .construct c => .label "Construct" c.outline

def Block.outline : Block → Outline
  | .imports h symbols => .block .imports h [("symbols", .tokens symbols)]
  | .closure h name symbols =>
    .block .closure h [("name", .text name), ("symbols", .list (blockOutlines symbols))]
  | .conditional h condition value =>
    .block .conditional h [("condition", condition.outline), ("value", value.outline)]
  | .otherwise h value => .block .otherwise h [("value", value.outline)]
  | .sequence h steps => .block .sequence h [("steps", .list (valueOutlines steps))]
  | .each h iterator iteratee value =>
    .block .each h
      [("iterator_name", .text iterator), ("iteratee", iteratee.outline), ("value", value.outline)]
  | .repetition h count value =>
    .block .repetition h [("repeat", count.outline), ("value", value.outline)]
  | .function h name parameters value =>
    .block .function h
      [("name", .text name), ("args", .texts parameters), ("value", value.outline)]

def Construct.outline : Construct → Outline
  | .returning value => .construct .returning [("value", value.outline)]
  | .call callee arguments =>
    .construct .call [("value", callee.outline), ("args", .list (argumentOutlines arguments))]
  | .access subject key =>
    .construct .access [("value", subject.outline), ("key", key.outline)]
  | .chain subject accessors =>
    .construct .chain [("value", subject.outline), ("accessor_list", .tokens accessors)]
  | .lambda parameters body =>
    .construct .lambda [("args", .texts parameters), ("value", body.outline)]
  | .dictionary entries => .construct .dictionary [("values", .list (entryOutlines entries))]
  | .operation items => .construct .operation [("expression", .list (itemOutlines items))]
  | .assignment left operator right =>
    .construct .assignment
      [("left", left.outline), ("operator", .token operator), ("right", right.outline)]

def Item.outline : Item → Outline
  | .operator t => .label "Operator" (.token t)
  | .unary t => .label "PrefixOperator" (.token t)
  | .operand value => .label "Operand" value.outline

def blockOutlines : List Block → List Outline
  | [] => []
  | b :: blocks => b.outline :: blockOutlines blocks

def valueOutlines : List Value → List Outline
  | [] => []
  | v :: values => v.outline :: valueOutlines values

def argumentOutlines : List (String × Value) → List Outline
  | [] => []
  | (name, v) :: arguments => .pair (.text name) v.outline :: argumentOutlines arguments

def entryOutlines : List (Value × Value) → List Outline
  | [] => []
  | (key, v) :: entries => .pair key.outline v.outline :: entryOutlines entries

def itemOutlines : List Item → List Outline
  | [] => []
  | item :: items => item.outline :: itemOutlines items

end

namespace Outline

mutual

/-- Whether two outlines agree, tokens by kind and text, and in every place that is recorded. -/
def same : Outline → Outline → Bool
  | text a, text b => a == b
  | token a, token b => a.same b
  | place a, place b => a == b
  | list as, list bs => sameItems as bs
  | record as, record bs => sameFields as bs
  | _, _ => false

def sameItems : List Outline → List Outline → Bool
  | [], [] => true
  | a :: as, b :: bs => same a b && sameItems as bs
  | _, _ => false

def sameFields : List (String × Outline) → List (String × Outline) → Bool
  | [], [] => true
  | (label, a) :: as, (label', b) :: bs => label == label' && same a b && sameFields as bs
  | _, _ => false

end

mutual

/-- Every place an outline records, in reading order: one for a block, two for a token. -/
def places : Outline → List (List Position)
  | text _ => []
  | token t => [[t.span.start, t.span.stop]]
  | place p => [[p]]
  | list items => itemPlaces items
  | record fields => fieldPlaces fields

def itemPlaces : List Outline → List (List Position)
  | [] => []
  | item :: items => places item ++ itemPlaces items

def fieldPlaces : List (String × Outline) → List (List Position)
  | [] => []
  | (_, content) :: fields => places content ++ fieldPlaces fields

end

mutual

/-- The JSON form. Places are left out. -/
def json : Outline → Json
  | text s => .text s
  | token t => .record [("kind", .text t.kind.label), ("value", .text t.text)]
  | place _ => .record []
  | list items => .list (itemsJson items)
  | record fields => .record (fieldsJson fields)

def itemsJson : List Outline → List Json
  | [] => []
  | item :: items => json item :: itemsJson items

def fieldsJson : List (String × Outline) → List (String × Json)
  | [] => []
  | (_, place _) :: fields => fieldsJson fields
  | (label, content) :: fields => (label, json content) :: fieldsJson fields

end

end Outline

/-- Values are the same when they agree in structure, tokens by kind and text, blocks also by
where they stand. -/
def Value.same (a b : Value) : Bool :=
  a.outline.same b.outline

end Offside
