import Offside.Diagnostic

namespace Offside

/-- A token, or a group of items that belong together. A span of a program is a list of these. -/
inductive Tree where
  | token (token : Token)
  | group (items : List Tree)
deriving Repr, Inhabited

namespace Tree

def items? : Tree → Option (List Tree)
  | token _ => none
  | group items => some items

def isGroup : Tree → Bool
  | token _ => false
  | group _ => true

def hasKind (kind : Kind) : Tree → Bool
  | token t => t.kind == kind
  | group _ => false

def hasKindIn (kinds : List Kind) : Tree → Bool
  | token t => t.hasKindIn kinds
  | group _ => false

def name? : Tree → Option Token
  | token t => if t.kind = .name then some t else none
  | group _ => none

/-- The block that a keyword here introduces. -/
def block? : Tree → Option BlockForm
  | token t => BlockForm.introducedBy? t
  | group _ => none

def opensBlock (tree : Tree) : Bool :=
  tree.block?.isSome

/-- A token itself, or the items of a group. -/
def parts : Tree → List Tree
  | token t => [token t]
  | group items => items

end Tree

mutual

/-- The tokens of a tree in order, whatever their depth. -/
def Tree.leaves : Tree → List Token
  | .token t => [t]
  | .group items => leaves items

def leaves : List Tree → List Token
  | [] => []
  | tree :: span => tree.leaves ++ leaves span

end

mutual

/-- The number of groups in a tree, each counted with the groups inside it. -/
def Tree.groupCount : Tree → Nat
  | .token _ => 0
  | .group items => groupCount items + 1

def groupCount : List Tree → Nat
  | [] => 0
  | tree :: span => tree.groupCount + groupCount span

end

def leafCount (span : List Tree) : Nat :=
  (leaves span).length

def firstLeaf? (span : List Tree) : Option Token :=
  (leaves span).head?

/-- Where the first token of a span begins. -/
def origin (span : List Tree) : Position :=
  match firstLeaf? span with
  | some t => t.span.start
  | none => .unknown

def Tree.start (tree : Tree) : Position :=
  origin [tree]

/-- Takes off one level of grouping. -/
def ungroup (span : List Tree) : List Tree :=
  span.flatMap Tree.parts

/-- The text of a name that stands alone. -/
def soleName? : List Tree → Option String
  | [tree] => tree.name?.map (·.text)
  | _ => none

/-- A span without the line breaks at its own level. -/
def joinLines (span : List Tree) : List Tree :=
  span.filter (!·.hasKind .newline)

mutual

/-- What a tree holds once all groups that wrap the whole of it are taken off. -/
def Tree.unwrap : Tree → List Tree
  | .token t => [.token t]
  | .group items => unwrap items

/-- A span without its line breaks and without groups around the whole of it. -/
def unwrap : List Tree → List Tree
  | [] => []
  | tree :: span =>
    if tree.hasKind .newline then unwrap span
    else
      match joinLines span with
      | [] => tree.unwrap
      | next :: rest => tree :: next :: rest

end

theorem leaves_append (xs ys : List Tree) : leaves (xs ++ ys) = leaves xs ++ leaves ys := by
  induction xs with
  | nil => rfl
  | cons tree xs ih => rw [List.cons_append, leaves, leaves, ih, List.append_assoc]

theorem leaves_map_token (tokens : List Token) : leaves (tokens.map .token) = tokens := by
  induction tokens with
  | nil => rfl
  | cons t tokens ih => rw [List.map_cons, leaves, ih]; rfl

theorem leaves_parts (tree : Tree) : leaves tree.parts = tree.leaves := by
  cases tree with
  | token t => rfl
  | group items => rfl

theorem leaves_ungroup (span : List Tree) : leaves (ungroup span) = leaves span := by
  induction span with
  | nil => rfl
  | cons tree span ih =>
    have h : ungroup (tree :: span) = tree.parts ++ ungroup span := rfl
    rw [h, leaves_append, leaves_parts, ih, leaves]

end Offside
