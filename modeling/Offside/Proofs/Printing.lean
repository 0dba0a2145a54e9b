import Offside.Proofs.Parentheses
import Offside.Proofs.PrecedenceClimbing

namespace Offside

/-! Values without blocks are printed with each value inside them in parentheses. The tokens that
are added all stand at one place. -/

def parenthesized (place : Span) (tokens : List Token) : List Token :=
  ⟨.openParen, "(", place⟩ :: (tokens ++ [⟨.closeParen, ")", place⟩])

def commaSeparated (place : Span) (parts : List (List Token)) : List Token :=
  List.intercalate [⟨.comma, ",", place⟩] parts

/-- An argument with its label, which is left out where it is the position of the argument. -/
def printArgument (place : Span) (name : String) (i : Nat) (value : List Token) : List Token :=
  if name = toString i then parenthesized place value
  else ⟨.name, name, place⟩ :: ⟨.colon, ":", place⟩ :: parenthesized place value

def printEntry (place : Span) (key value : List Token) : List Token :=
  parenthesized place key ++ ⟨.colon, ":", place⟩ :: parenthesized place value

mutual

def Value.print (place : Span) : Value → List Token
  | .literal t => [t]
  | .block _ => []
  | .construct c => c.print place

def Construct.print (place : Span) : Construct → List Token
  | .returning value => ⟨.returnWord, "return", place⟩ :: parenthesized place (value.print place)
  | .call callee arguments =>
    parenthesized place (callee.print place) ++
      parenthesized place (commaSeparated place (printArguments place 0 arguments))
  | .access subject key =>
    parenthesized place (subject.print place) ++
      ⟨.openBracket, "[", place⟩ ::
        (parenthesized place (key.print place) ++ [⟨.closeBracket, "]", place⟩])
  | .chain subject accessors =>
    parenthesized place (subject.print place) ++
      accessors.flatMap fun t => [⟨.dot, ".", place⟩, t]
  | .lambda parameters body =>
    parenthesized place
        (commaSeparated place (parameters.map fun name => [⟨.name, name, place⟩])) ++
      ⟨.arrow, "=>", place⟩ :: parenthesized place (body.print place)
  | .dictionary entries =>
    ⟨.openCurly, "\x7b", place⟩ ::
      (commaSeparated place (printEntries place entries) ++ [⟨.closeCurly, "\x7d", place⟩])
  | .operation items => (printItems place items []).flatten
  | .assignment left operator right =>
    parenthesized place (left.print place) ++ operator :: parenthesized place (right.print place)

def printArguments (place : Span) (i : Nat) : List (String × Value) → List (List Token)
  | [] => []
  | (name, v) :: arguments =>
    printArgument place name i (v.print place) :: printArguments place (i + 1) arguments

def printEntries (place : Span) : List (Value × Value) → List (List Token)
  | [] => []
  | (key, v) :: entries =>
    printEntry place (key.print place) (v.print place) :: printEntries place entries

/-- The infix form of postfix code. The stack holds what is printed of it, top first. -/
def printItems (place : Span) : List Item → List (List Token) → List (List Token)
  | [], stack => stack
  | .operand v :: items, stack =>
    printItems place items (parenthesized place (v.print place) :: stack)
  | .unary t :: items, e :: stack => printItems place items ((t :: e) :: stack)
  | .operator t :: items, right :: left :: stack =>
    printItems place items ((left ++ t :: right) :: stack)
  | _ :: _, stack => stack

end

/-- Whether a value is one without blocks that some tokens can be read as. -/
inductive Value.IsWellFormed : Value → Prop where
  | literal {t : Token} (isValue : t.kind.isValue = true) : IsWellFormed (.literal t)
  | returning {value : Value} (wf : value.IsWellFormed) :
    IsWellFormed (.construct (.returning value))
  | call {callee : Value} {arguments : List (String × Value)} (wf : callee.IsWellFormed)
    (wfs : ∀ a ∈ arguments, a.2.IsWellFormed) (distinct : (arguments.map Prod.fst).Nodup) :
    IsWellFormed (.construct (.call callee arguments))
  | access {subject key : Value} (wf : subject.IsWellFormed) (wfKey : key.IsWellFormed) :
    IsWellFormed (.construct (.access subject key))
  | chain {subject : Value} {accessors : List Token} (wf : subject.IsWellFormed)
    (nonempty : accessors ≠ []) (areValues : ∀ t ∈ accessors, t.kind.isValue = true) :
    IsWellFormed (.construct (.chain subject accessors))
  | lambda {parameters : List String} {body : Value} (wf : body.IsWellFormed) :
    IsWellFormed (.construct (.lambda parameters body))
  | dictionary {entries : List (Value × Value)} (wfKeys : ∀ e ∈ entries, e.1.IsWellFormed)
    (wfs : ∀ e ∈ entries, e.2.IsWellFormed)
    (distinct : entries.Pairwise fun e e' => e.1.same e'.1 = false) :
    IsWellFormed (.construct (.dictionary entries))
  | operation {elements : List Element} {tree : Expression} (phrase : IsPhrase true elements)
    (isTree : precedenceTree? elements = some tree) (hasOperator : ∃ t, .operator t ∈ elements)
    (operators : ∀ t, .operator t ∈ elements → t.kind = .operator ∧ (rankOf? t.text).isSome)
    (wfs : ∀ v, .operand v ∈ elements → v.IsWellFormed) :
    IsWellFormed (.construct (.operation tree.postorder))
  | assignment {left right : Value} {operator : Token} (wf : left.IsWellFormed)
    (isAssignment : operator.kind = .assignment) (wfRight : right.IsWellFormed) :
    IsWellFormed (.construct (.assignment left operator right))

def Element.print (place : Span) : Element → List Token
  | operator t => [t]
  | operand v => parenthesized place (v.print place)

theorem printItems_postorder_append (place : Span) (e : Expression) (items : List Item)
    (stack : List (List Token)) :
    printItems place (e.postorder ++ items) stack =
      printItems place items (e.inorder.flatMap (Element.print place) :: stack) := by
  induction e generalizing items stack with
  | operand v =>
    rw [Expression.postorder, List.singleton_append, printItems, Expression.inorder,
      List.flatMap_singleton, Element.print]
  | unary t e ih =>
    rw [Expression.postorder, List.append_assoc, ih, List.singleton_append, printItems,
      Expression.inorder, List.flatMap_cons]
    rfl
  | binary l t r ihl ihr =>
    rw [Expression.postorder, List.append_assoc, List.append_assoc, ihl, ihr,
      List.singleton_append, printItems, Expression.inorder, List.flatMap_append,
      List.flatMap_cons]
    rfl

/-- An operation is printed in the order of its infix form. -/
theorem print_operation (place : Span) (e : Expression) :
    (Construct.operation e.postorder).print place =
      e.inorder.flatMap (Element.print place) := by
  have h := printItems_postorder_append place e [] []
  rw [List.append_nil] at h
  rw [Construct.print, h, printItems, List.flatten_singleton]

/-- How some tokens are grouped by their parentheses, with anything after them. -/
structure Groups (tokens : List Token) (trees : List Tree) : Prop where
  isFlat : IsFlat (tokens.map .token)
  isMatched : IsMatched (tokens.map .token)
  regroup_append : ∀ rest, regroup (tokens.map .token ++ rest) = trees ++ regroup rest

/-- A group in parentheses. -/
def enclosed (place : Span) (items : List Tree) : List Tree :=
  [.token ⟨.openParen, "(", place⟩, .group items, .token ⟨.closeParen, ")", place⟩]

section

variable {place : Span} {tokens tokens' : List Token} {trees trees' : List Tree}

theorem groups_nil : Groups [] [] :=
  ⟨fun _ hm => (List.not_mem_nil hm).elim, isMatched_nil, fun _ => rfl⟩

theorem Groups.regroup_eq (h : Groups tokens trees) : regroup (tokens.map .token) = trees := by
  have hr := h.regroup_append []
  rwa [regroup, List.append_nil, List.append_nil] at hr

theorem Groups.append (h : Groups tokens trees) (h' : Groups tokens' trees') :
    Groups (tokens ++ tokens') (trees ++ trees') := by
  refine ⟨?_, ?_, ?_⟩
  · rw [List.map_append]
    exact List.forall_mem_append.mpr ⟨h.isFlat, h'.isFlat⟩
  · rw [List.map_append]
    exact h.isMatched.append h'.isMatched
  · intro rest
    rw [List.map_append, List.append_assoc, h.regroup_append, h'.regroup_append, List.append_assoc]

/-- Whether a token is none of those that regrouping or joining lines looks at. -/
def Kind.isInert : Kind → Bool
  | newline | keyword | openParen | closeParen => false
  | _ => true

theorem Groups.cons_of_none {t : Token} (h : Groups tokens trees) (hline : t.kind ≠ .newline)
    (hopen : t.kind ≠ .openParen) (hclose : t.kind ≠ .closeParen)
    (hnone : BlockForm.introducedBy? t = none) : Groups (t :: tokens) (.token t :: trees) := by
  refine ⟨?_, ?_, ?_⟩
  · exact List.forall_mem_cons.mpr ⟨⟨t, rfl, hline, hnone⟩, h.isFlat⟩
  · refine IsMatched.append (isMatched_single ?_ ?_) h.isMatched <;> simp [Tree.hasKind, hopen, hclose]
  · intro rest
    rw [List.map_cons, List.cons_append, regroup_cons_of_none hopen hnone, h.regroup_append,
      List.cons_append]

theorem Groups.cons {t : Token} (h : Groups tokens trees) (ht : t.kind.isInert = true) :
    Groups (t :: tokens) (.token t :: trees) := by
  have hk : t.kind ≠ .newline ∧ t.kind ≠ .keyword ∧ t.kind ≠ .openParen ∧
      t.kind ≠ .closeParen := by
    cases hk : t.kind <;> simp_all [Kind.isInert]
  exact h.cons_of_none hk.1 hk.2.2.1 hk.2.2.2 (introducedBy?_eq_none hk.2.1)

theorem Groups.inParens {opener closer : Token} (h : Groups tokens trees)
    (ho : opener.kind = .openParen) (hc : closer.kind = .closeParen) :
    Groups (opener :: (tokens ++ [closer])) [.token opener, .group trees, .token closer] := by
  have hmap : (opener :: (tokens ++ [closer])).map Tree.token =
      .token opener :: (tokens.map .token ++ [.token closer]) := by
    rw [List.map_cons, List.map_append]
    rfl
  have hnone : ∀ t : Token, t.kind ≠ .keyword → BlockForm.introducedBy? t = none :=
    fun t => introducedBy?_eq_none
  refine ⟨?_, ?_, ?_⟩
  · rw [hmap]
    refine List.forall_mem_cons.mpr ⟨⟨_, rfl, by simp [ho], hnone _ (by simp [ho])⟩, ?_⟩
    refine List.forall_mem_append.mpr ⟨h.isFlat, ?_⟩
    exact List.forall_mem_singleton.mpr ⟨_, rfl, by simp [hc], hnone _ (by simp [hc])⟩
  · rw [hmap]
    exact h.isMatched.enclosed ho hc
  · intro rest
    rw [hmap, List.cons_append, List.append_assoc, List.singleton_append,
      h.isMatched.regroup_enclosed ho hc, h.regroup_eq]
    rfl

theorem Groups.parenthesized (h : Groups tokens trees) (place : Span) :
    Groups (Offside.parenthesized place tokens) (enclosed place trees) :=
  h.inParens rfl rfl

theorem groups_commaSeparated {parts : List (List Token)} {groups : List (List Tree)}
    (h : List.Forall₂ Groups parts groups) : Groups (commaSeparated place parts)
      (List.intercalate [.token ⟨.comma, ",", place⟩] groups) := by
  induction h with
  | nil => exact groups_nil
  | @cons part group parts groups hpart hparts ih =>
    cases hparts with
    | nil =>
      simpa [commaSeparated, List.intercalate] using hpart
    | @cons next group' parts groups hnext hmore =>
      have hrest : Groups (⟨.comma, ",", place⟩ :: commaSeparated place (next :: parts)) _ :=
        ih.cons rfl
      simpa [commaSeparated, List.intercalate] using hpart.append hrest

end

end Offside
