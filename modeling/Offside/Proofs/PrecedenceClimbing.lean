import Offside.Proofs.LeafOrder
import Offside.Reading

namespace Offside

/-- An element of an operator expression, before it is known which operators are unary. -/
inductive Element where
  | operator (token : Token)
  | operand (value : Value)

inductive Expression where
  | operand (value : Value)
  | unary (token : Token) (operand : Expression)
  | binary (left : Expression) (token : Token) (right : Expression)

namespace Expression

def postorder : Expression → List Item
  | operand v => [.operand v]
  | unary t e => e.postorder ++ [.unary t]
  | binary l t r => l.postorder ++ r.postorder ++ [.operator t]

def inorder : Expression → List Element
  | operand v => [.operand v]
  | unary t e => .operator t :: e.inorder
  | binary l t r => l.inorder ++ .operator t :: r.inorder

end Expression

/-- Runs postfix code on a stack, top first. It fails where an operator finds too few operands. -/
def evaluate : List Item → List Expression → Option (List Expression)
  | [], stack => some stack
  | .operand v :: items, stack => evaluate items (.operand v :: stack)
  | .unary t :: items, e :: stack => evaluate items (.unary t e :: stack)
  | .operator t :: items, r :: l :: stack => evaluate items (.binary l t r :: stack)
  | _, _ => none

def Token.rank (t : Token) : Rank :=
  (rankOf? t.text).getD default

/-- Whether an operator ends the operand of the pending operator around it, if there is one. -/
def Rank.Closes (next : Rank) (pending : Option Rank) : Prop :=
  ∃ p ∈ pending, next.precedence < p.precedence ∨
    (p.precedence = next.precedence ∧ next.leftAssociative = true)

instance (next : Rank) (pending : Option Rank) : Decidable (next.Closes pending) :=
  inferInstanceAs (Decidable (∃ p ∈ pending, _))

/-- An expression that was read, and the elements that are left after it. -/
structure Climbed (bound : Nat) where
  tree : Expression
  rest : List Element
  shorter : rest.length < bound

def Climbed.within {m n : Nat} (c : Climbed m) (h : m ≤ n) : Climbed n :=
  ⟨c.tree, c.rest, Nat.lt_of_lt_of_le c.shorter h⟩

mutual

/-- Reads one operand of the operator that is pending. An operator here is unary, and reads an
operand of its own. -/
def climb (pending : Option Rank) : (xs : List Element) → Option (Climbed xs.length)
  | [] => none
  | .operand v :: xs => extend pending (.operand v) xs
  | .operator t :: xs =>
    match climb (some t.rank) xs with
    | none => none
    | some inner =>
      have h := inner.shorter
      (extend pending (.unary t inner.tree) inner.rest).map (·.within (Nat.le_succ_of_le h))
termination_by xs => xs.length
decreasing_by
  all_goals
    simp only [List.length_cons] at *
    omega

/-- Extends an expression to the right until an operator comes that closes the pending one. -/
def extend (pending : Option Rank) (left : Expression) :
    (xs : List Element) → Option (Climbed (xs.length + 1))
  | [] => some ⟨left, [], Nat.lt_succ_self _⟩
  | .operand _ :: _ => none
  | .operator t :: xs =>
    if t.rank.Closes pending then some ⟨left, .operator t :: xs, Nat.lt_succ_self _⟩
    else
      match climb (some t.rank) xs with
      | none => none
      | some inner =>
        have h := inner.shorter
        (extend pending (.binary left t inner.tree) inner.rest).map
          (·.within (Nat.le_succ_of_le (Nat.le_succ_of_le h)))
termination_by xs => xs.length
decreasing_by
  all_goals
    simp only [List.length_cons] at *
    omega

end

/-- The tree of a whole operator expression, by precedence climbing. -/
def precedenceTree? (xs : List Element) : Option Expression :=
  match climb none xs with
  | some ⟨tree, [], _⟩ => some tree
  | _ => none

/-- Whether operators and operands take turns, up to unary operators, and an operand comes last.
`missing` says that an operand is due. -/
def IsPhrase : Bool → List Element → Prop
  | missing, [] => missing = false
  | missing, .operand _ :: xs => missing = true ∧ IsPhrase false xs
  | _, .operator _ :: xs => IsPhrase true xs

/-- Whether nothing is left that the pending operator could still take. -/
def Stops (pending : Option Rank) : List Element → Prop
  | [] => True
  | .operand _ :: _ => False
  | .operator t :: _ => t.rank.Closes pending

/-- Elements as parts, where an operator is unary if an operand is due before it. -/
def tag : Bool → List Element → List Part
  | _, [] => []
  | _, .operand v :: xs => .operand v :: tag false xs
  | true, .operator t :: xs => .unary t t.rank :: tag true xs
  | false, .operator t :: xs => .binary t t.rank :: tag true xs

theorem evaluate_postorder_append (e : Expression) (items : List Item)
    (stack : List Expression) :
    evaluate (e.postorder ++ items) stack = evaluate items (e :: stack) := by
  induction e generalizing items stack with
  | operand v => rfl
  | unary t e ih =>
    rw [Expression.postorder, List.append_assoc, ih]
    rfl
  | binary l t r ihl ihr =>
    rw [Expression.postorder, List.append_assoc, List.append_assoc, ihl, ihr]
    rfl

theorem evaluate_postorder (e : Expression) : evaluate e.postorder [] = some [e] := by
  have h := evaluate_postorder_append e [] []
  rw [List.append_nil] at h
  exact h

theorem closedBy_iff {waiting next : Rank} :
    waiting.closedBy next = true ↔ next.Closes (some waiting) := by
  simp [Rank.closedBy, Rank.Closes]

theorem shunt_of_stops (top : Pending) (stack : List Pending) {xs : List Element}
    (h : Stops (some top.rank) xs) :
    shunt (top :: stack) (tag false xs) = top.item :: shunt stack (tag false xs) := by
  cases xs with
  | nil => rfl
  | cons x xs =>
    cases x with
    | operand v => exact h.elim
    | operator t =>
      have hc := closedBy_iff.mpr h
      simp only [tag, shunt, List.takeWhile_cons, List.dropWhile_cons, hc, if_true,
        List.map_cons, List.cons_append]

theorem shunt_of_not_closed {t : Token} {stack : List Pending} {parts : List Part}
    (h : ¬t.rank.Closes (stack.head?.map (·.rank))) :
    shunt stack (.binary t t.rank :: parts) = shunt (⟨.operator t, t.rank⟩ :: stack) parts := by
  cases stack with
  | nil => rfl
  | cons top stack =>
    have hc : ¬top.rank.closedBy t.rank = true := mt closedBy_iff.mp h
    simp only [shunt, List.takeWhile_cons, List.dropWhile_cons, hc, if_false, List.map_nil,
      List.nil_append, Bool.false_eq_true]

/-- What is true of a tree that was read from `xs`, and of the elements left after it. What was
read before `xs` into the same tree is `front`, and stands in the output as `items`. -/
structure Reads (pending : Option Rank) (front : List Element) (items : List Item)
    (missing : Bool) (xs : List Element) (tree : Expression) (rest : List Element) : Prop where
  inorder : tree.inorder ++ rest = front ++ xs
  isPhrase : IsPhrase false rest
  stops : Stops pending rest
  output : ∀ stack : List Pending, stack.head?.map (·.rank) = pending →
    items ++ shunt stack (tag missing xs) = tree.postorder ++ shunt stack (tag false rest)

theorem Reads.operand {pending : Option Rank} {v : Value} {xs rest : List Element}
    {tree : Expression} (h : Reads pending [.operand v] [.operand v] false xs tree rest) :
    Reads pending [] [] true (.operand v :: xs) tree rest :=
  ⟨h.inorder, h.isPhrase, h.stops, h.output⟩

/-- The pending operators are not in the order of their precedence. What carries the argument is
that the innermost one is the one which the recursive reader waits on. -/
theorem Reads.unary {pending : Option Rank} {t : Token} {xs between rest : List Element}
    {inner tree : Expression} (hi : Reads (some t.rank) [] [] true xs inner between)
    (h : Reads pending (Expression.unary t inner).inorder (Expression.unary t inner).postorder
      false between tree rest) :
    Reads pending [] [] true (.operator t :: xs) tree rest := by
  refine ⟨?_, h.isPhrase, h.stops, ?_⟩
  · have hin := hi.inorder
    rw [h.inorder, Expression.inorder, List.cons_append, hin]
    rfl
  · intro stack hs
    have hin := hi.output (⟨.unary t, t.rank⟩ :: stack) rfl
    have hpop := shunt_of_stops ⟨.unary t, t.rank⟩ stack hi.stops
    have hout := h.output stack hs
    rw [hpop] at hin
    rw [Expression.postorder, List.append_assoc] at hout
    calc shunt stack (tag true (.operator t :: xs))
        = shunt (⟨.unary t, t.rank⟩ :: stack) (tag true xs) := by rw [tag, shunt]
      _ = inner.postorder ++ .unary t :: shunt stack (tag false between) := hin
      _ = tree.postorder ++ shunt stack (tag false rest) := hout

theorem Reads.binary {pending : Option Rank} {t : Token} {left inner tree : Expression}
    {xs between rest : List Element} (hp : ¬t.rank.Closes pending)
    (hi : Reads (some t.rank) [] [] true xs inner between)
    (h : Reads pending (Expression.binary left t inner).inorder
      (Expression.binary left t inner).postorder false between tree rest) :
    Reads pending left.inorder left.postorder false (.operator t :: xs) tree rest := by
  refine ⟨?_, h.isPhrase, h.stops, ?_⟩
  · have hin := hi.inorder
    rw [h.inorder, Expression.inorder, List.append_assoc, List.cons_append, hin]
    rfl
  · intro stack hs
    have hin := hi.output (⟨.operator t, t.rank⟩ :: stack) rfl
    have hpop := shunt_of_stops ⟨.operator t, t.rank⟩ stack hi.stops
    have hout := h.output stack hs
    rw [hpop, List.nil_append] at hin
    rw [Expression.postorder, List.append_assoc, List.append_assoc] at hout
    rw [← hs] at hp
    calc left.postorder ++ shunt stack (tag false (.operator t :: xs))
        = left.postorder ++ shunt (⟨.operator t, t.rank⟩ :: stack) (tag true xs) := by
          rw [tag, shunt_of_not_closed hp]
      _ = left.postorder ++
          (inner.postorder ++ .operator t :: shunt stack (tag false between)) := by rw [hin]
      _ = tree.postorder ++ shunt stack (tag false rest) := hout

/-- From a phrase both readers succeed, whatever operator is pending. -/
theorem climb_reads :
    (∀ (pending : Option Rank) (xs : List Element), IsPhrase true xs →
      ∃ c, climb pending xs = some c ∧ Reads pending [] [] true xs c.tree c.rest) ∧
    (∀ (pending : Option Rank) (left : Expression) (xs : List Element), IsPhrase false xs →
      ∃ c, extend pending left xs = some c ∧
        Reads pending left.inorder left.postorder false xs c.tree c.rest) := by
  apply climb.mutual_induct
  case case1 =>
    intro pending h
    cases h
  case case2 =>
    intro pending v xs ih h
    obtain ⟨c, hc, hr⟩ := ih h.2
    refine ⟨c, ?_, hr.operand⟩
    rw [climb]
    exact hc
  case case3 =>
    intro pending t xs hn ih h
    obtain ⟨c, hc, -⟩ := ih h
    rw [hn] at hc
    cases hc
  case case4 =>
    intro pending t xs inner hin _ ih ih' h
    obtain ⟨c, hc, hi⟩ := ih h
    obtain rfl : inner = c := Option.some.inj (hin.symm.trans hc)
    obtain ⟨d, hd, hr⟩ := ih' hi.isPhrase
    refine ⟨d.within (Nat.le_succ_of_le inner.shorter), ?_, hi.unary hr⟩
    simp only [climb, hin, hd, Option.map_some]
  case case5 =>
    intro pending left _
    refine ⟨⟨left, [], Nat.lt_succ_self _⟩, ?_, ⟨rfl, rfl, trivial, fun _ _ => rfl⟩⟩
    rw [extend]
  case case6 =>
    intro pending left v xs h
    cases h.1
  case case7 =>
    intro pending left t xs hp h
    refine ⟨⟨left, .operator t :: xs, Nat.lt_succ_self _⟩, ?_, ⟨rfl, h, hp, fun _ _ => rfl⟩⟩
    rw [extend, if_pos hp]
  case case8 =>
    intro pending left t xs hp hn ih h
    obtain ⟨c, hc, -⟩ := ih h
    rw [hn] at hc
    cases hc
  case case9 =>
    intro pending left t xs hp inner hin _ ih ih' h
    obtain ⟨c, hc, hi⟩ := ih h
    obtain rfl : inner = c := Option.some.inj (hin.symm.trans hc)
    obtain ⟨d, hd, hr⟩ := ih' hi.isPhrase
    refine ⟨d.within (Nat.le_succ_of_le (Nat.le_succ_of_le inner.shorter)), ?_,
      Reads.binary hp hi hr⟩
    simp only [extend, if_neg hp, hin, hd, Option.map_some]

/-- The stack algorithm gives the tree of precedence climbing in postorder. -/
theorem precedenceTree_of_isPhrase {xs : List Element} (h : IsPhrase true xs) :
    ∃ tree, precedenceTree? xs = some tree ∧ tree.inorder = xs ∧
      shunt [] (tag true xs) = tree.postorder := by
  obtain ⟨⟨tree, rest, hl⟩, hc, hr⟩ := climb_reads.1 none xs h
  have hrest : rest = [] := by
    have hs := hr.stops
    cases rest with
    | nil => rfl
    | cons x rest =>
      cases x with
      | operand v => cases hs
      | operator t =>
        obtain ⟨p, hp, -⟩ := hs
        cases hp
  subst hrest
  refine ⟨tree, ?_, ?_, ?_⟩
  · rw [precedenceTree?, hc]
  · have hin := hr.inorder
    rw [List.append_nil] at hin
    exact hin
  · have hsh := hr.output [] rfl
    simp only [List.nil_append, tag, shunt, List.map_nil, List.append_nil] at hsh
    exact hsh

/-- The operators of a span outside of all brackets. -/
def topOperators (span : List Tree) : List Token :=
  (depths .top span).filterMap (separator? [.operator])

/-- The operator that a span ends in, unless it stands in brackets. -/
def trailingOperator? (span : List Tree) : Option Token :=
  (depths .top span).getLast?.bind (separator? [.operator])

def operandIn (r : Readers) (part : List Tree) : List Element :=
  if part.isEmpty then [] else (r.value part).toOption.toList.map .operand

def clauseElements (r : Readers) (clauses : List (Token × List Tree)) : List Element :=
  clauses.flatMap fun clause => .operator clause.1 :: operandIn r clause.2

/-- The operators and operands of a span in the order in which they are written. -/
def elements (r : Readers) (span : List Tree) : List Element :=
  operandIn r (cut [.operator] span).1 ++ clauseElements r (cut [.operator] span).2

/-- Where an operand is due after some clauses, if it is. -/
def dueAfter (missing : Option Position) : List (Token × List Tree) → Option Position
  | [] => missing
  | (t, part) :: clauses => dueAfter (if part.isEmpty then some t.span.start else none) clauses

def Readers.Accepts (r : Readers) (part : List Tree) : Prop :=
  part ≠ [] → ∃ v, r.value part = .ok v

theorem operatorRank_of_isSome {t : Token} (h : (rankOf? t.text).isSome) :
    operatorRank t = .ok t.rank := by
  obtain ⟨rank, hr⟩ := Option.isSome_iff_exists.mp h
  rw [operatorRank, Token.rank, hr]
  rfl

theorem valueAt_of_ok {r : Readers} {part : List Tree} {v : Value} (h : r.value part = .ok v)
    (position : Position) : r.valueAt part position = .ok v := by
  rw [Readers.valueAt, h]
  rfl

theorem operandIn_of_ok {r : Readers} {part : List Tree} {v : Value} (hne : part ≠ [])
    (h : r.value part = .ok v) : operandIn r part = [.operand v] := by
  have he : part.isEmpty = false := List.isEmpty_eq_false_iff.mpr hne
  rw [operandIn, he, h]
  rfl

theorem clauseElements_cons (r : Readers) (t : Token) (part : List Tree)
    (clauses : List (Token × List Tree)) :
    clauseElements r ((t, part) :: clauses) =
      .operator t :: (operandIn r part ++ clauseElements r clauses) :=
  rfl

theorem readClauses_eq {r : Readers} {clauses : List (Token × List Tree)}
    (ranked : ∀ c ∈ clauses, (rankOf? c.1.text).isSome) (readable : ∀ c ∈ clauses, r.Accepts c.2)
    (missing : Option Position) :
    readClauses r missing clauses = match dueAfter missing clauses with
      | some position => refuse .noExpression position
      | none => .ok (tag missing.isSome (clauseElements r clauses)) := by
  induction clauses generalizing missing with
  | nil => cases missing <;> rfl
  | cons c clauses ih =>
    obtain ⟨t, part⟩ := c
    have ht := operatorRank_of_isSome (ranked (t, part) List.mem_cons_self)
    have hp := readable (t, part) List.mem_cons_self
    have ih' := ih (fun c hc => ranked c (List.mem_cons_of_mem _ hc))
      (fun c hc => readable c (List.mem_cons_of_mem _ hc))
    have htag : ∀ xs, tag missing.isSome (.operator t :: xs) =
        (if missing.isSome then Part.unary t t.rank else .binary t t.rank) :: tag true xs := by
      intro xs
      cases missing <;> rfl
    by_cases he : part = []
    · subst he
      have hi := ih' (some t.span.start)
      have hd : dueAfter missing ((t, []) :: clauses) =
          dueAfter (some t.span.start) clauses := rfl
      have hc : clauseElements r ((t, []) :: clauses) =
          .operator t :: clauseElements r clauses := rfl
      rw [hd, hc, htag, readClauses, ht]
      simp only [bind, Except.bind, List.isEmpty_nil, if_true, hi]
      cases dueAfter (some t.span.start) clauses <;> rfl
    · obtain ⟨v, hv⟩ := hp he
      have hi := ih' none
      have hempty : part.isEmpty = false := List.isEmpty_eq_false_iff.mpr he
      have hd : dueAfter missing ((t, part) :: clauses) = dueAfter none clauses := by
        rw [dueAfter, hempty]
        rfl
      have hc : clauseElements r ((t, part) :: clauses) =
          .operator t :: .operand v :: clauseElements r clauses := by
        rw [clauseElements_cons, operandIn_of_ok he hv]
        rfl
      rw [hd, hc, htag, readClauses, ht]
      simp only [bind, Except.bind, hempty, valueAt_of_ok hv, hi]
      cases dueAfter none clauses <;> rfl

theorem isPhrase_of_dueAfter {r : Readers} {clauses : List (Token × List Tree)}
    (readable : ∀ c ∈ clauses, r.Accepts c.2) {missing : Option Position}
    (h : dueAfter missing clauses = none) :
    IsPhrase missing.isSome (clauseElements r clauses) := by
  induction clauses generalizing missing with
  | nil =>
    have hm : missing = none := h
    rw [hm]
    rfl
  | cons c clauses ih =>
    obtain ⟨t, part⟩ := c
    have ih' := fun m => @ih (fun c hc => readable c (List.mem_cons_of_mem _ hc)) m
    rw [dueAfter] at h
    rw [clauseElements_cons]
    have hi := ih' _ h
    by_cases he : part = []
    · subst he
      exact hi
    · obtain ⟨v, hv⟩ := readable (t, part) List.mem_cons_self he
      have hempty : part.isEmpty = false := List.isEmpty_eq_false_iff.mpr he
      rw [hempty] at hi
      rw [operandIn_of_ok he hv]
      exact ⟨rfl, hi⟩

/-- Where an operand is missing at the end of a span. -/
def due? (span : List Tree) : Option Position :=
  match (depths .top span).getLast? with
  | some item => (separator? [.operator] item).map (·.span.start)
  | none => some .unknown

theorem dueAfter_sections (missing : Option Position) (items : List (Tree × Depth)) :
    dueAfter (if (sections (separator? [.operator]) items).1.isEmpty then missing else none)
      ((sections (separator? [.operator]) items).2.map fun (t, part) => (t, part.map Prod.fst)) =
    match items.getLast? with
    | some item => (separator? [.operator] item).map (·.span.start)
    | none => missing := by
  induction items generalizing missing with
  | nil => rfl
  | cons item items ih =>
    cases hs : separator? [.operator] item with
    | some s =>
      have hi := ih (some s.span.start)
      simp only [sections, hs, List.isEmpty_nil, if_true, List.map_cons, dueAfter,
        List.isEmpty_map, hi]
      cases hl : items.getLast? with
      | none => simp [List.getLast?_eq_none_iff.mp hl, hs]
      | some last => simp [List.getLast?_cons, hl]
    | none =>
      have hi := ih none
      simp only [ite_self] at hi
      simp only [sections, hs, List.isEmpty_cons, Bool.false_eq_true, if_false, hi]
      cases hl : items.getLast? with
      | none => simp [List.getLast?_eq_none_iff.mp hl, hs]
      | some last => simp [List.getLast?_cons, hl]

theorem mem_topOperators_of_clause {span : List Tree} {c : Token × List Tree}
    (h : c ∈ (cut [.operator] span).2) : c.1 ∈ topOperators span :=
  separator_of_mem_cut h

theorem mem_split_of_clause {kinds : List Kind} {span : List Tree} {c : Token × List Tree}
    (h : c ∈ (cut kinds span).2) : c.2 ∈ split kinds false span := by
  have hne : span ≠ [] := by
    rintro rfl
    cases h
  rw [split_of_ne_nil hne]
  exact List.mem_cons_of_mem _ (List.mem_map.mpr ⟨c, h, rfl⟩)

theorem mem_split_of_first {kinds : List Kind} {span : List Tree}
    (h : (cut kinds span).1 ≠ []) : (cut kinds span).1 ∈ split kinds false span := by
  have hne : span ≠ [] := by
    rintro rfl
    exact h rfl
  rw [split_of_ne_nil hne]
  exact List.mem_cons_self

section

variable {r : Readers} {span : List Tree}

theorem dueAfter_cut (span : List Tree) :
    dueAfter (if (cut [.operator] span).1.isEmpty then some (origin span) else none)
      (cut [.operator] span).2 = due? span := by
  have h := dueAfter_sections (some (origin span)) (depths .top span)
  have he : (cut [.operator] span).1.isEmpty =
      (sections (separator? [.operator]) (depths .top span)).1.isEmpty := List.isEmpty_map
  rw [he]
  refine h.trans ?_
  cases span with
  | nil => rfl
  | cons tree span => simp only [due?, depths, List.getLast?_cons]

theorem readParts_eq (ranked : ∀ t ∈ topOperators span, (rankOf? t.text).isSome)
    (readable : ∀ part ∈ split [.operator] false span, r.Accepts part) :
    readParts r span = match due? span with
      | some position => refuse .noExpression position
      | none => .ok (tag true (elements r span)) := by
  have hranked : ∀ c ∈ (cut [.operator] span).2, (rankOf? c.1.text).isSome :=
    fun c hc => ranked c.1 (mem_topOperators_of_clause hc)
  have hreadable : ∀ c ∈ (cut [.operator] span).2, r.Accepts c.2 :=
    fun c hc => readable c.2 (mem_split_of_clause hc)
  have hdue := dueAfter_cut span
  have hfirst : (cut [.operator] span).1 ≠ [] → r.Accepts (cut [.operator] span).1 :=
    fun h => readable _ (mem_split_of_first h)
  rw [readParts, elements]
  generalize cut [.operator] span = parts at *
  obtain ⟨first, clauses⟩ := parts
  cases first with
  | nil =>
    have h := readClauses_eq hranked hreadable (some (origin span))
    have hd : dueAfter (some (origin span)) clauses = due? span := hdue
    rw [hd] at h
    exact h
  | cons tree first =>
    have hne : tree :: first ≠ [] := List.cons_ne_nil tree first
    obtain ⟨v, hv⟩ := hfirst hne hne
    have h := readClauses_eq hranked hreadable none
    have hd : dueAfter none clauses = due? span := hdue
    rw [hd] at h
    simp only [bind, Except.bind, valueAt_of_ok hv, h, operandIn_of_ok hne hv]
    cases due? span <;> rfl

theorem isPhrase_elements (readable : ∀ part ∈ split [.operator] false span, r.Accepts part)
    (h : due? span = none) : IsPhrase true (elements r span) := by
  have hreadable : ∀ c ∈ (cut [.operator] span).2, r.Accepts c.2 :=
    fun c hc => readable c.2 (mem_split_of_clause hc)
  have hfirst : (cut [.operator] span).1 ≠ [] → r.Accepts (cut [.operator] span).1 :=
    fun h => readable _ (mem_split_of_first h)
  rw [← dueAfter_cut] at h
  have hp := isPhrase_of_dueAfter hreadable h
  rw [elements]
  generalize cut [.operator] span = parts at *
  obtain ⟨first, clauses⟩ := parts
  cases first with
  | nil => exact hp
  | cons tree first =>
    have hne : tree :: first ≠ [] := List.cons_ne_nil tree first
    obtain ⟨v, hv⟩ := hfirst hne hne
    rw [operandIn_of_ok hne hv]
    exact ⟨rfl, hp⟩

theorem due?_eq_none_iff : due? span = none ↔ span ≠ [] ∧ trailingOperator? span = none := by
  cases span with
  | nil => simp [due?, depths]
  | cons tree span =>
    rw [due?, trailingOperator?, depths, List.getLast?_cons]
    simp

theorem position_of_due? {position : Position} (h : due? span = some position) :
    position = (topOperators span).getLast?.elim .unknown (·.span.start) := by
  rw [due?] at h
  rw [topOperators]
  cases hl : (depths .top span).getLast? with
  | none =>
    rw [hl] at h
    rw [List.getLast?_eq_none_iff.mp hl]
    exact (Option.some.inj h).symm
  | some item =>
    rw [hl] at h
    obtain ⟨t, ht, rfl⟩ := Option.map_eq_some_iff.mp h
    obtain ⟨before, hb⟩ := List.getLast?_eq_some_iff.mp hl
    rw [hb, List.filterMap_append, List.filterMap_cons, ht]
    simp

end

/-- An operator expression is read as precedence climbing reads it: the items are the tree in
postorder, and an expression that ends before an operand is refused at its last operator. -/
theorem readPostfix_iff_precedence_climbing (r : Readers) (span : List Tree)
    (ranked : ∀ t ∈ topOperators span, (rankOf? t.text).isSome)
    (readable : ∀ part ∈ split [.operator] false span, r.Accepts part) :
    ((∃ items, readPostfix r span = .ok items) ↔
      span ≠ [] ∧ trailingOperator? span = none) ∧
    (∀ items, readPostfix r span = .ok items →
      ∃ tree, precedenceTree? (elements r span) = some tree ∧ items = tree.postorder ∧
        evaluate items [] = some [tree] ∧ tree.inorder = elements r span) ∧
    (∀ diagnostic, readPostfix r span = .error diagnostic →
      diagnostic =
        ⟨.noExpression, (topOperators span).getLast?.elim .unknown (·.span.start)⟩) := by
  have hread := readParts_eq ranked readable
  rw [← due?_eq_none_iff]
  cases hd : due? span with
  | some position =>
    have hr : readPostfix r span = refuse .noExpression position := by
      rw [readPostfix, hread, hd]
      rfl
    rw [hr, ← position_of_due? hd]
    refine ⟨⟨?_, ?_⟩, ?_, ?_⟩
    · intro h
      obtain ⟨items, h⟩ := h
      cases h
    · intro h
      cases h
    · intro items h
      cases h
    · intro diagnostic h
      exact (Except.error.inj h).symm
  | none =>
    obtain ⟨tree, htree, hin, hout⟩ := precedenceTree_of_isPhrase (isPhrase_elements readable hd)
    have hr : readPostfix r span = .ok tree.postorder := by
      rw [readPostfix, hread, hd, ← hout]
      rfl
    rw [hr]
    refine ⟨⟨fun _ => rfl, fun _ => ⟨_, rfl⟩⟩, ?_, ?_⟩
    · intro items h
      obtain rfl : tree.postorder = items := Except.ok.inj h
      exact ⟨tree, htree, rfl, evaluate_postorder tree, hin⟩
    · intro diagnostic h
      cases h

/-- The operators that wait in `a ** not b + c` are not in the order of their precedence. -/
theorem readPostfix_power_of_negated_sum :
    let word (kind : Kind) (text : String) : Tree := .token ⟨kind, text, default⟩
    let span := [word .name "a", word .operator "**", word .operator "not", word .name "b",
      word .operator "+", word .name "c"]
    ∃ tree, precedenceTree? (elements readers span) = some tree ∧
      readPostfix readers span = .ok tree.postorder := by
  intro word span
  have ranked : ∀ t ∈ topOperators span, (rankOf? t.text).isSome := by decide
  have readable : ∀ part ∈ split [.operator] false span, readers.Accepts part := by
    have hname : ∀ text, readers.Accepts [word .name text] := fun _ _ => ⟨_, rfl⟩
    have hs : split [.operator] false span =
        [[word .name "a"], [], [word .name "b"], [word .name "c"]] := by rfl
    intro part hp
    rw [hs] at hp
    simp only [List.mem_cons, List.not_mem_nil, or_false] at hp
    rcases hp with rfl | rfl | rfl | rfl
    · exact hname "a"
    · exact fun hne => (hne rfl).elim
    · exact hname "b"
    · exact hname "c"
  have h := readPostfix_iff_precedence_climbing readers span ranked readable
  obtain ⟨items, hi⟩ := h.1.mpr ⟨List.cons_ne_nil _ _, by rfl⟩
  obtain ⟨tree, ht, rfl, -⟩ := h.2.1 items hi
  exact ⟨tree, ht, hi⟩

end Offside
