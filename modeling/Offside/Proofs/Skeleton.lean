import Offside.Program
import Offside.Proofs.Separation

namespace Offside

/-- A token of a kind. -/
structure Mark (kind : Kind) where
  token : Token
  isKind : token.kind = kind

/-- Names with commas between them. -/
structure Series where
  first : Mark .name
  others : List (Mark .comma × Mark .name)

namespace Series

def tokens (series : Series) : List Token :=
  series.first.token :: series.others.flatMap fun other => [other.1.token, other.2.token]

def names (series : Series) : List Token :=
  series.first.token :: series.others.map (·.2.token)

end Series

/-- Names, or nothing, in brackets. -/
structure Enclosed (opening closing : Kind) where
  opener : Mark opening
  series : Option Series
  closer : Mark closing

namespace Enclosed

variable {opening closing : Kind}

def inner (enclosed : Enclosed opening closing) : List Token :=
  (enclosed.series.map Series.tokens).getD []

def tokens (enclosed : Enclosed opening closing) : List Token :=
  enclosed.opener.token :: (enclosed.inner ++ [enclosed.closer.token])

def names (enclosed : Enclosed opening closing) : List Token :=
  (enclosed.series.map Series.names).getD []

end Enclosed

/-- The names and dots that say what is imported. -/
structure Path where
  tokens : List Token
  nonempty : tokens ≠ []
  kinds : ∀ t ∈ tokens, t.kind = .name ∨ t.kind = .dot

/-- Kinds of the tokens that can stand between an iterator and what it runs over. -/
def Kind.isWord : Kind → Bool
  | whitespace | newline | comma => false
  | openParen | openBracket | openCurly | closeParen | closeBracket | closeCurly => false
  | _ => true

structure Word where
  token : Token
  isWord : token.kind.isWord = true

/-- Tokens that are read as a value when they stand alone. They make a line of their own, or end a
header that may begin with declarations. -/
structure Readable where
  tokens : List Token
  value : Value
  nonempty : tokens ≠ []
  plain : ∀ t ∈ tokens, t.kind ≠ .keyword ∧ t.kind ≠ .newline ∧ t.kind ≠ .whitespace
  balanced : IsBalanced (tokens.map .token)
  undivided : topIndex? [.comma] (tokens.map .token) = none
  unbracketed : ∀ t ∈ tokens.head?, t.kind ≠ .openBracket
  reads : readValue (tokens.map .token) = .ok value

/-- What a statement begins with: its indentation, its keyword and the names it declares. -/
structure Opening where
  margin : Span
  keyword : Span
  declared : Option (Enclosed .openBracket .closeBracket)

namespace Opening

def declarations (opening : Opening) : List Token :=
  (opening.declared.map Enclosed.names).getD []

def heading (opening : Opening) : Heading :=
  ⟨opening.declarations, opening.keyword.start⟩

def tokens (opening : Opening) (form : BlockForm) : List Token :=
  ⟨.keyword, form.keyword, opening.keyword⟩ :: (opening.declared.map Enclosed.tokens).getD []

end Opening

mutual

/-- A block to be laid out on lines. -/
inductive Statement where
  | imports (opening : Opening) (path : Path)
  | closure (opening : Opening) (name : Mark .name) (symbols : List Statement)
  | conditional (opening : Opening) (condition : Readable) (body : Clause)
  | otherwise (opening : Opening) (body : Clause)
  | sequence (opening : Opening) (step : Clause) (steps : List Clause)
  | each (opening : Opening) (iterator : Mark .name) (word : Word) (iteratee : Readable)
    (body : Clause)
  | repetition (opening : Opening) (count : Readable) (body : Clause)
  | function (opening : Opening) (name : Mark .name)
    (parameters : Enclosed .openParen .closeParen) (body : Clause)

/-- What stands below a header: an expression on a line, or a statement. -/
inductive Clause where
  | expression (margin : Span) (expression : Readable)
  | statement (statement : Statement)

end

mutual

/-- The block that a statement stands for. -/
def Statement.block : Statement → Block
  | .imports opening path => .imports opening.heading path.tokens
  | .closure opening name symbols =>
    .closure opening.heading name.token.text (blocksOf symbols)
  | .conditional opening condition body =>
    .conditional opening.heading condition.value body.value
  | .otherwise opening body => .otherwise opening.heading body.value
  | .sequence opening step steps =>
    .sequence opening.heading (step.value :: valuesOf steps)
  | .each opening iterator _ iteratee body =>
    .each opening.heading iterator.token.text iteratee.value body.value
  | .repetition opening count body => .repetition opening.heading count.value body.value
  | .function opening name parameters body =>
    .function opening.heading name.token.text (parameters.names.map (·.text)) body.value

/-- The value that a clause stands for. -/
def Clause.value : Clause → Value
  | .expression _ e => e.value
  | .statement s => .block s.block

def blocksOf : List Statement → List Block
  | [] => []
  | statement :: statements => statement.block :: blocksOf statements

def valuesOf : List Clause → List Value
  | [] => []
  | clause :: clauses => clause.value :: valuesOf clauses

end

namespace Statement

def opening : Statement → Opening
  | imports opening _ => opening
  | closure opening _ _ => opening
  | conditional opening _ _ => opening
  | otherwise opening _ => opening
  | sequence opening _ _ => opening
  | each opening _ _ _ _ => opening
  | repetition opening _ _ => opening
  | function opening _ _ _ => opening

def form : Statement → BlockForm
  | imports .. => .imports
  | closure .. => .closure
  | conditional .. => .conditional
  | otherwise .. => .otherwise
  | sequence .. => .sequence
  | each .. => .each
  | repetition .. => .repetition
  | function .. => .function

/-- What stands on the first line after the declarations. -/
def header : Statement → List Token
  | imports _ path => path.tokens
  | closure _ name _ => [name.token]
  | conditional _ condition _ => condition.tokens
  | otherwise _ _ => []
  | sequence _ _ _ => []
  | each _ iterator word iteratee _ => iterator.token :: word.token :: iteratee.tokens
  | repetition _ count _ => count.tokens
  | function _ name parameters _ => name.token :: parameters.tokens

def line (statement : Statement) : List Token :=
  statement.opening.tokens statement.form ++ statement.header

end Statement

namespace Clause

def margin : Clause → Span
  | expression margin _ => margin
  | statement s => s.opening.margin

def line : Clause → List Token
  | expression _ e => e.tokens
  | statement s => s.line

end Clause

/-- A line at a level, indented by as many units. -/
def indented (unit : String) (level : Nat) (margin : Span) (line : List Token) : List Token :=
  if level = 0 then line else ⟨.whitespace, repeatText level unit, margin⟩ :: line

mutual

/-- The lines below the first line of a statement at a level. -/
def Statement.run (unit : String) (level : Nat) : Statement → List (List Token)
  | .imports _ _ => []
  | .closure _ _ symbols => linesOf unit (level + 1) symbols
  | .conditional _ _ body => body.lines unit (level + 1)
  | .otherwise _ body => body.lines unit (level + 1)
  | .sequence _ step steps => step.lines unit (level + 1) ++ stepLines unit (level + 1) steps
  | .each _ _ _ _ body => body.lines unit (level + 1)
  | .repetition _ _ body => body.lines unit (level + 1)
  | .function _ _ _ body => body.lines unit (level + 1)

def Clause.lines (unit : String) (level : Nat) : Clause → List (List Token)
  | .expression margin e => [indented unit level margin e.tokens]
  | .statement s => indented unit level s.opening.margin s.line :: s.run unit level

/-- The lines of statements that stand side by side at a level. -/
def linesOf (unit : String) (level : Nat) : List Statement → List (List Token)
  | [] => []
  | statement :: statements =>
    indented unit level statement.opening.margin statement.line ::
      (statement.run unit level ++ linesOf unit level statements)

def stepLines (unit : String) (level : Nat) : List Clause → List (List Token)
  | [] => []
  | clause :: clauses => clause.lines unit level ++ stepLines unit level clauses

end

/-- The first line of a clause at a level, and the lines below it. -/
def Clause.row (unit : String) (level : Nat) (clause : Clause) :
    List Token × List (List Token) :=
  (indented unit level clause.margin clause.line,
    match clause with
    | .expression _ _ => []
    | .statement s => s.run unit level)

section

variable {unit : String} {level : Nat}

theorem Clause.lines_eq (clause : Clause) :
    clause.lines unit level = (clause.row unit level).1 :: (clause.row unit level).2 := by
  cases clause with
  | expression margin e => rw [Clause.lines]; rfl
  | statement s => rw [Clause.lines]; rfl

theorem stepLines_eq (clauses : List Clause) : stepLines unit level clauses =
    (clauses.map (Clause.row unit level)).flatMap fun row => row.1 :: row.2 := by
  induction clauses with
  | nil => rw [stepLines]; rfl
  | cons clause clauses ih =>
    rw [stepLines, ih, clause.lines_eq, List.map_cons, List.flatMap_cons]

theorem linesOf_eq (statements : List Statement) :
    linesOf unit level statements = stepLines unit level (statements.map .statement) := by
  induction statements with
  | nil => rw [linesOf, List.map_nil, stepLines]
  | cons statement statements ih =>
    rw [linesOf, List.map_cons, stepLines, ← ih, Clause.lines, List.cons_append]

/-! No line is empty or broken, and none has whitespace but its indentation. -/

/-- Whether a line stands at a level with some tokens that neither break nor indent a line. -/
structure IsLaid (unit : String) (level : Nat) (line tokens : List Token) : Prop where
  laid : ∃ margin, line = indented unit level margin tokens
  nonempty : tokens ≠ []
  plain : ∀ t ∈ tokens, t.kind ≠ .newline ∧ t.kind ≠ .whitespace

theorem Series.kind_of_mem {series : Series} {t : Token} (h : t ∈ series.tokens) :
    t.kind = .name ∨ t.kind = .comma := by
  rcases List.mem_cons.mp h with rfl | h
  · exact .inl series.first.isKind
  · obtain ⟨other, -, ht⟩ := List.mem_flatMap.mp h
    simp only [List.mem_cons, List.not_mem_nil, or_false] at ht
    rcases ht with rfl | rfl
    · exact .inr other.1.isKind
    · exact .inl other.2.isKind

theorem Enclosed.kind_of_mem_inner {opening closing : Kind} {enclosed : Enclosed opening closing}
    {t : Token} (h : t ∈ enclosed.inner) : t.kind = .name ∨ t.kind = .comma := by
  rw [inner] at h
  cases hs : enclosed.series with
  | none =>
    rw [hs] at h
    cases h
  | some series =>
    rw [hs] at h
    exact Series.kind_of_mem h

theorem Enclosed.kind_of_mem {opening closing : Kind} {enclosed : Enclosed opening closing}
    {t : Token} (h : t ∈ enclosed.tokens) :
    t.kind = opening ∨ t.kind = .name ∨ t.kind = .comma ∨ t.kind = closing := by
  rcases List.mem_cons.mp h with rfl | h
  · exact .inl enclosed.opener.isKind
  · rcases List.mem_append.mp h with h | h
    · rcases kind_of_mem_inner h with hk | hk
      · exact .inr (.inl hk)
      · exact .inr (.inr (.inl hk))
    · obtain rfl := List.mem_singleton.mp h
      exact .inr (.inr (.inr enclosed.closer.isKind))

theorem Opening.kind_of_mem {opening : Opening} {form : BlockForm} {t : Token}
    (h : t ∈ opening.tokens form) : t.kind ≠ .newline ∧ t.kind ≠ .whitespace := by
  rcases List.mem_cons.mp h with rfl | h
  · exact ⟨Kind.noConfusion, Kind.noConfusion⟩
  · cases hd : opening.declared with
    | none =>
      rw [hd] at h
      cases h
    | some enclosed =>
      rw [hd] at h
      rcases Enclosed.kind_of_mem h with hk | hk | hk | hk <;> rw [hk] <;>
        exact ⟨Kind.noConfusion, Kind.noConfusion⟩

theorem Statement.kind_of_mem_header {statement : Statement} {t : Token}
    (h : t ∈ statement.header) : t.kind ≠ .newline ∧ t.kind ≠ .whitespace := by
  have hname : ∀ {kind : Kind} {mark : Mark kind}, kind ≠ .newline → kind ≠ .whitespace →
      mark.token.kind ≠ .newline ∧ mark.token.kind ≠ .whitespace := by
    intro kind mark h h'
    rw [mark.isKind]
    exact ⟨h, h'⟩
  cases statement with
  | imports opening path =>
    rcases path.kinds t h with hk | hk <;> rw [hk] <;> exact ⟨Kind.noConfusion, Kind.noConfusion⟩
  | closure opening name symbols =>
    obtain rfl := List.mem_singleton.mp h
    exact hname Kind.noConfusion Kind.noConfusion
  | conditional opening condition body => exact (condition.plain t h).2
  | otherwise opening body => cases h
  | sequence opening step steps => cases h
  | each opening iterator word iteratee body =>
    rcases List.mem_cons.mp h with rfl | h
    · exact hname Kind.noConfusion Kind.noConfusion
    · rcases List.mem_cons.mp h with rfl | h
      · have hw := word.isWord
        refine ⟨fun hk => ?_, fun hk => ?_⟩
        · rw [hk] at hw
          cases hw
        · rw [hk] at hw
          cases hw
      · exact (iteratee.plain t h).2
  | repetition opening count body => exact (count.plain t h).2
  | function opening name parameters body =>
    rcases List.mem_cons.mp h with rfl | h
    · exact hname Kind.noConfusion Kind.noConfusion
    · rcases Enclosed.kind_of_mem h with hk | hk | hk | hk <;> rw [hk] <;>
        exact ⟨Kind.noConfusion, Kind.noConfusion⟩

theorem Clause.isLaid (clause : Clause) :
    IsLaid unit level (clause.row unit level).1 clause.line := by
  refine ⟨⟨clause.margin, rfl⟩, ?_, ?_⟩
  · cases clause with
    | expression margin e => exact e.nonempty
    | statement s => exact List.cons_ne_nil _ _
  · intro t ht
    cases clause with
    | expression margin e => exact (e.plain t ht).2
    | statement s =>
      rcases List.mem_append.mp ht with ht | ht
      · exact Opening.kind_of_mem ht
      · exact Statement.kind_of_mem_header ht

mutual

theorem Statement.run_deeper (statement : Statement) (level : Nat) :
    ∀ line ∈ statement.run unit level, ∃ m > level, ∃ tokens, IsLaid unit m line tokens := by
  match statement with
  | .imports opening path =>
    rw [Statement.run]
    exact fun line h => by cases h
  | .closure opening name symbols =>
    rw [Statement.run]
    exact linesOf_deep symbols (level + 1)
  | .conditional opening condition body =>
    rw [Statement.run]
    exact body.lines_deep (level + 1)
  | .otherwise opening body =>
    rw [Statement.run]
    exact body.lines_deep (level + 1)
  | .sequence opening step steps =>
    rw [Statement.run]
    intro line h
    exact (List.mem_append.mp h).elim (step.lines_deep (level + 1) line)
      (stepLines_deep steps (level + 1) line)
  | .each opening iterator word iteratee body =>
    rw [Statement.run]
    exact body.lines_deep (level + 1)
  | .repetition opening count body =>
    rw [Statement.run]
    exact body.lines_deep (level + 1)
  | .function opening name parameters body =>
    rw [Statement.run]
    exact body.lines_deep (level + 1)

theorem Clause.lines_deep (clause : Clause) (level : Nat) :
    ∀ line ∈ clause.lines unit level, ∃ m ≥ level, ∃ tokens, IsLaid unit m line tokens := by
  match clause with
  | .expression margin e =>
    rw [Clause.lines]
    intro line h
    obtain rfl := List.mem_singleton.mp h
    exact ⟨level, Nat.le_refl _, _, (Clause.expression margin e).isLaid⟩
  | .statement s =>
    rw [Clause.lines]
    intro line h
    rcases List.mem_cons.mp h with rfl | h
    · exact ⟨level, Nat.le_refl _, _, (Clause.statement s).isLaid⟩
    · obtain ⟨m, hm, hlaid⟩ := s.run_deeper level line h
      exact ⟨m, Nat.le_of_lt hm, hlaid⟩

theorem linesOf_deep (statements : List Statement) (level : Nat) :
    ∀ line ∈ linesOf unit level statements, ∃ m ≥ level, ∃ tokens, IsLaid unit m line tokens := by
  match statements with
  | [] =>
    rw [linesOf]
    exact fun line h => by cases h
  | statement :: statements =>
    rw [linesOf]
    intro line h
    rcases List.mem_cons.mp h with rfl | h
    · exact ⟨level, Nat.le_refl _, _, (Clause.statement statement).isLaid⟩
    · rcases List.mem_append.mp h with h | h
      · obtain ⟨m, hm, hlaid⟩ := statement.run_deeper level line h
        exact ⟨m, Nat.le_of_lt hm, hlaid⟩
      · exact linesOf_deep statements level line h

theorem stepLines_deep (clauses : List Clause) (level : Nat) :
    ∀ line ∈ stepLines unit level clauses, ∃ m ≥ level, ∃ tokens, IsLaid unit m line tokens := by
  match clauses with
  | [] =>
    rw [stepLines]
    exact fun line h => by cases h
  | clause :: clauses =>
    rw [stepLines]
    intro line h
    exact (List.mem_append.mp h).elim (clause.lines_deep level line)
      (stepLines_deep clauses level line)

end

end

end Offside
