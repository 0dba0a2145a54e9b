import Offside.Program
import Offside.Proofs.ParallelReading

namespace Offside

/-- Whether a change of places keeps different places apart, and leaves the unknown one. -/
structure KeepsApart (σ : Position → Position) : Prop where
  injective : Function.Injective σ
  unknown : σ .unknown = .unknown

theorem KeepsApart.orElse {σ : Position → Position} (h : KeepsApart σ) (p q : Position) :
    σ (p.orElse q) = (σ p).orElse (σ q) := by
  cases hp : σ p with
  | unknown =>
    obtain rfl := h.injective (hp.trans h.unknown.symm)
    rfl
  | within source offset =>
    cases p with
    | unknown => cases hp.symm.trans h.unknown
    | within => exact hp

/-- The token at another place. How far it extends is forgotten: no reading looks at that. -/
def Token.moved (σ : Position → Position) (t : Token) : Token :=
  ⟨t.kind, t.text, ⟨σ t.span.start, σ t.span.start⟩⟩

instance (σ : Position → Position) : KeepsWords (Token.moved σ) :=
  ⟨fun _ => rfl, fun _ => rfl⟩

def Heading.moved (σ : Position → Position) (heading : Heading) : Heading :=
  ⟨heading.declarations.map (Token.moved σ), σ heading.origin⟩

mutual

def Value.moved (σ : Position → Position) : Value → Value
  | .literal t => .literal (t.moved σ)
  | .block b => .block (b.moved σ)
  | .construct c => .construct (c.moved σ)

def Block.moved (σ : Position → Position) : Block → Block
  | .imports h symbols => .imports (h.moved σ) (symbols.map (Token.moved σ))
  | .closure h name symbols => .closure (h.moved σ) name (movedBlocks σ symbols)
  | .conditional h condition value => .conditional (h.moved σ) (condition.moved σ) (value.moved σ)
  | .otherwise h value => .otherwise (h.moved σ) (value.moved σ)
  | .sequence h steps => .sequence (h.moved σ) (movedValues σ steps)
  | .each h iterator iteratee value =>
    .each (h.moved σ) iterator (iteratee.moved σ) (value.moved σ)
  | .repetition h count value => .repetition (h.moved σ) (count.moved σ) (value.moved σ)
  | .function h name parameters value => .function (h.moved σ) name parameters (value.moved σ)

def Construct.moved (σ : Position → Position) : Construct → Construct
  | .returning value => .returning (value.moved σ)
  | .call callee arguments => .call (callee.moved σ) (movedArguments σ arguments)
  | .access subject key => .access (subject.moved σ) (key.moved σ)
  | .chain subject accessors => .chain (subject.moved σ) (accessors.map (Token.moved σ))
  | .lambda parameters body => .lambda parameters (body.moved σ)
  | .dictionary entries => .dictionary (movedEntries σ entries)
  | .operation items => .operation (movedItems σ items)
  | .assignment left operator right =>
    .assignment (left.moved σ) (operator.moved σ) (right.moved σ)

def Item.moved (σ : Position → Position) : Item → Item
  | .operator t => .operator (t.moved σ)
  | .unary t => .unary (t.moved σ)
  | .operand value => .operand (value.moved σ)

def movedBlocks (σ : Position → Position) : List Block → List Block
  | [] => []
  | b :: blocks => b.moved σ :: movedBlocks σ blocks

def movedValues (σ : Position → Position) : List Value → List Value
  | [] => []
  | v :: values => v.moved σ :: movedValues σ values

def movedArguments (σ : Position → Position) : List (String × Value) → List (String × Value)
  | [] => []
  | (name, v) :: arguments => (name, v.moved σ) :: movedArguments σ arguments

def movedEntries (σ : Position → Position) : List (Value × Value) → List (Value × Value)
  | [] => []
  | (key, v) :: entries => (key.moved σ, v.moved σ) :: movedEntries σ entries

def movedItems (σ : Position → Position) : List Item → List Item
  | [] => []
  | item :: items => item.moved σ :: movedItems σ items

end

namespace Outline

mutual

def moved (σ : Position → Position) : Outline → Outline
  | text s => text s
  | token t => token (t.moved σ)
  | place p => place (σ p)
  | list items => list (movedList σ items)
  | record fields => record (movedFields σ fields)

def movedList (σ : Position → Position) : List Outline → List Outline
  | [] => []
  | item :: items => moved σ item :: movedList σ items

def movedFields (σ : Position → Position) : List (String × Outline) → List (String × Outline)
  | [] => []
  | (label, content) :: fields => (label, moved σ content) :: movedFields σ fields

end

end Outline

section

variable {σ τ : Position → Position}

theorem movedBlocks_eq_map (blocks : List Block) :
    movedBlocks σ blocks = blocks.map (Block.moved σ) := by
  induction blocks with
  | nil => rfl
  | cons b blocks ih => rw [movedBlocks, ih, List.map_cons]

theorem movedValues_eq_map (values : List Value) :
    movedValues σ values = values.map (Value.moved σ) := by
  induction values with
  | nil => rfl
  | cons v values ih => rw [movedValues, ih, List.map_cons]

theorem movedArguments_eq_map (arguments : List (String × Value)) :
    movedArguments σ arguments = arguments.map (Prod.map id (Value.moved σ)) := by
  induction arguments with
  | nil => rfl
  | cons argument arguments ih =>
    rw [movedArguments, ih, List.map_cons]
    rfl

theorem movedEntries_eq_map (entries : List (Value × Value)) :
    movedEntries σ entries = entries.map (Prod.map (Value.moved σ) (Value.moved σ)) := by
  induction entries with
  | nil => rfl
  | cons entry entries ih =>
    rw [movedEntries, ih, List.map_cons]
    rfl

theorem movedItems_eq_map (items : List Item) : movedItems σ items = items.map (Item.moved σ) := by
  induction items with
  | nil => rfl
  | cons item items ih => rw [movedItems, ih, List.map_cons]

theorem Heading.moved_moved (heading : Heading) :
    (heading.moved σ).moved τ = heading.moved (τ ∘ σ) := by
  rw [Heading.moved, Heading.moved, Heading.moved, List.map_map]
  rfl

mutual

theorem Value.moved_moved (v : Value) : (v.moved σ).moved τ = v.moved (τ ∘ σ) := by
  cases v with
  | literal t => rfl
  | block b => simp only [Value.moved, Block.moved_moved b]
  | construct c => simp only [Value.moved, Construct.moved_moved c]

theorem Block.moved_moved (b : Block) : (b.moved σ).moved τ = b.moved (τ ∘ σ) := by
  cases b with
  | imports h symbols =>
    simp only [Block.moved, Heading.moved_moved, List.map_map]
    rfl
  | closure h name symbols =>
    simp only [Block.moved, Heading.moved_moved, movedBlocks_movedBlocks symbols]
  | conditional h condition value =>
    simp only [Block.moved, Heading.moved_moved, Value.moved_moved condition,
      Value.moved_moved value]
  | otherwise h value => simp only [Block.moved, Heading.moved_moved, Value.moved_moved value]
  | sequence h steps =>
    simp only [Block.moved, Heading.moved_moved, movedValues_movedValues steps]
  | each h iterator iteratee value =>
    simp only [Block.moved, Heading.moved_moved, Value.moved_moved iteratee,
      Value.moved_moved value]
  | repetition h count value =>
    simp only [Block.moved, Heading.moved_moved, Value.moved_moved count, Value.moved_moved value]
  | function h name parameters value =>
    simp only [Block.moved, Heading.moved_moved, Value.moved_moved value]

theorem Construct.moved_moved (c : Construct) : (c.moved σ).moved τ = c.moved (τ ∘ σ) := by
  cases c with
  | returning value => simp only [Construct.moved, Value.moved_moved value]
  | call callee arguments =>
    simp only [Construct.moved, Value.moved_moved callee, movedArguments_movedArguments arguments]
  | access subject key =>
    simp only [Construct.moved, Value.moved_moved subject, Value.moved_moved key]
  | chain subject accessors =>
    simp only [Construct.moved, Value.moved_moved subject, List.map_map]
    rfl
  | lambda parameters body => simp only [Construct.moved, Value.moved_moved body]
  | dictionary entries => simp only [Construct.moved, movedEntries_movedEntries entries]
  | operation items => simp only [Construct.moved, movedItems_movedItems items]
  | assignment left operator right =>
    simp only [Construct.moved, Value.moved_moved left, Value.moved_moved right]
    rfl

theorem Item.moved_moved (item : Item) : (item.moved σ).moved τ = item.moved (τ ∘ σ) := by
  cases item with
  | operator t => rfl
  | unary t => rfl
  | operand value => simp only [Item.moved, Value.moved_moved value]

theorem movedBlocks_movedBlocks (blocks : List Block) :
    movedBlocks τ (movedBlocks σ blocks) = movedBlocks (τ ∘ σ) blocks := by
  cases blocks with
  | nil => rfl
  | cons b blocks => simp only [movedBlocks, Block.moved_moved b, movedBlocks_movedBlocks blocks]

theorem movedValues_movedValues (values : List Value) :
    movedValues τ (movedValues σ values) = movedValues (τ ∘ σ) values := by
  cases values with
  | nil => rfl
  | cons v values => simp only [movedValues, Value.moved_moved v, movedValues_movedValues values]

theorem movedArguments_movedArguments (arguments : List (String × Value)) :
    movedArguments τ (movedArguments σ arguments) = movedArguments (τ ∘ σ) arguments := by
  match arguments with
  | [] => rfl
  | (name, v) :: arguments =>
    simp only [movedArguments, Value.moved_moved v, movedArguments_movedArguments arguments]

theorem movedEntries_movedEntries (entries : List (Value × Value)) :
    movedEntries τ (movedEntries σ entries) = movedEntries (τ ∘ σ) entries := by
  match entries with
  | [] => rfl
  | (key, v) :: entries =>
    simp only [movedEntries, Value.moved_moved key, Value.moved_moved v,
      movedEntries_movedEntries entries]

theorem movedItems_movedItems (items : List Item) :
    movedItems τ (movedItems σ items) = movedItems (τ ∘ σ) items := by
  cases items with
  | nil => rfl
  | cons item items =>
    simp only [movedItems, Item.moved_moved item, movedItems_movedItems items]

end

theorem Outline.movedList_eq_map (items : List Outline) :
    movedList σ items = items.map (moved σ) := by
  induction items with
  | nil => rfl
  | cons item items ih => rw [movedList, ih, List.map_cons]

theorem Outline.moved_tokens (ts : List Token) :
    (Outline.tokens ts).moved σ = .tokens (ts.map (Token.moved σ)) := by
  rw [Outline.tokens, moved, movedList_eq_map, Outline.tokens, List.map_map, List.map_map]
  rfl

theorem Outline.moved_texts (ss : List String) : (Outline.texts ss).moved σ = .texts ss := by
  rw [Outline.texts, moved, movedList_eq_map, List.map_map]
  rfl

theorem Outline.moved_block (form : BlockForm) (heading : Heading)
    (fields : List (String × Outline)) :
    (Outline.block form heading fields).moved σ =
      .block form (heading.moved σ) (movedFields σ fields) := by
  simp only [Outline.block, Outline.label, moved, movedFields, moved_tokens]
  rfl

mutual

theorem Value.outline_moved (v : Value) : (v.moved σ).outline = v.outline.moved σ := by
  cases v with
  | literal t => rfl
  | block b => simp only [Value.moved, Value.outline, Block.outline_moved b]; rfl
  | construct c => simp only [Value.moved, Value.outline, Construct.outline_moved c]; rfl

theorem Block.outline_moved (b : Block) : (b.moved σ).outline = b.outline.moved σ := by
  cases b with
  | imports h symbols =>
    simp only [Block.moved, Block.outline, Outline.moved_block, Outline.movedFields,
      Outline.moved_tokens]
  | closure h name symbols =>
    simp only [Block.moved, Block.outline, Outline.moved_block, Outline.movedFields, Outline.moved,
      blockOutlines_moved symbols]
  | conditional h condition value =>
    simp only [Block.moved, Block.outline, Outline.moved_block, Outline.movedFields,
      Value.outline_moved condition, Value.outline_moved value]
  | otherwise h value =>
    simp only [Block.moved, Block.outline, Outline.moved_block, Outline.movedFields,
      Value.outline_moved value]
  | sequence h steps =>
    simp only [Block.moved, Block.outline, Outline.moved_block, Outline.movedFields, Outline.moved,
      valueOutlines_moved steps]
  | each h iterator iteratee value =>
    simp only [Block.moved, Block.outline, Outline.moved_block, Outline.movedFields, Outline.moved,
      Value.outline_moved iteratee, Value.outline_moved value]
  | repetition h count value =>
    simp only [Block.moved, Block.outline, Outline.moved_block, Outline.movedFields,
      Value.outline_moved count, Value.outline_moved value]
  | function h name parameters value =>
    simp only [Block.moved, Block.outline, Outline.moved_block, Outline.movedFields, Outline.moved,
      Outline.moved_texts, Value.outline_moved value]

theorem Construct.outline_moved (c : Construct) : (c.moved σ).outline = c.outline.moved σ := by
  cases c with
  | returning value =>
    simp only [Construct.moved, Construct.outline, Outline.construct, Outline.label, Outline.moved,
      Outline.movedFields, Value.outline_moved value]
  | call callee arguments =>
    simp only [Construct.moved, Construct.outline, Outline.construct, Outline.label, Outline.moved,
      Outline.movedFields, Value.outline_moved callee, argumentOutlines_moved arguments]
  | access subject key =>
    simp only [Construct.moved, Construct.outline, Outline.construct, Outline.label, Outline.moved,
      Outline.movedFields, Value.outline_moved subject, Value.outline_moved key]
  | chain subject accessors =>
    simp only [Construct.moved, Construct.outline, Outline.construct, Outline.label, Outline.moved,
      Outline.movedFields, Value.outline_moved subject, Outline.moved_tokens]
  | lambda parameters body =>
    simp only [Construct.moved, Construct.outline, Outline.construct, Outline.label, Outline.moved,
      Outline.movedFields, Value.outline_moved body, Outline.moved_texts]
  | dictionary entries =>
    simp only [Construct.moved, Construct.outline, Outline.construct, Outline.label, Outline.moved,
      Outline.movedFields, entryOutlines_moved entries]
  | operation items =>
    simp only [Construct.moved, Construct.outline, Outline.construct, Outline.label, Outline.moved,
      Outline.movedFields, itemOutlines_moved items]
  | assignment left operator right =>
    simp only [Construct.moved, Construct.outline, Outline.construct, Outline.label, Outline.moved,
      Outline.movedFields, Value.outline_moved left, Value.outline_moved right]

theorem Item.outline_moved (item : Item) : (item.moved σ).outline = item.outline.moved σ := by
  cases item with
  | operator t => rfl
  | unary t => rfl
  | operand value => simp only [Item.moved, Item.outline, Value.outline_moved value]; rfl

theorem blockOutlines_moved (blocks : List Block) :
    blockOutlines (movedBlocks σ blocks) = Outline.movedList σ (blockOutlines blocks) := by
  cases blocks with
  | nil => rfl
  | cons b blocks =>
    simp only [movedBlocks, blockOutlines, Outline.movedList, Block.outline_moved b,
      blockOutlines_moved blocks]

theorem valueOutlines_moved (values : List Value) :
    valueOutlines (movedValues σ values) = Outline.movedList σ (valueOutlines values) := by
  cases values with
  | nil => rfl
  | cons v values =>
    simp only [movedValues, valueOutlines, Outline.movedList, Value.outline_moved v,
      valueOutlines_moved values]

theorem argumentOutlines_moved (arguments : List (String × Value)) :
    argumentOutlines (movedArguments σ arguments) =
      Outline.movedList σ (argumentOutlines arguments) := by
  match arguments with
  | [] => rfl
  | (name, v) :: arguments =>
    simp only [movedArguments, argumentOutlines, Outline.movedList, Outline.pair, Outline.moved,
      Value.outline_moved v, argumentOutlines_moved arguments]

theorem entryOutlines_moved (entries : List (Value × Value)) :
    entryOutlines (movedEntries σ entries) = Outline.movedList σ (entryOutlines entries) := by
  match entries with
  | [] => rfl
  | (key, v) :: entries =>
    simp only [movedEntries, entryOutlines, Outline.movedList, Outline.pair, Outline.moved,
      Value.outline_moved key, Value.outline_moved v, entryOutlines_moved entries]

theorem itemOutlines_moved (items : List Item) :
    itemOutlines (movedItems σ items) = Outline.movedList σ (itemOutlines items) := by
  cases items with
  | nil => rfl
  | cons item items =>
    simp only [movedItems, itemOutlines, Outline.movedList, Item.outline_moved item,
      itemOutlines_moved items]

end

namespace Outline

mutual

theorem same_moved (h : KeepsApart σ) (a b : Outline) :
    (a.moved σ).same (b.moved σ) = a.same b := by
  cases a with
  | text s => cases b <;> rfl
  | token t => cases b <;> rfl
  | place p =>
    cases b with
    | place q =>
      rw [moved, moved, same, same, Bool.eq_iff_iff, beq_iff_eq, beq_iff_eq]
      exact h.injective.eq_iff
    | text | token | list | record => rfl
  | list as =>
    cases b with
    | list bs => exact sameItems_moved h as bs
    | text | token | place | record => rfl
  | record as =>
    cases b with
    | record bs => exact sameFields_moved h as bs
    | text | token | place | list => rfl

theorem sameItems_moved (h : KeepsApart σ) (as bs : List Outline) :
    sameItems (movedList σ as) (movedList σ bs) = sameItems as bs := by
  cases as with
  | nil => cases bs <;> rfl
  | cons a as =>
    cases bs with
    | nil => rfl
    | cons b bs =>
      rw [movedList, movedList, sameItems, sameItems, same_moved h a b, sameItems_moved h as bs]

theorem sameFields_moved (h : KeepsApart σ) (as bs : List (String × Outline)) :
    sameFields (movedFields σ as) (movedFields σ bs) = sameFields as bs := by
  match as, bs with
  | [], [] => rfl
  | [], _ :: _ => rfl
  | (label, a) :: as, [] => rfl
  | (label, a) :: as, (label', b) :: bs =>
    rw [movedFields, movedFields, sameFields, sameFields, same_moved h a b,
      sameFields_moved h as bs]

end

end Outline

/-- Comparing values looks at places only to tell them apart. -/
theorem Value.same_moved (h : KeepsApart σ) (v w : Value) :
    (v.moved σ).same (w.moved σ) = v.same w := by
  rw [Value.same, Value.same, Value.outline_moved, Value.outline_moved, Outline.same_moved h]

end

/-- An outcome at another place, its result carried over by `f`. -/
def Outcome.moved {α β : Type} (σ : Position → Position) (f : α → β) : Outcome α → Outcome β
  | .ok a => .ok (f a)
  | .error d => .error ⟨d.cause, σ d.position⟩

section

variable {σ : Position → Position}

theorem forall₂_map {α β : Type} {g : α → β} {xs : List α} {ys : List β}
    (h : List.Forall₂ (fun x y => y = g x) xs ys) : ys = xs.map g := by
  induction h with
  | nil => rfl
  | cons hxy _ ih => rw [hxy, ih, List.map_cons]

/-- What is read at another place is what is read here, at that place. -/
def KeepsApart.resemblance (h : KeepsApart σ) : Resemblance (Token.moved σ) σ where
  place p q := q = σ p
  diagnostic d e := e = ⟨d.cause, σ d.position⟩
  value v w := w = v.moved σ
  block b c := c = b.moved σ
  keyword _ _ := rfl
  start _ := rfl
  origin _ := rfl
  unknown := h.unknown.symm
  orElse := by
    rintro p _ q _ rfl rfl
    exact (h.orElse p q).symm
  refusal := by
    rintro p _ cause rfl
    rfl
  orAt := by
    rintro d _ p _ rfl rfl
    rw [Diagnostic.orAt, Diagnostic.orAt, h.orElse]
  same := by
    rintro v _ w _ rfl rfl
    exact (Value.same_moved h v w).symm
  literal _ := rfl
  index := by
    rintro p _ i rfl
    rfl
  ofBlock := by
    rintro b _ rfl
    rfl
  returning := by
    rintro v _ rfl
    rfl
  call := by
    rintro v _ arguments arguments' rfl ha
    have h : arguments' = arguments.map (Prod.map id (Value.moved σ)) :=
      forall₂_map (ha.imp fun a a' h => Prod.ext h.1.symm h.2)
    rw [h, ← movedArguments_eq_map]
    rfl
  access := by
    rintro v _ k _ rfl rfl
    rfl
  chain := by
    rintro v _ accessors rfl
    rfl
  lambda := by
    rintro v _ parameters rfl
    rfl
  dictionary := by
    intro entries entries' he
    have h : entries' = entries.map (Prod.map (Value.moved σ) (Value.moved σ)) :=
      forall₂_map (he.imp fun e e' h => Prod.ext h.1 h.2)
    rw [h, ← movedEntries_eq_map]
    rfl
  operation := by
    intro items items' hi
    have h : items' = items.map (Item.moved σ) := by
      refine forall₂_map (hi.imp ?_)
      rintro _ _ (t | t | rfl)
      · rfl
      · rfl
      · rfl
    rw [h, ← movedItems_eq_map]
    rfl
  assignment := by
    rintro v _ w _ t rfl rfl
    rfl
  imports _ _ := rfl
  closure := by
    intro bs bs' heading name hb
    rw [forall₂_map hb, ← movedBlocks_eq_map]
    rfl
  conditional := by
    rintro v _ w _ heading rfl rfl
    rfl
  otherwise := by
    rintro v _ heading rfl
    rfl
  sequence := by
    intro vs vs' heading hv
    rw [forall₂_map hv, ← movedValues_eq_map]
    rfl
  each := by
    rintro v _ w _ heading iterator rfl rfl
    rfl
  repetition := by
    rintro v _ w _ heading rfl rfl
    rfl
  function := by
    rintro v _ heading name parameters rfl
    rfl

/-- Reading does not depend on where a span stands. -/
theorem readSymbols_moved (h : KeepsApart σ) (span : List Tree) :
    readSymbols readers (span.map (Tree.mapTokens (Token.moved σ))) =
      Outcome.moved σ (List.map (Block.moved σ)) (readSymbols readers span) := by
  have hread := h.resemblance.readSymbols h.resemblance.reads_readers span
  revert hread
  cases readSymbols readers span with
  | ok symbols =>
    cases readSymbols readers (span.map (Tree.mapTokens (Token.moved σ))) with
    | ok symbols' => exact fun hread => congrArg Except.ok (forall₂_map hread)
    | error e => exact fun hread => hread.elim
  | error d =>
    cases readSymbols readers (span.map (Tree.mapTokens (Token.moved σ))) with
    | ok symbols' => exact fun hread => hread.elim
    | error e => exact fun hread => congrArg Except.error hread

end

end Offside
