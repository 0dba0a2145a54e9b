import Mathlib.Data.List.Forall2
import Offside.Proofs.Relocation
import Offside.Reading

namespace Offside

/-- A heading with the tokens it declares changed, and its place. -/
def Heading.change (f : Token → Token) (σ : Position → Position) (heading : Heading) : Heading :=
  ⟨heading.declarations.map f, σ heading.origin⟩

/-- Whether two elements of an operation differ in a change of their token, or in values that are
related. -/
inductive Item.Related (f : Token → Token) (value : Value → Value → Prop) : Item → Item → Prop where
  | operator (t : Token) : Related f value (.operator t) (.operator (f t))
  | unary (t : Token) : Related f value (.unary t) (.unary (f t))
  | operand {v w : Value} (values : value v w) : Related f value (.operand v) (.operand w)

/-- What is related before and after a change of tokens, where keywords go from a place to another.
What is put together in the same way from related parts is related. -/
structure Resemblance (f : Token → Token) (σ : Position → Position) where
  place : Position → Position → Prop
  diagnostic : Diagnostic → Diagnostic → Prop
  value : Value → Value → Prop
  block : Block → Block → Prop
  keyword : ∀ t : Token, t.kind = .keyword → (f t).span.start = σ t.span.start
  start : ∀ t : Token, place t.span.start (f t).span.start
  origin : ∀ p, place p (σ p)
  unknown : place .unknown .unknown
  orElse : ∀ {p p' q q'}, place p p' → place q q' → place (p.orElse q) (p'.orElse q')
  refusal : ∀ {p p'} cause, place p p' → diagnostic ⟨cause, p⟩ ⟨cause, p'⟩
  orAt : ∀ {d d' p p'}, diagnostic d d' → place p p' → diagnostic (d.orAt p) (d'.orAt p')
  same : ∀ v v' w w', value v v' → value w w' → v.same w = v'.same w'
  literal : ∀ t, value (.literal t) (.literal (f t))
  index : ∀ {p p'} i, place p p' → value (indexKey i p) (indexKey i p')
  ofBlock : ∀ {b b'}, block b b' → value (.block b) (.block b')
  returning : ∀ {v v'}, value v v' → value (.construct (.returning v)) (.construct (.returning v'))
  call : ∀ {v v' arguments arguments'}, value v v' →
    List.Forall₂ (fun a a' => a.1 = a'.1 ∧ value a.2 a'.2) arguments arguments' →
    value (.construct (.call v arguments)) (.construct (.call v' arguments'))
  access : ∀ {v v' k k'}, value v v' → value k k' →
    value (.construct (.access v k)) (.construct (.access v' k'))
  chain : ∀ {v v'} accessors, value v v' →
    value (.construct (.chain v accessors)) (.construct (.chain v' (accessors.map f)))
  lambda : ∀ {v v'} parameters, value v v' →
    value (.construct (.lambda parameters v)) (.construct (.lambda parameters v'))
  dictionary : ∀ {entries entries'},
    List.Forall₂ (fun e e' => value e.1 e'.1 ∧ value e.2 e'.2) entries entries' →
    value (.construct (.dictionary entries)) (.construct (.dictionary entries'))
  operation : ∀ {items items'}, List.Forall₂ (Item.Related f value) items items' →
    value (.construct (.operation items)) (.construct (.operation items'))
  assignment : ∀ {v v' w w'} t, value v v' → value w w' →
    value (.construct (.assignment v t w)) (.construct (.assignment v' (f t) w'))
  imports : ∀ h symbols, block (.imports h symbols) (.imports (h.change f σ) (symbols.map f))
  closure : ∀ {bs bs'} h name, List.Forall₂ block bs bs' →
    block (.closure h name bs) (.closure (h.change f σ) name bs')
  conditional : ∀ {v v' w w'} h, value v v' → value w w' →
    block (.conditional h v w) (.conditional (h.change f σ) v' w')
  otherwise : ∀ {v v'} h, value v v' → block (.otherwise h v) (.otherwise (h.change f σ) v')
  sequence : ∀ {vs vs'} h, List.Forall₂ value vs vs' →
    block (.sequence h vs) (.sequence (h.change f σ) vs')
  each : ∀ {v v' w w'} h iterator, value v v' → value w w' →
    block (.each h iterator v w) (.each (h.change f σ) iterator v' w')
  repetition : ∀ {v v' w w'} h, value v v' → value w w' →
    block (.repetition h v w) (.repetition (h.change f σ) v' w')
  function : ∀ {v v'} h name parameters, value v v' →
    block (.function h name parameters v) (.function (h.change f σ) name parameters v')

/-- Whether two outcomes are results that are related, or refusals that are. -/
def Outcome.Relates {α β : Type} (diagnostic : Diagnostic → Diagnostic → Prop)
    (related : α → β → Prop) : Outcome α → Outcome β → Prop
  | .ok a, .ok b => related a b
  | .error d, .error e => diagnostic d e
  | _, _ => False

section

variable {α β γ δ : Type} {diagnostic : Diagnostic → Diagnostic → Prop} {related : α → β → Prop}
  {related' : γ → δ → Prop}

theorem Outcome.Relates.bind {x : Outcome α} {y : Outcome β} {g : α → Outcome γ} {h : β → Outcome δ}
    (hx : x.Relates diagnostic related y)
    (hg : ∀ {a b}, related a b → (g a).Relates diagnostic related' (h b)) :
    Outcome.Relates diagnostic related' (x >>= g) (y >>= h) := by
  cases x with
  | ok a =>
    cases y with
    | ok b => exact hg hx
    | error e => exact hx.elim
  | error d =>
    cases y with
    | ok b => exact hx.elim
    | error e => exact hx

theorem Outcome.Relates.mapM {m : γ → δ} {g : γ → Outcome α} {h : δ → Outcome β}
    (hg : ∀ x, (g x).Relates diagnostic related (h (m x))) (xs : List γ) :
    Outcome.Relates diagnostic (List.Forall₂ related) (xs.mapM g) ((xs.map m).mapM h) := by
  induction xs with
  | nil => exact List.Forall₂.nil
  | cons x xs ih =>
    rw [List.map_cons, List.mapM_cons, List.mapM_cons]
    exact (hg x).bind fun hfirst => ih.bind fun hrest => List.Forall₂.cons hfirst hrest

end

section

variable {κ κ' ν ν' : Type} {same : κ → κ → Bool} {same' : κ' → κ' → Bool} {keys : κ → κ' → Prop}
  {values : ν → ν' → Prop}

theorem forall₂_put (h : ∀ k k' l l', keys k k' → keys l l' → same k l = same' k' l')
    {key : κ} {key' : κ'} {value : ν} {value' : ν'} (hk : keys key key') (hv : values value value')
    {entries : List (κ × ν)} {entries' : List (κ' × ν')}
    (he : List.Forall₂ (fun e e' => keys e.1 e'.1 ∧ values e.2 e'.2) entries entries') :
    List.Forall₂ (fun e e' => keys e.1 e'.1 ∧ values e.2 e'.2) (put same key value entries)
      (put same' key' value' entries') := by
  induction he with
  | nil => exact .cons ⟨hk, hv⟩ .nil
  | cons hfirst hrest ih =>
    rw [put, put, h _ _ _ _ hfirst.1 hk]
    split
    next => exact .cons ⟨hfirst.1, hv⟩ hrest
    next => exact .cons hfirst ih

theorem forall₂_collect (h : ∀ k k' l l', keys k k' → keys l l' → same k l = same' k' l')
    {pairs : List (κ × ν)} {pairs' : List (κ' × ν')}
    (hp : List.Forall₂ (fun e e' => keys e.1 e'.1 ∧ values e.2 e'.2) pairs pairs') :
    List.Forall₂ (fun e e' => keys e.1 e'.1 ∧ values e.2 e'.2) (collect same pairs)
      (collect same' pairs') := by
  refine List.rel_foldl ?_ .nil hp
  intro entries entries' he pair pair' hpair
  exact forall₂_put h hpair.1 hpair.2 he

end

namespace Resemblance

variable {f : Token → Token} {σ : Position → Position}

/-- Whether two elements of an operator expression differ in a change of their token, or in values
that are related. -/
inductive Parts (R : Resemblance f σ) : Part → Part → Prop where
  | operand {v w : Value} (values : R.value v w) : R.Parts (.operand v) (.operand w)
  | binary (t : Token) (rank : Rank) : R.Parts (.binary t rank) (.binary (f t) rank)
  | unary (t : Token) (rank : Rank) : R.Parts (.unary t rank) (.unary (f t) rank)

/-- Whether readers read a span and the span after the change to related results. -/
structure Reads (R : Resemblance f σ) (r : Readers) : Prop where
  value : ∀ span, (r.value span).Relates R.diagnostic R.value
    (r.value (span.map (Tree.mapTokens f)))
  block : ∀ span, (r.block span).Relates R.diagnostic R.block
    (r.block (span.map (Tree.mapTokens f)))

variable {R : Resemblance f σ} {r : Readers}

theorem place_origin (span : List Tree) :
    R.place (Offside.origin span) (Offside.origin (span.map (Tree.mapTokens f))) := by
  rw [Offside.origin, Offside.origin, firstLeaf?_mapTokens]
  cases firstLeaf? span with
  | none => exact R.unknown
  | some t => exact R.start t

theorem place_start (tree : Tree) : R.place tree.start (tree.mapTokens f).start :=
  place_origin [tree]

theorem Reads.valueAt (hr : R.Reads r) (span : List Tree) {p p' : Position} (hp : R.place p p') :
    (r.valueAt span p).Relates R.diagnostic R.value
      (r.valueAt (span.map (Tree.mapTokens f)) p') := by
  have h := hr.value span
  rw [Readers.valueAt, Readers.valueAt]
  cases hx : r.value span with
  | ok v =>
    cases hy : r.value (span.map (Tree.mapTokens f)) with
    | ok w =>
      rw [hx, hy] at h
      exact h
    | error e =>
      rw [hx, hy] at h
      exact h.elim
  | error d =>
    cases hy : r.value (span.map (Tree.mapTokens f)) with
    | ok w =>
      rw [hx, hy] at h
      exact h.elim
    | error e =>
      rw [hx, hy] at h
      exact R.orAt h hp

variable [KeepsWords f]

theorem readArgument (hr : R.Reads r) {p p' : Position} (hp : R.place p p') (part : List Tree)
    (i : Nat) : (Offside.readArgument r p part i).Relates R.diagnostic
      (fun a a' => a.1 = a'.1 ∧ R.value a.2 a'.2)
      (Offside.readArgument r p' (part.map (Tree.mapTokens f)) i) := by
  rw [Offside.readArgument, Offside.readArgument, labelled?_mapTokens]
  rcases labelled? part with _ | ⟨t, rest⟩
  · exact (hr.valueAt part hp).bind fun hv => ⟨rfl, hv⟩
  · exact (hr.valueAt rest (R.start t)).bind fun hv => ⟨(KeepsWords.text t).symm, hv⟩

theorem readEntry (hr : R.Reads r) {p p' : Position} (hp : R.place p p') (part : List Tree)
    (i : Nat) : (Offside.readEntry r p part i).Relates R.diagnostic
      (fun e e' => R.value e.1 e'.1 ∧ R.value e.2 e'.2)
      (Offside.readEntry r p' (part.map (Tree.mapTokens f)) i) := by
  rw [Offside.readEntry, Offside.readEntry, divide?_mapTokens]
  rcases divide? [.colon] part with _ | ⟨left, colon, right⟩
  · have hplace := R.orElse (R.place_origin part) hp
    exact (hr.valueAt part hplace).bind fun hv => ⟨R.index i hplace, hv⟩
  · exact (hr.valueAt left (R.start colon)).bind fun hk =>
      (hr.valueAt right (R.start colon)).bind fun hv => ⟨hk, hv⟩

omit [KeepsWords f] in
theorem readListed [KeepsWords f] {α β : Type} {related : α → β → Prop}
    {read : List Tree → Nat → Outcome α} {read' : List Tree → Nat → Outcome β}
    (h : ∀ part i, (read part i).Relates R.diagnostic related
      (read' (part.map (Tree.mapTokens f)) i)) (span : List Tree) :
    (Offside.readListed read span).Relates R.diagnostic (List.Forall₂ related)
      (Offside.readListed read' (span.map (Tree.mapTokens f))) := by
  rw [Offside.readListed, Offside.readListed, split_mapTokens, List.zipIdx_map]
  exact Outcome.Relates.mapM (fun x => h x.1 x.2) _

/-! Operators are put behind their operands whatever these are. -/

theorem operatorRank (t : Token) : (Offside.operatorRank t).Relates R.diagnostic Eq
    (Offside.operatorRank (f t)) := by
  rw [Offside.operatorRank, Offside.operatorRank, KeepsWords.text]
  cases rankOf? t.text with
  | none => exact R.refusal _ (R.start t)
  | some rank => rfl

theorem readClauses (hr : R.Reads r) {missing missing' : Option Position}
    (hm : Option.Rel R.place missing missing') (clauses : List (Token × List Tree)) :
    (Offside.readClauses r missing clauses).Relates R.diagnostic (List.Forall₂ R.Parts)
      (Offside.readClauses r missing'
        (clauses.map (Prod.map f (List.map (Tree.mapTokens f))))) := by
  induction clauses generalizing missing missing' with
  | nil =>
    cases hm with
    | none => exact List.Forall₂.nil
    | some hp => exact R.refusal _ hp
  | cons clause clauses ih =>
    obtain ⟨t, operand⟩ := clause
    have hoperator : ∀ rank, R.Parts (if missing.isSome then .unary t rank else .binary t rank)
        (if missing'.isSome then .unary (f t) rank else .binary (f t) rank) := by
      intro rank
      cases hm with
      | none => exact .binary t rank
      | some hp => exact .unary t rank
    rw [List.map_cons, Prod.map_apply, Offside.readClauses, Offside.readClauses]
    refine (R.operatorRank t).bind ?_
    rintro rank _ rfl
    dsimp only
    rw [List.isEmpty_map]
    split
    next =>
      exact (ih (.some (R.start t))).bind fun hparts => List.Forall₂.cons (hoperator rank) hparts
    next =>
      exact (hr.valueAt operand (R.place_origin operand)).bind fun hv =>
        (ih .none).bind fun hparts =>
          List.Forall₂.cons (hoperator rank) (.cons (.operand hv) hparts)

theorem readParts (hr : R.Reads r) (span : List Tree) :
    (Offside.readParts r span).Relates R.diagnostic (List.Forall₂ R.Parts)
      (Offside.readParts r (span.map (Tree.mapTokens f))) := by
  rw [Offside.readParts, Offside.readParts, cut_mapTokens]
  rcases cut [.operator] span with ⟨_ | ⟨tree, first⟩, clauses⟩
  · exact R.readClauses hr (.some (R.place_origin span)) clauses
  · exact (hr.valueAt (tree :: first) (R.place_origin (tree :: first))).bind fun hv =>
      (R.readClauses hr .none clauses).bind fun hparts => List.Forall₂.cons (.operand hv) hparts

/-- Whether two operators that wait differ in a change of their token. -/
inductive Waits (R : Resemblance f σ) : Pending → Pending → Prop where
  | operator (t : Token) (rank : Rank) : R.Waits ⟨.operator t, rank⟩ ⟨.operator (f t), rank⟩
  | unary (t : Token) (rank : Rank) : R.Waits ⟨.unary t, rank⟩ ⟨.unary (f t), rank⟩

omit [KeepsWords f] in
theorem forall₂_item {pending pending' : List Pending} (h : List.Forall₂ R.Waits pending pending') :
    List.Forall₂ (Item.Related f R.value) (pending.map (·.item)) (pending'.map (·.item)) := by
  rw [List.forall₂_map_left_iff, List.forall₂_map_right_iff]
  refine h.imp ?_
  rintro _ _ (⟨t, rank⟩ | ⟨t, rank⟩)
  · exact .operator t
  · exact .unary t

omit [KeepsWords f] in
theorem shunt {pending pending' : List Pending} {parts parts' : List Part}
    (hpending : List.Forall₂ R.Waits pending pending')
    (hparts : List.Forall₂ R.Parts parts parts') :
    List.Forall₂ (Item.Related f R.value) (Offside.shunt pending parts)
      (Offside.shunt pending' parts') := by
  induction hparts generalizing pending pending' with
  | nil => exact forall₂_item hpending
  | cons hpart _ ih =>
    cases hpart with
    | operand hv => exact .cons (.operand hv) (ih hpending)
    | unary t rank => exact ih (.cons (.unary t rank) hpending)
    | binary t rank =>
      obtain ⟨hcomplete, hwaiting⟩ := forall₂_takeWhile hpending fun p p' hp => by
        show p.rank.closedBy rank = p'.rank.closedBy rank
        cases hp <;> rfl
      exact List.rel_append (forall₂_item (hcomplete.imp fun _ _ => And.left))
        (ih (.cons (.operator t rank) hwaiting))

theorem readPostfix (hr : R.Reads r) (span : List Tree) :
    (Offside.readPostfix r span).Relates R.diagnostic (List.Forall₂ (Item.Related f R.value))
      (Offside.readPostfix r (span.map (Tree.mapTokens f))) :=
  (R.readParts hr span).bind fun hparts => R.shunt .nil hparts

theorem readShape (hr : R.Reads r) (shape : Shape) : (shape.read r).Relates R.diagnostic
    (fun c c' => R.value (.construct c) (.construct c')) ((shape.mapTokens f).read r) := by
  cases shape with
  | returning keyword span =>
    exact (hr.valueAt span (place_start keyword)).bind fun hv => R.returning hv
  | call callee opener span =>
    refine (readListed (R.readArgument hr (place_start opener)) span).bind fun ha =>
      (hr.value callee).bind fun hv => R.call hv (forall₂_collect ?_ ha)
    rintro k _ l _ rfl rfl
    rfl
  | access subject opener key =>
    exact (hr.valueAt key (place_start opener)).bind fun hk =>
      (hr.value subject).bind fun hv => R.access hv hk
  | chain subject accessors => exact (hr.value subject).bind fun hv => R.chain accessors hv
  | lambda parameters arrow body =>
    exact (hr.valueAt body (R.start arrow)).bind fun hv => R.lambda parameters hv
  | dictionary opener entries =>
    exact (readListed (R.readEntry hr (place_start opener)) entries).bind fun he =>
      R.dictionary (forall₂_collect R.same he)
  | operation span => exact (R.readPostfix hr span).bind fun hitems => R.operation hitems
  | assignment left t right =>
    exact (hr.valueAt left (R.start t)).bind fun hv =>
      (hr.valueAt right (R.start t)).bind fun hw => R.assignment t hv hw

theorem readConstruct (hr : R.Reads r) (span : List Tree) :
    (Offside.readConstruct r span).Relates R.diagnostic R.value
      (Offside.readConstruct r (span.map (Tree.mapTokens f))) := by
  rw [Offside.readConstruct, Offside.readConstruct, shape?_mapTokens]
  cases shape? span with
  | none =>
    have htext : (firstLeaf? (span.map (Tree.mapTokens f))).map (·.text) =
        (firstLeaf? span).map (·.text) := by
      simp only [firstLeaf?_mapTokens, Option.map_map, Function.comp_def, KeepsWords.text]
    dsimp only [Option.map_none]
    rw [htext]
    exact R.refusal _ (R.place_origin span)
  | some shape => exact (R.readShape hr shape).bind fun hc => hc

theorem literal? (R : Resemblance f σ) (span : List Tree) :
    Option.Rel R.value (Offside.literal? span)
      (Offside.literal? (span.map (Tree.mapTokens f))) := by
  match span with
  | [] => exact .none
  | [.token t] =>
    rw [List.map_cons, List.map_nil, Tree.mapTokens_token, Offside.literal?, Offside.literal?,
      KeepsWords.kind]
    split
    next => exact .some (R.literal t)
    next => exact .none
  | [.group items] =>
    rw [List.map_cons, List.map_nil, Tree.mapTokens_group]
    exact .none
  | first :: second :: rest =>
    have hnone : ∀ (a b : Tree) (more : List Tree), Offside.literal? (a :: b :: more) = none := by
      simp [Offside.literal?]
    rw [List.map_cons, List.map_cons, hnone, hnone]
    exact .none

theorem readSimple (hr : R.Reads r) {compound compound' : List Tree → Outcome Value}
    (hc : ∀ span, (compound span).Relates R.diagnostic R.value
      (compound' (span.map (Tree.mapTokens f)))) (span : List Tree) :
    (Offside.readSimple r span compound).Relates R.diagnostic R.value
      (Offside.readSimple r (span.map (Tree.mapTokens f)) compound') := by
  have hliteral := R.literal? span
  rw [Offside.readSimple, Offside.readSimple, inParens?_mapTokens]
  generalize Offside.literal? span = x, Offside.literal? (span.map (Tree.mapTokens f)) = y
    at hliteral
  cases hliteral with
  | some hv => exact hv
  | none =>
    cases inParens? span with
    | none => exact hc span
    | some inner => exact hr.value inner

theorem readFlat (hr : R.Reads r) (span : List Tree) :
    (Offside.readFlat r span).Relates R.diagnostic R.value
      (Offside.readFlat r (span.map (Tree.mapTokens f))) := by
  rw [Offside.readFlat, Offside.readFlat, spread_mapTokens, regroup_mapTokens]
  exact R.readSimple hr (R.readConstruct hr) _

theorem readHeading (R : Resemblance f σ) (form : BlockForm) (span : List Tree) :
    (Offside.readHeading form span).Relates R.diagnostic
      (fun x y => y = (x.1.change f σ, x.2.map (Tree.mapTokens f)))
      (Offside.readHeading form (span.map (Tree.mapTokens f))) := by
  rw [Offside.readHeading, Offside.readHeading, heading?_mapTokens span R.keyword]
  cases heading? form span with
  | none => exact R.refusal _ (R.place_origin span)
  | some result => rfl

theorem readSymbols (hr : R.Reads r) (span : List Tree) :
    (Offside.readSymbols r span).Relates R.diagnostic (List.Forall₂ R.block)
      (Offside.readSymbols r (span.map (Tree.mapTokens f))) := by
  have hsplit : splitWhere (·.hasKind .newline) (span.map (Tree.mapTokens f)) =
      (splitWhere (·.hasKind .newline) span).map (List.map (Tree.mapTokens f)) := by
    have hs : ∀ tree : Tree,
        (if (tree.mapTokens f).hasKind .newline then some (tree.mapTokens f) else none) =
          (if tree.hasKind .newline then some tree else none).map (Tree.mapTokens f) := by
      intro tree
      rw [Tree.hasKind_mapTokens]
      split <;> rfl
    rw [splitWhere, splitWhere, sections_map hs]
    simp
  have hempty : ((!·.isEmpty) ∘ List.map (Tree.mapTokens f) : List Tree → Bool) =
      (!·.isEmpty) := by
    funext part
    rw [Function.comp_apply, List.isEmpty_map]
  rw [Offside.readSymbols, Offside.readSymbols, hsplit, List.filter_map, hempty]
  exact Outcome.Relates.mapM hr.block _

theorem readBody (hr : R.Reads r) (form : BlockForm) (heading : Heading) (span : List Tree) :
    (form.readBody r heading span).Relates R.diagnostic R.block
      (form.readBody r (heading.change f σ) (span.map (Tree.mapTokens f))) := by
  have hplace : R.place heading.origin (heading.change f σ).origin := R.origin heading.origin
  have hv := fun part => hr.valueAt part hplace
  have invalid : Outcome.Relates R.diagnostic R.block
      (refuse (.invalidBlock form) heading.origin)
      (refuse (.invalidBlock form) (heading.change f σ).origin) := R.refusal _ hplace
  cases form with
  | imports =>
    rw [BlockForm.readBody, BlockForm.readBody, mapM_option_mapTokens _ pathToken?_mapTokens]
    rcases span.mapM pathToken? with _ | ⟨_ | ⟨t, symbols⟩⟩
    · exact invalid
    · exact invalid
    · exact R.imports heading (t :: symbols)
  | closure =>
    rw [BlockForm.readBody, BlockForm.readBody, headerAndBody_mapTokens]
    obtain ⟨header, body⟩ := headerAndBody span
    dsimp only
    rw [soleName?_mapTokens, ungroup_mapTokens]
    cases soleName? header with
    | none => exact invalid
    | some name =>
      exact (R.readSymbols hr (ungroup body)).bind fun hsymbols => R.closure heading name hsymbols
  | conditional =>
    rw [BlockForm.readBody, BlockForm.readBody, headerAndBody_mapTokens]
    obtain ⟨header, body⟩ := headerAndBody span
    dsimp only
    rw [List.isEmpty_map, List.isEmpty_map]
    split
    next => exact invalid
    next =>
      exact (hv header).bind fun hcondition =>
        (hv body).bind fun hvalue => R.conditional heading hcondition hvalue
  | otherwise => exact (hv span).bind fun hvalue => R.otherwise heading hvalue
  | sequence =>
    rw [BlockForm.readBody, BlockForm.readBody, stepsOf_mapTokens]
    have hsteps : Outcome.Relates R.diagnostic (List.Forall₂ R.value)
        ((stepsOf span).mapM (r.valueAt · heading.origin))
        (((stepsOf span).map (List.map (Tree.mapTokens f))).mapM
          (r.valueAt · (heading.change f σ).origin)) := by
      refine Outcome.Relates.mapM ?_ _
      exact hv
    refine hsteps.bind fun hsteps => ?_
    cases hsteps with
    | nil => exact invalid
    | cons hstep hsteps => exact R.sequence heading (.cons hstep hsteps)
  | each =>
    rw [BlockForm.readBody, BlockForm.readBody, headerAndBody_mapTokens]
    obtain ⟨header, body⟩ := headerAndBody span
    dsimp only
    rw [iteration?_mapTokens, List.isEmpty_map]
    rcases iteration? header with _ | ⟨iterator, part⟩
    · exact invalid
    · dsimp only [Option.map_some]
      split
      next => exact invalid
      next =>
        exact (hv part).bind fun hiteratee =>
          (hv body).bind fun hvalue => R.each heading iterator hiteratee hvalue
  | repetition =>
    rw [BlockForm.readBody, BlockForm.readBody, headerAndBody_mapTokens]
    obtain ⟨header, body⟩ := headerAndBody span
    dsimp only
    rw [List.isEmpty_map, List.isEmpty_map]
    split
    next => exact invalid
    next =>
      exact (hv header).bind fun hcount =>
        (hv body).bind fun hvalue => R.repetition heading hcount hvalue
  | function =>
    rw [BlockForm.readBody, BlockForm.readBody, functionParts?_mapTokens]
    rcases functionParts? span with _ | ⟨name, parameters, part⟩
    · exact invalid
    · exact (hv part).bind fun hvalue => R.function heading name parameters hvalue

theorem blockStep (hr : R.Reads r) (span : List Tree) :
    (Offside.blockStep r span).Relates R.diagnostic R.block
      (Offside.blockStep r (span.map (Tree.mapTokens f))) := by
  match span with
  | [] => exact R.refusal .unexpectedBlock R.unknown
  | .group items :: rest =>
    have hplace := R.place_origin (.group items :: rest)
    rw [List.map_cons, Tree.mapTokens_group] at hplace ⊢
    exact R.refusal .unexpectedBlock hplace
  | .token t :: rest =>
    rw [List.map_cons, Tree.mapTokens_token, Offside.blockStep, Offside.blockStep,
      BlockForm.introducedBy?_of_keepsWords, KeepsWords.text, ← Tree.mapTokens_token,
      ← List.map_cons]
    cases BlockForm.introducedBy? t with
    | none => exact R.refusal _ (R.start t)
    | some form =>
      refine (R.readHeading form (.token t :: rest)).bind ?_
      rintro x _ rfl
      exact R.readBody hr form x.1 x.2

theorem valueStep (hr : R.Reads r) (span : List Tree) :
    (Offside.valueStep r span).Relates R.diagnostic R.value
      (Offside.valueStep r (span.map (Tree.mapTokens f))) := by
  rw [Offside.valueStep, Offside.valueStep, unwrap_mapTokens]
  cases unwrap span with
  | nil => exact R.refusal .noExpression R.unknown
  | cons first rest =>
    rw [List.map_cons]
    dsimp only
    rw [Tree.opensBlock_mapTokens, ← List.map_cons]
    split
    next => exact (R.blockStep hr (first :: rest)).bind fun hb => R.ofBlock hb
    next => exact R.readSimple hr (R.readFlat hr) (first :: rest)

theorem reads_below (R : Resemblance f σ) (n : Nat) : R.Reads (Readers.below n) := by
  induction n with
  | zero =>
    exact ⟨fun _ => R.refusal .noExpression R.unknown,
      fun _ => R.refusal .unexpectedBlock R.unknown⟩
  | succ n ih => exact ⟨R.valueStep ih, R.blockStep ih⟩

/-- Reading spans that differ in a change of their tokens comes to related results. -/
theorem reads_readers (R : Resemblance f σ) : R.Reads readers := by
  refine ⟨fun span => ?_, fun span => ?_⟩
  · show (readValue span).Relates R.diagnostic R.value (readValue _)
    rw [readValue, readValue, leafCount_mapTokens]
    exact R.valueStep (R.reads_below _) span
  · show (readBlock span).Relates R.diagnostic R.block (readBlock _)
    rw [readBlock, readBlock, leafCount_mapTokens]
    exact R.blockStep (R.reads_below _) span

end Resemblance

end Offside
