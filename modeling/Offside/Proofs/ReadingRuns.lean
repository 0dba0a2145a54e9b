import Offside.Proofs.IndexedRegrouping
import Offside.Proofs.IndexedShapes
import Offside.Proofs.Provenance
import Offside.Proofs.RenestedReading

namespace Offside

namespace Stepwise

section

variable (limit : Option Nat)

def readArgument (opener : Position) (part : List Tree) (i : Nat) : Run (String × Value) :=
  match labelled? part with
  | some (t, rest) => do
    let value ← Run.valueAt rest t.span.start
    return (t.text, value)
  | none => do
    let value ← Run.valueAt part opener
    return (toString i, value)

def readEntry (opener : Position) (part : List Tree) (i : Nat) : Run (Value × Value) := do
  let found ← topIndex? limit [.colon] part
  match found with
  | some n =>
    let colon ← Run.item part n
    let left ← Run.before part n
    let key ← Run.valueAt left colon.start
    let right ← Run.behind part (n + 1)
    let value ← Run.valueAt right colon.start
    return (key, value)
  | none =>
    let position := (origin part).orElse opener
    let value ← Run.valueAt part position
    return (indexKey i position, value)

def readListed {α : Type} (read : List Tree → Nat → Run α) (span : List Tree) : Run (List α) := do
  let parts ← split limit [.comma] false span
  parts.zipIdx.mapM fun (part, i) => read part i

/-- The operator that a part of an operator expression begins with. -/
def operatorOf? : List Tree → Option Token
  | .token t :: _ => if t.kind = .operator then some t else none
  | _ => none

/-- Reads the parts of an operator expression from an index on. While `missing`, an operand has to
come, and `last` is the last operator so far. -/
def readOperands (span : List Tree) :
    Nat → Bool → Option Token → List (List Tree) → Run (List Part)
  | _, true, last, [] =>
    .refused ⟨.noExpression, (last.map (·.span.start)).getD (origin span)⟩
  | _, false, _, [] => .done []
  | i, missing, last, part :: parts =>
    match operatorOf? part with
    | some t => do
      let rank ← Run.ofOutcome (operatorRank t)
      let operator := if missing then Part.unary t rank else .binary t rank
      let operand ← Run.behind part 1
      if operand.isEmpty then
        let others ← readOperands span (i + 1) true (some t) parts
        return operator :: others
      else
        let value ← Run.valueAt operand (origin operand)
        let others ← readOperands span (i + 1) false (some t) parts
        return operator :: .operand value :: others
    | none =>
      if part.isEmpty then
        readOperands span (i + 1) (if i = 0 then missing else true) last parts
      else do
        let value ← Run.valueAt part (origin part)
        let others ← readOperands span (i + 1) false last parts
        return .operand value :: others

def readPostfix (span : List Tree) : Run (List Item) := do
  let parts ← split limit [.operator] true span
  let parts ← readOperands span 0 true none parts
  return shunt [] parts

def readShape : Shape → Run Construct
  | .returning keyword span => do
    let value ← Run.valueAt span keyword.start
    return .returning value
  | .call callee opener span => do
    let arguments ← readListed limit (readArgument opener.start) span
    let value ← Run.valueOf callee
    return .call value (collect (· == ·) arguments)
  | .access subject opener span => do
    let key ← Run.valueAt span opener.start
    let value ← Run.valueOf subject
    return .access value key
  | .chain subject accessors => do
    let value ← Run.valueOf subject
    return .chain value accessors
  | .lambda parameters arrow span => do
    let body ← Run.valueAt span arrow.span.start
    return .lambda parameters body
  | .dictionary opener span => do
    let entries ← readListed limit (readEntry limit opener.start) span
    return .dictionary (collect Value.same entries)
  | .operation span => do
    let items ← readPostfix limit span
    return .operation items
  | .assignment left t right => do
    let target ← Run.valueAt left t.span.start
    let value ← Run.valueAt right t.span.start
    return .assignment target t value

/-- Collects the names that are declared from an index on. -/
def declarationsFrom (span : List Tree) : Nat → List Tree → Run (Option (List Token × List Tree))
  | _, [] => .done none
  | i, tree :: rest =>
    if tree.hasKind .closeBracket then do
      let body ← Run.behind span (i + 1)
      return some ([], body)
    else do
      let found ← declarationsFrom span (i + 1) rest
      return found.map fun (names, body) => (tree.name?.toList ++ names, body)

def declarations? (span : List Tree) : Run (Option (List Token × List Tree)) :=
  if span.head?.any (·.hasKind .openBracket) then declarationsFrom span 1 (span.drop 1)
  else .done (some ([], span))

def readHeading (form : BlockForm) (span : List Tree) : Run (Heading × List Tree) :=
  match span.head? with
  | some (.token t) =>
    if t.kind = .keyword && t.text == form.keyword then do
      let rest ← Run.behind span 1
      let found ← declarations? rest
      match found with
      | some (declarations, body) => return (⟨declarations, origin span⟩, body)
      | none => .refused ⟨.invalidBlock form, origin span⟩
    else .refused ⟨.invalidBlock form, origin span⟩
  | _ => .refused ⟨.invalidBlock form, origin span⟩

def headerAndBody (span : List Tree) : Run (List Tree × List Tree) :=
  match span.findIdx? (·.isGroup) with
  | some i => do
    let header ← Run.before span i
    let body ← Run.behind span i
    return (header, body)
  | none => .done (span, [])

def readSymbols (span : List Tree) : Run (List Block) :=
  ((splitWhere (·.hasKind .newline) span).filter (!·.isEmpty)).mapM fun part =>
    Run.blockOf part

def programOf (source : Source) (tree : List Tree) : Run Block := do
  let symbols ← readSymbols tree
  return .closure ⟨[], source.start⟩ "main" symbols

def signature? (span : List Tree) : Run (Option (List String × List Tree)) :=
  match span.head? with
  | none => .done (some ([], []))
  | some first =>
    if first.hasKind .openParen then do
      let found ← closingFrom limit .openParen .closeParen 0 0 span
      match found with
      | none => return none
      | some i =>
        let parameters ← Run.slice span 1 i
        match (parameters.filter (!·.hasKind .comma)).mapM Tree.name? with
        | none => return none
        | some names =>
          let inline ← Run.behind span (i + 1)
          return some (names.map (·.text), inline)
    else .done none

def functionParts? (span : List Tree) : Run (Option (String × List String × List Tree)) := do
  let (header, body) ← headerAndBody span
  let line : List Tree := (leaves header).map .token
  match line.head?.bind Tree.name? with
  | none => return none
  | some t =>
    let rest ← Run.behind line 1
    let found ← signature? limit rest
    return found.map fun (parameters, inline) => (t.text, parameters, inline ++ ungroup body)

def readBody (form : BlockForm) (heading : Heading) (span : List Tree) : Run Block :=
  let read (part : List Tree) : Run Value := Run.valueAt part heading.origin
  let invalid : Run Block := .refused ⟨.invalidBlock form, heading.origin⟩
  match form with
  | .imports =>
    match span.mapM pathToken? with
    | some (t :: symbols) => .done (.imports heading (t :: symbols))
    | _ => invalid
  | .closure => do
    let (header, body) ← headerAndBody span
    match soleName? header with
    | some name =>
      let symbols ← readSymbols (ungroup body)
      return .closure heading name symbols
    | none => invalid
  | .conditional => do
    let (header, body) ← headerAndBody span
    if header.isEmpty || body.isEmpty then invalid
    else
      let condition ← read header
      let value ← read body
      return .conditional heading condition value
  | .otherwise => do
    let value ← read span
    return .otherwise heading value
  | .sequence => do
    let parts ← split limit [.comma, .newline] false (ungroup span)
    let steps ← (parts.filter (!·.isEmpty)).mapM read
    if steps.isEmpty then invalid else return .sequence heading steps
  | .each => do
    let (header, body) ← headerAndBody span
    match iteration? header with
    | some (iterator, _) =>
      if body.isEmpty then invalid
      else
        let part ← Run.behind header 2
        let iteratee ← read part
        let value ← read body
        return .each heading iterator iteratee value
    | none => invalid
  | .repetition => do
    let (header, body) ← headerAndBody span
    if header.isEmpty || body.isEmpty then invalid
    else
      let count ← read header
      let value ← read body
      return .repetition heading count value
  | .function => do
    let found ← functionParts? limit span
    match found with
    | some (name, parameters, part) =>
      let value ← read part
      return .function heading name parameters value
    | none => invalid

/-- One run of the reading of a block. -/
def blockRun (span : List Tree) : Run Block :=
  match span.head? with
  | none => .refused ⟨.unexpectedBlock, .unknown⟩
  | some (.group _) => .refused ⟨.unexpectedBlock, origin span⟩
  | some (.token t) =>
    match BlockForm.introducedBy? t with
    | none => .refused ⟨.unexpectedToken t.text, t.span.start⟩
    | some form => do
      let (heading, body) ← readHeading form span
      readBody limit form heading body

/-- The inside of a span that is one group. -/
def soleGroup? : List Tree → Option (List Tree)
  | [.group items] => some items
  | _ => none

/-- Reads a span as a single value or as what stands in parentheses, and any other by
`compound`. -/
def simpleRun (span : List Tree) (compound : Run Value) : Run Value :=
  match literal? span with
  | some value => .done value
  | none =>
    match inParens? span with
    | some inner => Run.valueOf inner
    | none => compound

def constructRun (span : List Tree) : Run Value := do
  let found ← shape? limit span
  match found with
  | some shape =>
    let construct ← readShape limit shape
    return .construct construct
  | none =>
    .refused ⟨.unexpectedToken (((firstLeaf? span).map (·.text)).getD ""), origin span⟩

/-- One run of the reading of a value. -/
def valueRun (span : List Tree) : Run Value :=
  let line := joinLines span
  match line.head? with
  | none => .refused ⟨.noExpression, .unknown⟩
  | some first =>
    if first.opensBlock then do
      let block ← Run.blockOf line
      return .block block
    else
      match soleGroup? line with
      | some items => Run.valueOf items
      | none =>
        simpleRun line do
          let flat ← spread line
          let grouped ← regroup limit flat.1
          simpleRun grouped (constructRun limit grouped)

end

section

variable {limit : Option Nat} {r : Readers} {span : List Tree}

theorem eval_readArgument (opener : Position) (part : List Tree) (i : Nat) :
    (readArgument opener part i).eval r = some (Offside.readArgument r opener part i) := by
  rw [readArgument, Offside.readArgument]
  cases labelled? part with
  | none => exact Run.eval_bind_of_eval (Run.eval_valueAt _ _) fun value => rfl
  | some parts => exact Run.eval_bind_of_eval (Run.eval_valueAt _ _) fun value => rfl

theorem eval_readEntry {part : List Tree} (h : Fits limit (bracketCount part)) (opener : Position)
    (i : Nat) :
    (readEntry limit opener part i).eval r = some (Offside.readEntry r opener part i) := by
  rw [readEntry, topIndex?_eq h, Run.bind_done, Offside.readEntry]
  cases hi : Offside.topIndex? [.colon] part with
  | none =>
    rw [divide?_of_topIndex?_eq_none hi]
    exact Run.eval_bind_of_eval (Run.eval_valueAt _ _) fun value => rfl
  | some n =>
    obtain ⟨left, colon, right, rfl, rfl, hd⟩ := divide?_of_topIndex? hi
    rw [hd]
    dsimp only
    rw [Run.item_append, Run.bind_done, Run.before_append, Run.bind_done]
    refine Run.eval_bind_of_eval (Run.eval_valueAt _ _) fun key => ?_
    rw [Run.behind_item, Run.bind_done]
    exact Run.eval_bind_of_eval (Run.eval_valueAt _ _) fun value => rfl

theorem eval_readListed {α : Type} {read : List Tree → Nat → Run α}
    {read' : List Tree → Nat → Outcome α} (h : Fits limit (bracketCount span))
    (hread : ∀ part ∈ Offside.split [.comma] false span, ∀ i,
      (read part i).eval r = some (read' part i)) :
    (readListed limit read span).eval r = some (Offside.readListed read' span) := by
  rw [readListed, split_eq h, Run.bind_done]
  exact Run.eval_mapM fun item hm => hread item.1 (List.fst_mem_of_mem_zipIdx hm) item.2

theorem operatorOf?_token {t : Token} (ht : t.kind = .operator) (part : List Tree) :
    operatorOf? (.token t :: part) = some t :=
  if_pos ht

/-- What stands in front of the first operator does not begin with one. -/
theorem operatorOf?_cut (span : List Tree) : operatorOf? (cut [.operator] span).1 = none := by
  cases span with
  | nil => rfl
  | cons tree rest =>
    cases tree with
    | group items => rfl
    | token t =>
      by_cases ht : t.kind = .operator
      · have hafter : Depth.top.after (.token t) = .top := by simp [Depth.after, ht]
        have hs : separator? [.operator] (.token t, Depth.top.after (.token t)) = some t :=
          separator?_eq_some_iff.mpr ⟨List.mem_singleton.mpr ht, hafter⟩
        simp [cut, depths, sections, hs, operatorOf?]
      · rw [cut, depths, sections]
        cases separator? [.operator] (.token t, Depth.top.after (.token t)) with
        | some s => rfl
        | none => exact if_neg ht

/-- Where a missing operand is complained about. -/
def missingAt (span : List Tree) (missing : Bool) (last : Option Token) : Option Position :=
  if missing then some ((last.map (·.span.start)).getD (origin span)) else none

theorem eval_readOperands {clauses : List (Token × List Tree)}
    (operators : ∀ c ∈ clauses, c.1.kind = .operator) (i : Nat) (missing : Bool)
    (last : Option Token) :
    (readOperands span i missing last (clauses.map fun c => .token c.1 :: c.2)).eval r =
      some (readClauses r (missingAt span missing last) clauses) := by
  induction clauses generalizing i missing last with
  | nil => cases missing <;> rfl
  | cons c clauses ih =>
    obtain ⟨t, operand⟩ := c
    have ih := fun i missing => ih (fun c hc => operators c (List.mem_cons_of_mem _ hc)) i missing
      (some t)
    have hbehind : Run.behind (.token t :: operand) 1 = .done operand :=
      Run.behind_first _ operand
    have hmissing : (missingAt span missing last).isSome = missing := by cases missing <;> rfl
    rw [List.map_cons, readOperands, operatorOf?_token (operators _ List.mem_cons_self),
      readClauses, hmissing]
    dsimp only
    refine Run.eval_bind_of_eval (Run.eval_ofOutcome _) fun rank => ?_
    rw [hbehind, Run.bind_done]
    split
    next => exact Run.eval_bind_of_eval (ih _ true) fun parts => rfl
    next =>
      refine Run.eval_bind_of_eval (Run.eval_valueAt _ _) fun value => ?_
      exact Run.eval_bind_of_eval (ih _ false) fun parts => rfl

theorem split_operators {kinds : List Kind} (h : span ≠ []) :
    Offside.split kinds true span =
      (cut kinds span).1 :: (cut kinds span).2.map fun c => .token c.1 :: c.2 := by
  rw [Offside.split, List.isEmpty_eq_false_iff.mpr h]
  rfl

theorem eval_readPostfix (h : Fits limit (bracketCount span)) :
    (readPostfix limit span).eval r = some (Offside.readPostfix r span) := by
  rw [readPostfix, split_eq h, Run.bind_done]
  refine Run.eval_bind_of_eval ?_ fun parts => rfl
  have operators : ∀ c ∈ (cut [.operator] span).2, c.1.kind = .operator :=
    fun c hc => List.mem_singleton.mp (kind_of_mem_cut hc)
  have hfirst := operatorOf?_cut span
  by_cases hne : span = []
  · subst hne
    rfl
  · rw [split_operators hne, readParts]
    generalize cut [.operator] span = sections at *
    obtain ⟨first, clauses⟩ := sections
    rw [readOperands, hfirst]
    cases first with
    | nil => exact eval_readOperands operators 1 true none
    | cons tree first =>
      refine Run.eval_bind_of_eval (Run.eval_valueAt _ _) fun value => ?_
      exact Run.eval_bind_of_eval (eval_readOperands operators 1 false none) fun parts => rfl

theorem fits_of_leaves {part : List Tree} (h : Fits limit (bracketCount span))
    (hs : (leaves part).Sublist (leaves span)) : Fits limit (bracketCount part) :=
  h.mono (bracketCount_le hs)

theorem eval_readShape {shape : Shape} (drawn : shape.DrawnFrom (leaves span))
    (h : Fits limit (bracketCount span)) :
    (readShape limit shape).eval r = some (shape.read r) := by
  cases shape with
  | returning keyword value =>
    exact Run.eval_bind_of_eval (Run.eval_valueAt _ _) fun value => rfl
  | call callee opener arguments =>
    refine Run.eval_bind_of_eval (eval_readListed (fits_of_leaves h drawn.2) fun part _ i =>
      eval_readArgument _ part i) fun arguments => ?_
    exact Run.eval_bind_of_eval (Run.eval_valueOf _) fun value => rfl
  | access subject opener key =>
    refine Run.eval_bind_of_eval (Run.eval_valueAt _ _) fun key => ?_
    exact Run.eval_bind_of_eval (Run.eval_valueOf _) fun value => rfl
  | chain subject accessors =>
    exact Run.eval_bind_of_eval (Run.eval_valueOf _) fun value => rfl
  | lambda parameters arrow body =>
    exact Run.eval_bind_of_eval (Run.eval_valueAt _ _) fun value => rfl
  | dictionary opener entries =>
    have hentries := fits_of_leaves h drawn.2
    refine Run.eval_bind_of_eval (eval_readListed hentries fun part hm i => ?_) fun entries => rfl
    exact eval_readEntry (fits_of_leaves hentries (leaves_sublist (sublist_of_mem_split hm))) _ i
  | operation items =>
    exact Run.eval_bind_of_eval (eval_readPostfix (fits_of_leaves h drawn)) fun items => rfl
  | assignment left t right =>
    refine Run.eval_bind_of_eval (Run.eval_valueAt _ _) fun target => ?_
    exact Run.eval_bind_of_eval (Run.eval_valueAt _ _) fun value => rfl

theorem declarationsFrom_eq (left rest : List Tree) :
    declarationsFrom (left ++ rest) left.length rest =
      .done (match rest.dropWhile (!·.hasKind .closeBracket) with
        | [] => none
        | _ :: body =>
          some ((rest.takeWhile (!·.hasKind .closeBracket)).filterMap Tree.name?, body)) := by
  induction rest generalizing left with
  | nil => rfl
  | cons tree rest ih =>
    have ih := ih (left ++ [tree])
    rw [← List.append_cons, List.length_append, List.length_singleton] at ih
    rw [declarationsFrom, List.dropWhile_cons, List.takeWhile_cons]
    cases hc : tree.hasKind .closeBracket with
    | true =>
      rw [if_pos rfl, Run.behind_item]
      rfl
    | false =>
      rw [if_neg (by decide), ih, Run.bind_done]
      cases rest.dropWhile (!·.hasKind .closeBracket) with
      | nil => rfl
      | cons closer body => cases hn : tree.name? <;> simp [pure, hn]

theorem declarations?_eq (span : List Tree) :
    declarations? span = .done (Offside.declarations? span) := by
  cases span with
  | nil => rfl
  | cons first rest =>
    rw [declarations?, Offside.declarations?]
    cases hb : first.hasKind .openBracket with
    | true =>
      rw [if_pos (by simp [hb]), List.drop_one, List.tail_cons]
      exact declarationsFrom_eq [first] rest
    | false =>
      rw [if_neg (by simp [hb])]
      rfl

theorem readHeading_eq (form : BlockForm) (span : List Tree) :
    readHeading form span = Run.ofOutcome (Offside.readHeading form span) := by
  rw [readHeading, Offside.readHeading]
  cases span with
  | nil => rfl
  | cons tree rest =>
    cases tree with
    | group items => rfl
    | token t =>
      have hbehind : Run.behind (.token t :: rest) 1 = .done rest := Run.behind_first _ rest
      have horigin : origin (.token t :: rest) = t.span.start := rfl
      rw [List.head?_cons, heading?]
      dsimp only
      split
      next =>
        rw [hbehind, Run.bind_done, declarations?_eq, Run.bind_done]
        cases Offside.declarations? rest with
        | none => rfl
        | some parts => rfl
      next => rfl

theorem headerAndBody_append_eq {header body : List Tree}
    (hheader : ∀ tree ∈ header, tree.isGroup = false)
    (hbody : ∀ tree ∈ body.head?, tree.isGroup = true) :
    headerAndBody (header ++ body) = .done (header, body) := by
  have hnone : header.findIdx? (·.isGroup) = none := List.findIdx?_eq_none_iff.mpr hheader
  rw [headerAndBody, List.findIdx?_append, hnone, Option.none_or]
  cases body with
  | nil =>
    rw [List.append_nil]
    rfl
  | cons tree rest =>
    rw [List.findIdx?_cons, if_pos (hbody tree rfl), Option.map_some, Nat.zero_add]
    dsimp only
    rw [Run.before_append, Run.bind_done, Run.behind_append]
    rfl

theorem headerAndBody_eq (span : List Tree) :
    headerAndBody span = .done (Offside.headerAndBody span) := by
  have happ := List.takeWhile_append_dropWhile (p := fun tree : Tree => !tree.isGroup) (l := span)
  rw [Offside.headerAndBody, List.span_eq_takeWhile_dropWhile]
  conv => lhs; rw [← happ]
  refine headerAndBody_append_eq (fun tree ht => ?_) fun tree ht => ?_
  · simpa using List.mem_takeWhile_imp ht
  · have hnot := List.head?_dropWhile_not (fun tree : Tree => !tree.isGroup) span
    rw [Option.mem_def.mp ht] at hnot
    simpa using hnot

theorem map_token_leaves {header : List Tree} (h : ∀ tree ∈ header, tree.isGroup = false) :
    (leaves header).map .token = header := by
  induction header with
  | nil => rfl
  | cons tree header ih =>
    have ih := ih fun tree hm => h tree (List.mem_cons_of_mem _ hm)
    cases tree with
    | group items => cases h _ List.mem_cons_self
    | token t =>
      rw [leaves, Tree.leaves, List.singleton_append, List.map_cons, ih]

theorem signature?_eq (h : Fits limit (bracketCount span)) :
    signature? limit span = .done (Offside.signature? span) := by
  cases span with
  | nil => rfl
  | cons first rest =>
    rw [signature?, Offside.signature?, List.head?_cons]
    dsimp only
    split
    next ho =>
      rw [closingFrom_opener rfl ho h, Run.bind_done]
      cases hn : closerIndex? .openParen .closeParen 0 rest with
      | none => rfl
      | some n =>
        obtain ⟨inside, closer, after, rfl, rfl, -⟩ := closerIndex?_split (by decide) hn
        have hbehind : Run.behind (first :: (inside ++ closer :: after)) (inside.length + 1 + 1) =
            .done after := Run.behind_item (first :: inside) after closer
        simp only [Option.map_some, Nat.zero_add, Option.bind_eq_bind, Option.bind_some,
          List.take_left]
        rw [Run.slice_behind_first, Run.bind_done, hbehind]
        cases (inside.filter (!·.hasKind .comma)).mapM Tree.name? with
        | none => rfl
        | some names => simp [pure, Run.bind_done]
    next => rfl

theorem functionParts?_eq (h : Fits limit (bracketCount span)) :
    functionParts? limit span = .done (Offside.functionParts? span) := by
  have hplain := @isGroup_of_mem_header span
  have hheader := fits_of_leaves h (leaves_sublist (headerAndBody_fst_sublist span))
  rw [functionParts?, headerAndBody_eq, Run.bind_done, Offside.functionParts?]
  generalize Offside.headerAndBody span = parts at *
  obtain ⟨header, body⟩ := parts
  dsimp only at *
  rw [map_token_leaves hplain]
  cases header with
  | nil => rfl
  | cons first header =>
    have hbehind : Run.behind (first :: header) 1 = .done header := Run.behind_first _ header
    have hrest := fits_of_leaves hheader (leaves_sublist (List.sublist_cons_self first header))
    simp only [List.head?_cons, Option.bind_eq_bind, Option.bind_some]
    cases first.name? with
    | none => rfl
    | some t =>
      dsimp only
      rw [hbehind, Run.bind_done, signature?_eq hrest, Run.bind_done, Option.bind_some]
      cases Offside.signature? header with
      | none => rfl
      | some parts => rfl

theorem behind_of_iteration? {header part : List Tree} {iterator : String}
    (h : iteration? header = some (iterator, part)) : Run.behind header 2 = .done part := by
  unfold iteration? at h
  split at h
  next first second rest =>
    obtain ⟨t, -, h⟩ := Option.bind_eq_some_iff.mp h
    split at h
    next => cases h
    next =>
      obtain ⟨-, rfl⟩ := Prod.mk.inj (Option.some.inj h)
      exact Run.behind_item [first] rest second
  next => cases h

theorem eval_readSymbols (span : List Tree) :
    (readSymbols span).eval r = some (Offside.readSymbols r span) :=
  Run.eval_mapM fun part _ => Run.eval_blockOf part

theorem eval_readBody (h : Fits limit (bracketCount span)) (form : BlockForm) (heading : Heading) :
    (readBody limit form heading span).eval r = some (form.readBody r heading span) := by
  cases form with
  | imports =>
    rw [readBody, BlockForm.readBody]
    cases span.mapM pathToken? with
    | none => rfl
    | some symbols => cases symbols <;> rfl
  | closure =>
    rw [readBody, headerAndBody_eq, Run.bind_done, BlockForm.readBody]
    dsimp only
    cases soleName? (Offside.headerAndBody span).1 with
    | none => rfl
    | some name => exact Run.eval_bind_of_eval (eval_readSymbols _) fun symbols => rfl
  | conditional =>
    rw [readBody, headerAndBody_eq, Run.bind_done, BlockForm.readBody]
    dsimp only
    split
    next => rfl
    next =>
      refine Run.eval_bind_of_eval (Run.eval_valueAt _ _) fun condition => ?_
      exact Run.eval_bind_of_eval (Run.eval_valueAt _ _) fun value => rfl
  | otherwise => exact Run.eval_bind_of_eval (Run.eval_valueAt _ _) fun value => rfl
  | sequence =>
    have hsteps : Fits limit (bracketCount (ungroup span)) :=
      fits_of_leaves h (leaves_ungroup span ▸ .refl _)
    rw [readBody, split_eq hsteps, Run.bind_done, BlockForm.readBody]
    refine Run.eval_bind_of_eval (Run.eval_mapM fun part _ => Run.eval_valueAt _ _) fun steps => ?_
    split
    next => rfl
    next => rfl
  | each =>
    rw [readBody, headerAndBody_eq, Run.bind_done, BlockForm.readBody]
    dsimp only
    cases hi : iteration? (Offside.headerAndBody span).1 with
    | none => rfl
    | some iteration =>
      obtain ⟨iterator, part⟩ := iteration
      dsimp only
      split
      next => rfl
      next =>
        rw [behind_of_iteration? hi, Run.bind_done]
        refine Run.eval_bind_of_eval (Run.eval_valueAt _ _) fun iteratee => ?_
        exact Run.eval_bind_of_eval (Run.eval_valueAt _ _) fun value => rfl
  | repetition =>
    rw [readBody, headerAndBody_eq, Run.bind_done, BlockForm.readBody]
    dsimp only
    split
    next => rfl
    next =>
      refine Run.eval_bind_of_eval (Run.eval_valueAt _ _) fun count => ?_
      exact Run.eval_bind_of_eval (Run.eval_valueAt _ _) fun value => rfl
  | function =>
    rw [readBody, functionParts?_eq h, Run.bind_done, BlockForm.readBody]
    cases Offside.functionParts? span with
    | none => rfl
    | some parts => exact Run.eval_bind_of_eval (Run.eval_valueAt _ _) fun value => rfl

theorem eval_blockRun (h : Fits limit (bracketCount span)) :
    (blockRun limit span).eval r = some (blockStep r span) := by
  cases span with
  | nil => rfl
  | cons tree rest =>
    cases tree with
    | group items => rfl
    | token t =>
      rw [blockRun, blockStep, List.head?_cons]
      dsimp only
      cases BlockForm.introducedBy? t with
      | none => rfl
      | some form =>
        dsimp only
        rw [readHeading_eq, BlockForm.read]
        cases hh : Offside.readHeading form (.token t :: rest) with
        | error d => rfl
        | ok parts =>
          obtain ⟨heading, body⟩ := parts
          obtain ⟨t', rest', hspan, -, hsuffix, -⟩ :=
            heading?_parts (heading?_of_readHeading hh)
          obtain ⟨-, rfl⟩ := List.cons.inj hspan
          exact eval_readBody (fits_of_leaves h
            (leaves_sublist (hsuffix.sublist.cons (.token t)))) form heading

theorem eval_simpleRun {compound : Run Value} {compound' : List Tree → Outcome Value}
    (h : compound.eval r = some (compound' span)) :
    (simpleRun span compound).eval r = some (readSimple r span compound') := by
  rw [simpleRun, readSimple]
  cases literal? span with
  | some value => rfl
  | none =>
    cases inParens? span with
    | some inner => exact Run.eval_valueOf inner
    | none => exact h

theorem eval_constructRun (h : Fits limit (bracketCount span)) :
    (constructRun limit span).eval r = some (readConstruct r span) := by
  rw [constructRun, shape?_eq h, Run.bind_done, readConstruct]
  cases hs : Offside.shape? span with
  | none => rfl
  | some shape =>
    exact Run.eval_bind_of_eval (eval_readShape (drawnFrom_of_shape? hs) h) fun construct => rfl

theorem eq_of_soleGroup? {items : List Tree} (h : soleGroup? span = some items) :
    span = [.group items] := by
  unfold soleGroup? at h
  split at h
  next => rw [Option.some.inj h]
  next => cases h

/-- Only a group around the whole is taken off a span without line breaks. -/
theorem unwrap_eq_self (hj : joinLines span = span) (hs : soleGroup? span = none) :
    unwrap span = span := by
  cases span with
  | nil => rfl
  | cons first rest =>
    have plain := List.filter_eq_self.mp hj
    have hrest : joinLines rest = rest :=
      List.filter_eq_self.mpr fun tree hm => plain tree (List.mem_cons_of_mem _ hm)
    rw [unwrap, if_neg (by simpa using plain first List.mem_cons_self), hrest]
    cases rest with
    | cons next rest => rfl
    | nil =>
      cases first with
      | token t => rfl
      | group items => cases hs

theorem eval_flat (h : Fits limit (bracketCount span)) :
    (do
      let flat ← spread span
      let grouped ← regroup limit flat.1
      simpleRun grouped (constructRun limit grouped)).eval r = some (readFlat r span) := by
  have hflat := fits_of_leaves h (leaves_spread_sublist span)
  have hgrouped : Fits limit (bracketCount (Offside.regroup (Offside.spread span).1)) :=
    fits_of_leaves hflat (by rw [leaves_regroup])
  rw [spread_eq, Run.bind_done, regroup_eq hflat, Run.bind_done]
  exact eval_simpleRun (eval_constructRun hgrouped)

theorem eval_valueRun (h : Fits limit (bracketCount span)) :
    (valueRun limit span).eval readers = some (readValue span) := by
  have hline := fits_of_leaves h (leaves_sublist (joinLines_sublist span))
  rw [← readValue_joinLines, valueRun]
  have hj := joinLines_joinLines span
  generalize joinLines span = line at *
  cases hs : soleGroup? line with
  | some items =>
    obtain rfl := eq_of_soleGroup? hs
    rw [readValue_congr (unwrap_group items)]
    exact Run.eval_valueOf items
  | none =>
    rw [readValue_eq, valueStep, unwrap_eq_self hj hs]
    cases line with
    | nil => rfl
    | cons first rest =>
      rw [List.head?_cons]
      dsimp only
      split
      next =>
        rw [← readBlock_eq]
        exact Run.eval_bind_of_eval (Run.eval_blockOf _) fun block => rfl
      next => exact eval_simpleRun (eval_flat hline)

end

end Stepwise

end Offside
