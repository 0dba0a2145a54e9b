import Mathlib.Data.List.Forall2
import Mathlib.Data.List.TakeDrop
import Mathlib.Data.List.TakeWhile
import Offside.BlockReading
import Offside.ConstructReading
import Offside.Regrouping

namespace Offside

/-- Whether a change of tokens leaves what they say. -/
class KeepsWords (f : Token → Token) : Prop where
  kind : ∀ t, (f t).kind = t.kind
  text : ∀ t, (f t).text = t.text

theorem forall₂_takeWhile {α β : Type} {related : α → β → Prop} {p : α → Bool} {q : β → Bool}
    {xs : List α} {ys : List β} (h : List.Forall₂ related xs ys)
    (agree : ∀ x y, related x y → p x = q y) :
    List.Forall₂ (fun x y => related x y ∧ p x = true) (xs.takeWhile p) (ys.takeWhile q) ∧
      List.Forall₂ related (xs.dropWhile p) (ys.dropWhile q) := by
  induction h with
  | nil => exact ⟨.nil, .nil⟩
  | @cons x y xs ys hxy hxs ih =>
    rw [List.takeWhile_cons, List.takeWhile_cons, List.dropWhile_cons, List.dropWhile_cons,
      agree x y hxy]
    split
    next hq => exact ⟨.cons ⟨hxy, (agree x y hxy).trans hq⟩ ih.1, ih.2⟩
    next => exact ⟨.nil, .cons hxy hxs⟩

mutual

/-- A tree with its tokens changed. -/
def Tree.mapTokens (f : Token → Token) : Tree → Tree
  | .token t => .token (f t)
  | .group items => .group (mapTokens f items)

def mapTokens (f : Token → Token) : List Tree → List Tree
  | [] => []
  | tree :: span => tree.mapTokens f :: mapTokens f span

end

section

variable {f : Token → Token}

@[simp] theorem mapTokens_eq_map (span : List Tree) :
    mapTokens f span = span.map (Tree.mapTokens f) := by
  induction span with
  | nil => rfl
  | cons tree span ih => rw [mapTokens, ih, List.map_cons]

@[simp] theorem Tree.mapTokens_token (t : Token) :
    (Tree.token t).mapTokens f = .token (f t) := rfl

@[simp] theorem Tree.mapTokens_group (items : List Tree) :
    (Tree.group items).mapTokens f = .group (items.map (Tree.mapTokens f)) := by
  rw [Tree.mapTokens, mapTokens_eq_map]

theorem map_mapTokens_token (tokens : List Token) :
    (tokens.map Tree.token).map (Tree.mapTokens f) = (tokens.map f).map .token := by
  rw [List.map_map, List.map_map]
  rfl

namespace Tree

variable (tree : Tree)

@[simp] theorem isGroup_mapTokens : (tree.mapTokens f).isGroup = tree.isGroup := by
  cases tree <;> rfl

@[simp] theorem parts_mapTokens : (tree.mapTokens f).parts = tree.parts.map (Tree.mapTokens f) := by
  cases tree with
  | token t => rfl
  | group items => rw [mapTokens_group, parts, parts]

end Tree

mutual

theorem Tree.leaves_mapTokens (tree : Tree) :
    (tree.mapTokens f).leaves = tree.leaves.map f := by
  cases tree with
  | token t => rfl
  | group items =>
    rw [Tree.mapTokens_group, Tree.leaves, Tree.leaves, Offside.leaves_mapTokens items]

theorem leaves_mapTokens (span : List Tree) :
    leaves (span.map (Tree.mapTokens f)) = (leaves span).map f := by
  cases span with
  | nil => rfl
  | cons tree span =>
    rw [List.map_cons, leaves, leaves, List.map_append, Tree.leaves_mapTokens tree,
      leaves_mapTokens span]

end

@[simp] theorem leafCount_mapTokens (span : List Tree) :
    leafCount (span.map (Tree.mapTokens f)) = leafCount span := by
  rw [leafCount, leafCount, leaves_mapTokens, List.length_map]

@[simp] theorem firstLeaf?_mapTokens (span : List Tree) :
    firstLeaf? (span.map (Tree.mapTokens f)) = (firstLeaf? span).map f := by
  rw [firstLeaf?, firstLeaf?, leaves_mapTokens, List.head?_map]

@[simp] theorem ungroup_mapTokens (span : List Tree) :
    ungroup (span.map (Tree.mapTokens f)) = (ungroup span).map (Tree.mapTokens f) := by
  rw [ungroup, ungroup, List.flatMap_map, List.map_flatMap]
  simp only [Tree.parts_mapTokens]

theorem filter_mapTokens {p : Tree → Bool} (h : ∀ tree : Tree, p (tree.mapTokens f) = p tree)
    (span : List Tree) :
    (span.map (Tree.mapTokens f)).filter p = (span.filter p).map (Tree.mapTokens f) := by
  rw [List.filter_map, show p ∘ Tree.mapTokens f = p from funext h]

theorem takeWhile_mapTokens {p : Tree → Bool} (h : ∀ tree : Tree, p (tree.mapTokens f) = p tree)
    (span : List Tree) :
    (span.map (Tree.mapTokens f)).takeWhile p = (span.takeWhile p).map (Tree.mapTokens f) := by
  rw [List.takeWhile_map, show p ∘ Tree.mapTokens f = p from funext h]

theorem dropWhile_mapTokens {p : Tree → Bool} (h : ∀ tree : Tree, p (tree.mapTokens f) = p tree)
    (span : List Tree) :
    (span.map (Tree.mapTokens f)).dropWhile p = (span.dropWhile p).map (Tree.mapTokens f) := by
  rw [List.dropWhile_map, show p ∘ Tree.mapTokens f = p from funext h]

/-! Everything that takes trees apart finds the same parts when what the tokens say is kept. -/

variable [KeepsWords f]

theorem hasKindIn_of_keepsWords (t : Token) (kinds : List Kind) :
    (f t).hasKindIn kinds = t.hasKindIn kinds := by
  rw [Token.hasKindIn, Token.hasKindIn, KeepsWords.kind]

theorem BlockForm.introducedBy?_of_keepsWords (t : Token) :
    introducedBy? (f t) = introducedBy? t := by
  rw [introducedBy?, introducedBy?, KeepsWords.kind, KeepsWords.text]

namespace Tree

variable (tree : Tree)

@[simp] theorem hasKind_mapTokens (kind : Kind) :
    (tree.mapTokens f).hasKind kind = tree.hasKind kind := by
  cases tree with
  | token t => rw [mapTokens_token, hasKind, hasKind, KeepsWords.kind]
  | group items => rfl

@[simp] theorem opensBlock_mapTokens : (tree.mapTokens f).opensBlock = tree.opensBlock := by
  cases tree with
  | token t =>
    rw [mapTokens_token, opensBlock, opensBlock, block?, block?,
      BlockForm.introducedBy?_of_keepsWords]
  | group items => rfl

@[simp] theorem name?_mapTokens : (tree.mapTokens f).name? = tree.name?.map f := by
  cases tree with
  | token t =>
    rw [mapTokens_token, name?, name?, KeepsWords.kind]
    split <;> rfl
  | group items => rfl

end Tree

@[simp] theorem soleName?_mapTokens (span : List Tree) :
    soleName? (span.map (Tree.mapTokens f)) = soleName? span := by
  match span with
  | [] => rfl
  | [tree] =>
    simp only [List.map_cons, List.map_nil, soleName?, Tree.name?_mapTokens, Option.map_map,
      Function.comp_def, KeepsWords.text]
  | _ :: _ :: _ => rfl

@[simp] theorem joinLines_mapTokens (span : List Tree) :
    joinLines (span.map (Tree.mapTokens f)) = (joinLines span).map (Tree.mapTokens f) :=
  filter_mapTokens (fun tree => by rw [Tree.hasKind_mapTokens]) span

end

section

variable {f : Token → Token}

mutual

theorem Tree.unwrap_mapTokens [KeepsWords f] (tree : Tree) :
    (tree.mapTokens f).unwrap = tree.unwrap.map (Tree.mapTokens f) := by
  cases tree with
  | token t => rfl
  | group items =>
    rw [Tree.mapTokens_group, Tree.unwrap, Tree.unwrap, Offside.unwrap_mapTokens items]

theorem unwrap_mapTokens [KeepsWords f] (span : List Tree) :
    unwrap (span.map (Tree.mapTokens f)) = (unwrap span).map (Tree.mapTokens f) := by
  cases span with
  | nil => rfl
  | cons tree span =>
    rw [List.map_cons, unwrap, unwrap, Tree.hasKind_mapTokens, joinLines_mapTokens]
    split
    next => exact unwrap_mapTokens span
    next =>
      cases joinLines span with
      | nil => exact Tree.unwrap_mapTokens tree
      | cons next rest => rfl

end

mutual

theorem Tree.spread_mapTokens [KeepsWords f] (tree : Tree) :
    (tree.mapTokens f).spread = (tree.spread.1.map (Tree.mapTokens f), tree.spread.2) := by
  cases tree with
  | token t =>
    rw [Tree.mapTokens_token, Tree.spread, Tree.spread, KeepsWords.kind,
      BlockForm.introducedBy?_of_keepsWords]
    split <;> rfl
  | group items =>
    rw [Tree.mapTokens_group, Tree.spread, Tree.spread, Offside.spread_mapTokens items]

theorem spread_mapTokens [KeepsWords f] (span : List Tree) :
    spread (span.map (Tree.mapTokens f)) =
      ((spread span).1.map (Tree.mapTokens f), (spread span).2) := by
  cases span with
  | nil => rfl
  | cons tree span =>
    rw [List.map_cons, spread, spread, Tree.spread_mapTokens tree, spread_mapTokens span]
    obtain ⟨items, met⟩ := tree.spread
    cases met <;> simp

end

end

section

variable {f : Token → Token} [KeepsWords f]

@[simp] theorem closerIndex?_mapTokens (opening closing : Kind) (inner : Nat) (span : List Tree) :
    closerIndex? opening closing inner (span.map (Tree.mapTokens f)) =
      closerIndex? opening closing inner span := by
  induction span generalizing inner with
  | nil => rfl
  | cons tree span ih =>
    cases inner with
    | zero => simp only [List.map_cons, closerIndex?, Tree.hasKind_mapTokens, ih]
    | succ inner => simp only [List.map_cons, closerIndex?, Tree.hasKind_mapTokens, ih]

theorem regroup_mapTokens (span : List Tree) :
    regroup (span.map (Tree.mapTokens f)) = (regroup span).map (Tree.mapTokens f) := by
  fun_induction regroup span with
  | case1 => rw [List.map_nil, regroup]
  | case2 tree span hblock => rw [List.map_cons, regroup, Tree.opensBlock_mapTokens, if_pos hblock]
  | case3 tree span hblock hopen n hn ihin ihout =>
    rw [List.map_cons, regroup, Tree.opensBlock_mapTokens, if_neg hblock, Tree.hasKind_mapTokens,
      if_pos hopen, closerIndex?_mapTokens, hn]
    dsimp only
    rw [← List.map_take, ← List.map_drop, ihin, ihout]
    simp
  | case4 tree span hblock hopen hn hempty =>
    rw [List.map_cons, regroup, Tree.opensBlock_mapTokens, if_neg hblock, Tree.hasKind_mapTokens,
      if_pos hopen, closerIndex?_mapTokens, hn]
    simp only [List.isEmpty_map, hempty, if_true, List.map_cons, List.map_nil]
  | case5 tree span hblock hopen hn hempty ih =>
    rw [List.map_cons, regroup, Tree.opensBlock_mapTokens, if_neg hblock, Tree.hasKind_mapTokens,
      if_pos hopen, closerIndex?_mapTokens, hn]
    dsimp only
    rw [List.isEmpty_map, if_neg hempty, ih]
    simp
  | case6 tree span hblock hopen ih =>
    rw [List.map_cons, regroup, Tree.opensBlock_mapTokens, if_neg hblock, Tree.hasKind_mapTokens,
      if_neg hopen, ih, List.map_cons]

theorem inParens?_mapTokens (span : List Tree) :
    inParens? (span.map (Tree.mapTokens f)) =
      (inParens? span).map (List.map (Tree.mapTokens f)) := by
  match span with
  | [left, .group items, right] =>
    simp only [List.map_cons, List.map_nil, Tree.mapTokens_group, inParens?, Tree.hasKind_mapTokens]
    split <;> rfl
  | [] => rfl
  | [_] => rfl
  | [_, .token _] => rfl
  | [_, .group _] => rfl
  | [_, .token _, _] => rfl
  | _ :: .token _ :: _ :: _ :: _ => rfl
  | _ :: .group _ :: _ :: _ :: _ => rfl

@[simp] theorem Depth.after_mapTokens (depth : Depth) (tree : Tree) :
    depth.after (tree.mapTokens f) = depth.after tree := by
  cases tree with
  | token t => rw [Tree.mapTokens_token, after, after, KeepsWords.kind]
  | group items => rfl

theorem depths_mapTokens (depth : Depth) (span : List Tree) :
    depths depth (span.map (Tree.mapTokens f)) =
      (depths depth span).map (Prod.map (Tree.mapTokens f) id) := by
  induction span generalizing depth with
  | nil => rfl
  | cons tree span ih =>
    rw [List.map_cons, depths, depths, Depth.after_mapTokens, ih, List.map_cons]
    rfl

theorem separator?_mapTokens (kinds : List Kind) (item : Tree × Depth) :
    separator? kinds (Prod.map (Tree.mapTokens f) id item) =
      (separator? kinds item).map f := by
  obtain ⟨tree, depth⟩ := item
  cases tree with
  | token t =>
    rw [Prod.map_apply, Tree.mapTokens_token, separator?, separator?, hasKindIn_of_keepsWords]
    split <;> simp_all
  | group items => rfl

theorem sections_map {α β α' β' : Type} {separator? : α → Option β} {separator?' : α' → Option β'}
    {f : α → α'} {g : β → β'} (h : ∀ x, separator?' (f x) = (separator? x).map g) (xs : List α) :
    sections separator?' (xs.map f) =
      ((sections separator? xs).1.map f,
        (sections separator? xs).2.map (Prod.map g (List.map f))) := by
  induction xs with
  | nil => rfl
  | cons x xs ih =>
    rw [List.map_cons, sections, sections, ih, h]
    cases separator? x <;> rfl

theorem cut_mapTokens (kinds : List Kind) (span : List Tree) :
    cut kinds (span.map (Tree.mapTokens f)) =
      ((cut kinds span).1.map (Tree.mapTokens f),
        (cut kinds span).2.map (Prod.map f (List.map (Tree.mapTokens f)))) := by
  rw [cut, cut, depths_mapTokens, sections_map (separator?_mapTokens kinds)]
  simp [Function.comp_def]

theorem split_mapTokens (kinds : List Kind) (keep : Bool) (span : List Tree) :
    split kinds keep (span.map (Tree.mapTokens f)) =
      (split kinds keep span).map (List.map (Tree.mapTokens f)) := by
  rw [split, split, cut_mapTokens, List.isEmpty_map]
  cases span.isEmpty <;> cases keep <;> simp

@[simp] theorem topIndex?_mapTokens (kinds : List Kind) (span : List Tree) :
    topIndex? kinds (span.map (Tree.mapTokens f)) = topIndex? kinds span := by
  rw [topIndex?, topIndex?, depths_mapTokens, List.findIdx?_map]
  congr 1
  funext item
  rw [Function.comp_apply, separator?_mapTokens, Option.isSome_map]

theorem divide?_mapTokens (kinds : List Kind) (span : List Tree) :
    divide? kinds (span.map (Tree.mapTokens f)) = (divide? kinds span).map fun (left, t, right) =>
      (left.map (Tree.mapTokens f), f t, right.map (Tree.mapTokens f)) := by
  rw [divide?, divide?, topIndex?_mapTokens]
  cases topIndex? kinds span with
  | none => rfl
  | some i =>
    simp only [Option.bind_eq_bind, Option.bind_some, ← List.map_drop, ← List.map_take]
    rcases span.drop i with _ | ⟨t | items, rest⟩
    · rfl
    · rfl
    · simp

end

/-! So the parts of composite expressions and blocks are the same. -/

def Shape.mapTokens (f : Token → Token) : Shape → Shape
  | returning keyword value => .returning (keyword.mapTokens f) (value.map (Tree.mapTokens f))
  | call callee opener arguments =>
    .call (callee.map (Tree.mapTokens f)) (opener.mapTokens f) (arguments.map (Tree.mapTokens f))
  | access subject opener key =>
    .access (subject.map (Tree.mapTokens f)) (opener.mapTokens f) (key.map (Tree.mapTokens f))
  | chain subject accessors =>
    .chain (subject.map (Tree.mapTokens f)) (accessors.map f)
  | lambda parameters arrow body =>
    .lambda parameters (f arrow) (body.map (Tree.mapTokens f))
  | dictionary opener entries => .dictionary (opener.mapTokens f) (entries.map (Tree.mapTokens f))
  | operation span => .operation (span.map (Tree.mapTokens f))
  | assignment left t right =>
    .assignment (left.map (Tree.mapTokens f)) (f t) (right.map (Tree.mapTokens f))

section

variable {f : Token → Token} [KeepsWords f] (span : List Tree)

@[simp] theorem canBeSubject_mapTokens :
    canBeSubject (span.map (Tree.mapTokens f)) = canBeSubject span := by
  rw [canBeSubject, canBeSubject, List.isEmpty_map, topIndex?_mapTokens]

@[simp] theorem hasArrow_mapTokens : hasArrow (span.map (Tree.mapTokens f)) = hasArrow span := by
  rw [hasArrow, hasArrow, topIndex?_mapTokens]

theorem accessors?_mapTokens :
    accessors? (span.map (Tree.mapTokens f)) = (accessors? span).map (List.map f) := by
  fun_induction accessors? span with
  | case1 => rfl
  | case2 => simp [accessors?]
  | case3 t span hdot ih => simp [accessors?, KeepsWords.kind, hdot, ih]
  | case4 t span hdot hvalue ih =>
    simp only [List.map_cons, Tree.mapTokens_token, accessors?, KeepsWords.kind, hdot, hvalue,
      if_true, if_false, ih, Option.map_map]
    rfl
  | case5 t span hdot hvalue => simp [accessors?, KeepsWords.kind, hdot, hvalue]

theorem parameters?_mapTokens : parameters? (span.map (Tree.mapTokens f)) = parameters? span := by
  rw [parameters?, parameters?, leaves_mapTokens]
  match leaves span with
  | [] => rfl
  | [t] => simpa using congrArg (Option.map ([·])) (@soleName?_mapTokens f _ [.token t])
  | first :: second :: rest =>
    have hsplit := @split_mapTokens f _ [.comma] false ((second :: rest).dropLast.map .token)
    rw [map_mapTokens_token] at hsplit
    simp only [List.map_cons, KeepsWords.kind] at *
    rw [← List.map_cons, List.getLast?_map, ← List.map_dropLast, hsplit, Option.any_map]
    have hmapM : ∀ parts : List (List Tree),
        (parts.map (List.map (Tree.mapTokens f))).mapM soleName? = parts.mapM soleName? := by
      intro parts
      rw [List.mapM_map]
      congr 1
      funext part
      exact soleName?_mapTokens part
    simp only [hmapM, KeepsWords.kind]

theorem returning?_mapTokens :
    returning? (span.map (Tree.mapTokens f)) = (returning? span).map (Shape.mapTokens f) := by
  cases span with
  | nil => rfl
  | cons keyword value =>
    rw [List.map_cons, returning?, returning?, Tree.hasKind_mapTokens]
    split <;> rfl

theorem call?_mapTokens :
    call? (span.map (Tree.mapTokens f)) = (call? span).map (Shape.mapTokens f) := by
  rw [call?, call?, hasArrow_mapTokens, ← List.map_reverse]
  rcases span.reverse with _ | ⟨closer, _ | ⟨t | arguments, _ | ⟨opener, before⟩⟩⟩
  · rfl
  · rfl
  · rfl
  · rfl
  · simp
  · simp only [List.map_cons, Tree.mapTokens_group, Tree.hasKind_mapTokens, ← List.map_reverse,
      canBeSubject_mapTokens]
    split <;> rfl

theorem openOfLast?_mapTokens : openOfLast? (span.map (Tree.mapTokens f)) = openOfLast? span := by
  rw [openOfLast?, openOfLast?, ← List.map_reverse]
  cases span.reverse with
  | nil => rfl
  | cons last rest => simp

theorem access?_mapTokens :
    access? (span.map (Tree.mapTokens f)) = (access? span).map (Shape.mapTokens f) := by
  rw [access?, access?, openOfLast?_mapTokens]
  cases openOfLast? span with
  | none => rfl
  | some i =>
    simp only [Option.bind_eq_bind, Option.bind_some, ← List.map_drop, ← List.map_take]
    cases span.drop i with
    | nil => rfl
    | cons opener rest =>
      simp only [List.map_cons, hasArrow_mapTokens, canBeSubject_mapTokens]
      split <;> simp [Shape.mapTokens, List.map_dropLast]

theorem chain?_mapTokens :
    chain? (span.map (Tree.mapTokens f)) = (chain? span).map (Shape.mapTokens f) := by
  rw [chain?, chain?, divide?_mapTokens]
  rcases divide? [.dot] span with _ | ⟨subject, dot, rest⟩
  · rfl
  · simp only [Option.bind_eq_bind, Option.map_some, Option.bind_some, hasArrow_mapTokens,
      canBeSubject_mapTokens, accessors?_mapTokens]
    split
    next => rfl
    next =>
      cases accessors? rest with
      | none => rfl
      | some accessors => cases accessors <;> rfl

theorem lambda?_mapTokens :
    lambda? (span.map (Tree.mapTokens f)) = (lambda? span).map (Shape.mapTokens f) := by
  rw [lambda?, lambda?, divide?_mapTokens]
  rcases divide? [.arrow] span with _ | ⟨head, arrow, body⟩
  · rfl
  · simp only [Option.bind_eq_bind, Option.map_some, Option.bind_some, parameters?_mapTokens]
    cases parameters? head <;> rfl

theorem closeOf?_mapTokens (i : Nat) :
    closeOf? (span.map (Tree.mapTokens f)) i = closeOf? span i := by
  rw [closeOf?, closeOf?, ← List.map_drop]
  rcases span.drop i with _ | ⟨t | items, rest⟩
  · rfl
  · simp [KeepsWords.kind]
  · simp

theorem dictionary?_mapTokens :
    dictionary? (span.map (Tree.mapTokens f)) = (dictionary? span).map (Shape.mapTokens f) := by
  cases span with
  | nil => rfl
  | cons opener rest =>
    have hclose := @closeOf?_mapTokens f _ (opener :: rest) 0
    rw [List.map_cons] at hclose ⊢
    rw [dictionary?, dictionary?, Tree.hasKind_mapTokens, hclose, List.length_map]
    split
    next => rw [Option.map_some, Shape.mapTokens, List.map_dropLast]
    next => rfl

theorem operation?_mapTokens :
    operation? (span.map (Tree.mapTokens f)) = (operation? span).map (Shape.mapTokens f) := by
  rw [operation?, operation?, divide?_mapTokens]
  rcases divide? [.operator, .assignment] span with _ | ⟨left, t, right⟩
  · rfl
  · by_cases hk : t.kind = .operator <;> simp [KeepsWords.kind, hk, Shape.mapTokens]

theorem assignment?_mapTokens :
    assignment? (span.map (Tree.mapTokens f)) = (assignment? span).map (Shape.mapTokens f) := by
  rw [assignment?, assignment?, divide?_mapTokens]
  rcases divide? [.operator, .assignment] span with _ | ⟨left, t, right⟩
  · rfl
  · by_cases hk : t.kind = .assignment <;> simp [KeepsWords.kind, hk, Shape.mapTokens]

theorem shape?_mapTokens :
    shape? (span.map (Tree.mapTokens f)) = (shape? span).map (Shape.mapTokens f) := by
  have each : ∀ form : ConstructForm,
      form.shape? (span.map (Tree.mapTokens f)) = (form.shape? span).map (Shape.mapTokens f) := by
    intro form
    cases form with
    | returning => exact returning?_mapTokens span
    | call => exact call?_mapTokens span
    | access => exact access?_mapTokens span
    | chain => exact chain?_mapTokens span
    | lambda => exact lambda?_mapTokens span
    | dictionary => exact dictionary?_mapTokens span
    | operation => exact operation?_mapTokens span
    | assignment => exact assignment?_mapTokens span
  rw [shape?, shape?, List.map_findSome?]
  congr 1
  funext form
  exact each form

theorem labelled?_mapTokens : labelled? (span.map (Tree.mapTokens f)) =
    (labelled? span).map fun (t, rest) => (f t, rest.map (Tree.mapTokens f)) := by
  match span with
  | [] => rfl
  | [_] => rfl
  | label :: colon :: rest =>
    simp only [List.map_cons, labelled?, Tree.name?_mapTokens, Tree.hasKind_mapTokens,
      Option.bind_eq_bind]
    cases label.name? with
    | none => rfl
    | some t =>
      simp only [Option.map_some, Option.bind_some]
      split <;> rfl

theorem declarations?_mapTokens : declarations? (span.map (Tree.mapTokens f)) =
    (declarations? span).map fun (names, body) =>
      (names.map f, body.map (Tree.mapTokens f)) := by
  cases span with
  | nil => rfl
  | cons first rest =>
    have apart : ∀ tree : Tree, (!(tree.mapTokens f).hasKind .closeBracket) =
        !tree.hasKind .closeBracket := fun tree => by rw [Tree.hasKind_mapTokens]
    rw [List.map_cons, declarations?, declarations?, Tree.hasKind_mapTokens,
      dropWhile_mapTokens apart, takeWhile_mapTokens apart]
    split
    next =>
      cases rest.dropWhile (!·.hasKind .closeBracket) with
      | nil => rfl
      | cons closer body =>
        simp only [List.map_cons, Option.map_some, List.filterMap_map, List.map_filterMap]
        congr 3
        funext tree
        exact Tree.name?_mapTokens tree
    next => rfl

theorem heading?_mapTokens {σ : Position → Position}
    (h : ∀ t : Token, t.kind = .keyword → (f t).span.start = σ t.span.start) (form : BlockForm) :
    heading? form (span.map (Tree.mapTokens f)) =
      (heading? form span).map fun (heading, body) =>
        (⟨heading.declarations.map f, σ heading.origin⟩, body.map (Tree.mapTokens f)) := by
  match span with
  | [] => rfl
  | .group items :: rest => simp [heading?]
  | .token t :: rest =>
    rw [List.map_cons, Tree.mapTokens_token, heading?, heading?, declarations?_mapTokens,
      KeepsWords.kind, KeepsWords.text]
    split
    next hk =>
      have hstart := h t (by simpa using (Bool.and_eq_true_iff.mp hk).1)
      rw [Option.map_map, Option.map_map]
      simp only [Function.comp_def, hstart]
    next => rfl

omit [KeepsWords f] in
theorem headerAndBody_mapTokens : headerAndBody (span.map (Tree.mapTokens f)) =
    ((headerAndBody span).1.map (Tree.mapTokens f),
      (headerAndBody span).2.map (Tree.mapTokens f)) := by
  have apart : ∀ tree : Tree, (!(tree.mapTokens f).isGroup) = !tree.isGroup :=
    fun tree => by rw [Tree.isGroup_mapTokens]
  simp only [headerAndBody, List.span_eq_takeWhile_dropWhile,
    takeWhile_mapTokens (p := (!·.isGroup)) apart, dropWhile_mapTokens (p := (!·.isGroup)) apart]

theorem stepsOf_mapTokens :
    stepsOf (span.map (Tree.mapTokens f)) = (stepsOf span).map (List.map (Tree.mapTokens f)) := by
  rw [stepsOf, stepsOf, ungroup_mapTokens, split_mapTokens, List.filter_map]
  congr 2
  funext part
  rw [Function.comp_apply, List.isEmpty_map]

theorem pathToken?_mapTokens (tree : Tree) :
    pathToken? (tree.mapTokens f) = (pathToken? tree).map f := by
  cases tree with
  | token t =>
    rw [Tree.mapTokens_token, pathToken?, pathToken?, hasKindIn_of_keepsWords]
    split <;> rfl
  | group items => rfl

omit [KeepsWords f] in
theorem mapM_option_mapTokens {g : Tree → Option Token}
    (h : ∀ tree, g (tree.mapTokens f) = (g tree).map f) :
    (span.map (Tree.mapTokens f)).mapM g = (span.mapM g).map (List.map f) := by
  induction span with
  | nil => rfl
  | cons tree span ih =>
    rw [List.map_cons, List.mapM_cons, List.mapM_cons, ih, h]
    cases g tree with
    | none => rfl
    | some t => cases span.mapM g <;> rfl

theorem signature?_mapTokens : signature? (span.map (Tree.mapTokens f)) =
    (signature? span).map fun (parameters, inline) =>
      (parameters, inline.map (Tree.mapTokens f)) := by
  cases span with
  | nil => rfl
  | cons first rest =>
    have apart : ∀ tree : Tree, (!(tree.mapTokens f).hasKind .comma) = !tree.hasKind .comma :=
      fun tree => by rw [Tree.hasKind_mapTokens]
    rw [List.map_cons, signature?, signature?, Tree.hasKind_mapTokens, closerIndex?_mapTokens]
    split
    next =>
      cases closerIndex? .openParen .closeParen 0 rest with
      | none => rfl
      | some n =>
        simp only [Option.bind_eq_bind, Option.bind_some, ← List.map_take,
          filter_mapTokens (p := (!·.hasKind .comma)) apart,
          mapM_option_mapTokens _ Tree.name?_mapTokens, ← List.map_drop]
        cases ((rest.take n).filter (!·.hasKind .comma)).mapM Tree.name? with
        | none => rfl
        | some names => simp [Function.comp_def, KeepsWords.text]
    next => rfl

theorem iteration?_mapTokens : iteration? (span.map (Tree.mapTokens f)) =
    (iteration? span).map fun (iterator, iteratee) =>
      (iterator, iteratee.map (Tree.mapTokens f)) := by
  match span with
  | [] => rfl
  | [_] => rfl
  | iterator :: word :: iteratee =>
    simp only [List.map_cons, iteration?, Tree.name?_mapTokens, Option.bind_eq_bind,
      List.isEmpty_map]
    cases iterator.name? with
    | none => rfl
    | some t =>
      simp only [Option.map_some, Option.bind_some, KeepsWords.text]
      split <;> rfl

theorem functionParts?_mapTokens : functionParts? (span.map (Tree.mapTokens f)) =
    (functionParts? span).map fun (name, parameters, part) =>
      (name, parameters, part.map (Tree.mapTokens f)) := by
  rw [functionParts?, functionParts?, headerAndBody_mapTokens]
  rcases headerAndBody span with ⟨_ | ⟨first, header⟩, body⟩
  · rfl
  · simp only [List.map_cons, Tree.name?_mapTokens, Option.bind_eq_bind, signature?_mapTokens]
    cases first.name? with
    | none => rfl
    | some t =>
      rcases signature? header with _ | ⟨parameters, inline⟩
      · rfl
      · simp [KeepsWords.text]

end

end Offside
