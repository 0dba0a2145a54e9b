import Offside.Proofs.Pairing

namespace Offside

/-- Whether no block begins in a span. -/
def IsBlockless (span : List Tree) : Prop :=
  ∀ t ∈ leaves span, BlockForm.introducedBy? t = none

/-- The tokens ahead of the first block, those that break a line apart. -/
def aheadOfBlock (span : List Tree) : List Token :=
  ((leaves span).takeWhile fun t => (BlockForm.introducedBy? t).isNone).filter
    (·.kind != .newline)

mutual

/-- The keyword of the first block in a tree, and behind it what follows in each group around it,
from the inside outwards. -/
def Tree.fromBlock : Tree → List Tree
  | .token t => if (BlockForm.introducedBy? t).isSome then [.token t] else []
  | .group items => fromBlock items

def fromBlock : List Tree → List Tree
  | [] => []
  | tree :: span => if tree.fromBlock.isEmpty then fromBlock span else tree.fromBlock ++ span

end

/-- A span without the groups that its first block stands in. -/
def unnested (span : List Tree) : List Tree :=
  (aheadOfBlock span).map .token ++ fromBlock span

/-- How many parentheses are open behind an item. Nothing is counted from the first block on that
stands outside of them. -/
def parensAfter : Option Nat → Tree → Option Nat
  | none, _ => none
  | some 0, tree =>
    if tree.opensBlock then none else if tree.hasKind .openParen then some 1 else some 0
  | some (n + 1), tree =>
    if tree.hasKind .openParen then some (n + 2)
    else if tree.hasKind .closeParen then some n
    else some (n + 1)

/-- Whether what follows a span stands outside of its parentheses, or behind a block that does. -/
def EndsOutside (span : List Tree) : Prop :=
  ∀ n, span.foldl parensAfter (some 0) ≠ some (n + 1)

/-- What stands outside of parentheses, the parentheses included, and what stands behind a block
outside of them. -/
def outsideFrom : Option Nat → List Tree → List Tree
  | _, [] => []
  | some (n + 1), tree :: span =>
    if tree.hasKind .closeParen && n == 0 then tree :: outsideFrom (some 0) span
    else outsideFrom (parensAfter (some (n + 1)) tree) span
  | parens, tree :: span => tree :: outsideFrom (parensAfter parens tree) span

def outsideParens (span : List Tree) : List Tree :=
  outsideFrom (some 0) span

section

variable {span xs ys inner : List Tree} {tree : Tree} {t closer : Token} {n m : Nat}

theorem isBlockless_iff : IsBlockless span ↔ (spread span).2 = false := by
  rw [IsBlockless, spread_snd, List.any_eq_false]
  simp

theorem IsBlockless.of_sublist (h : IsBlockless ys) (hs : (leaves xs).Sublist (leaves ys)) :
    IsBlockless xs :=
  fun t ht => h t (hs.subset ht)

theorem isBlockless_cons :
    IsBlockless (tree :: span) ↔ IsBlockless [tree] ∧ IsBlockless span := by
  rw [IsBlockless, IsBlockless, IsBlockless, leaves, leaves, leaves, List.append_nil,
    List.forall_mem_append]

theorem isBlockless_token_cons :
    IsBlockless (.token t :: span) ↔ BlockForm.introducedBy? t = none ∧ IsBlockless span := by
  rw [IsBlockless, leaves, Tree.leaves, List.singleton_append, List.forall_mem_cons]
  rfl

theorem isBlockless_group_cons {items : List Tree} :
    IsBlockless (.group items :: span) ↔ IsBlockless items ∧ IsBlockless span := by
  rw [IsBlockless, leaves, Tree.leaves, List.forall_mem_append]
  rfl

theorem IsBlockless.of_append (h : IsBlockless (xs ++ ys)) : IsBlockless xs :=
  h.of_sublist (by rw [leaves_append]; exact List.sublist_append_left _ _)

theorem IsBlockless.joinLines (h : IsBlockless span) : IsBlockless (joinLines span) :=
  h.of_sublist (leaves_sublist (joinLines_sublist span))

theorem isBlockless_nil : IsBlockless [] :=
  fun t ht => by cases ht

theorem IsBlockless.isNone (h : IsBlockless span) :
    ∀ t ∈ leaves span, (BlockForm.introducedBy? t).isNone = true := by
  intro t ht
  rw [h t ht]
  rfl

theorem IsBlockless.aheadOfBlock_eq (h : IsBlockless span) :
    aheadOfBlock span = (leaves span).filter (·.kind != .newline) := by
  rw [aheadOfBlock, List.takeWhile_eq_self_iff.mpr h.isNone]

theorem aheadOfBlock_append_of_isBlockless (h : IsBlockless xs) (ys : List Tree) :
    aheadOfBlock (xs ++ ys) = aheadOfBlock xs ++ aheadOfBlock ys := by
  rw [aheadOfBlock, leaves_append, List.takeWhile_append_of_pos h.isNone, List.filter_append,
    h.aheadOfBlock_eq, aheadOfBlock]

theorem aheadOfBlock_append (h : ¬IsBlockless xs) (ys : List Tree) :
    aheadOfBlock (xs ++ ys) = aheadOfBlock xs := by
  have hxs : ¬((leaves xs).takeWhile fun t => (BlockForm.introducedBy? t).isNone).length =
      (leaves xs).length := by
    intro hlen
    refine h fun t ht => ?_
    have heq := (List.takeWhile_prefix _).eq_of_length hlen
    simpa using List.takeWhile_eq_self_iff.mp heq t ht
  rw [aheadOfBlock, leaves_append, List.takeWhile_append, if_neg hxs, aheadOfBlock]

mutual

theorem Tree.fromBlock_isEmpty (tree : Tree) : tree.fromBlock.isEmpty = !tree.spread.2 := by
  match tree with
  | .group items => exact Offside.fromBlock_isEmpty items
  | .token t =>
    rw [Tree.fromBlock, Tree.spread_snd, Tree.leaves, List.any_cons, List.any_nil, Bool.or_false]
    cases BlockForm.introducedBy? t <;> rfl

theorem fromBlock_isEmpty (span : List Tree) : (fromBlock span).isEmpty = !(spread span).2 := by
  match span with
  | [] => rfl
  | tree :: span =>
    have htree := Tree.fromBlock_isEmpty tree
    rw [fromBlock, spread_cons]
    split
    next he =>
      rw [htree] at he
      rw [fromBlock_isEmpty span, if_neg (by simpa using he)]
    next he =>
      rw [if_pos (by simpa [htree] using he)]
      cases hb : tree.fromBlock with
      | nil => simp [hb] at he
      | cons first rest => rfl

end

mutual

theorem Tree.spread_eq_unnested (tree : Tree) :
    tree.spread.1 = (aheadOfBlock [tree]).map .token ++ tree.fromBlock := by
  match tree with
  | .group items =>
    have h := Offside.spread_eq_unnested items
    rw [unnested, aheadOfBlock] at h
    rw [aheadOfBlock, leaves, leaves, List.append_nil]
    exact h
  | .token t =>
    rw [aheadOfBlock, leaves, leaves, Tree.leaves, Tree.spread, Tree.fromBlock]
    cases ht : BlockForm.introducedBy? t with
    | some form =>
      have hk := kind_of_introducedBy? ht
      simp [ht, hk]
    | none =>
      split
      next hk => simp [hk, ht]
      next hk => simp [hk, ht]

/-- Joining the lines of a span up to its first block takes it out of its groups. -/
theorem spread_eq_unnested (span : List Tree) : (spread span).1 = unnested span := by
  match span with
  | [] => rfl
  | tree :: span =>
    have htree := Tree.spread_eq_unnested tree
    have hspan := spread_eq_unnested span
    have hcons : tree :: span = [tree] ++ span := rfl
    rw [spread_cons, unnested, fromBlock, Tree.fromBlock_isEmpty, htree]
    cases hmet : tree.spread.2 with
    | true =>
      have hblock : ¬IsBlockless [tree] := by
        rw [isBlockless_iff, spread_cons, if_pos hmet]
        simp
      rw [hcons, aheadOfBlock_append hblock]
      simp
    | false =>
      have hblock : IsBlockless [tree] := by
        rw [isBlockless_iff, spread_cons, hmet]
        rfl
      have hnil : tree.fromBlock = [] := by
        rw [← List.isEmpty_iff, Tree.fromBlock_isEmpty, hmet]
        rfl
      rw [hcons, aheadOfBlock_append_of_isBlockless hblock, hnil]
      simp [hspan, unnested]

end

/-- Without a block, only the tokens of a span are left when its lines are joined. -/
theorem IsBlockless.spread_eq (h : IsBlockless span) :
    (spread span).1 = ((leaves span).filter (·.kind != .newline)).map .token := by
  have hnil : fromBlock span = [] := by
    rw [← List.isEmpty_iff, fromBlock_isEmpty, isBlockless_iff.mp h]
    rfl
  rw [spread_eq_unnested, unnested, h.aheadOfBlock_eq, hnil, List.append_nil]

end

section

variable {span xs ys inner : List Tree} {tree : Tree} {t closer : Token} {n m : Nat}

theorem foldl_parensAfter_none (xs : List Tree) : xs.foldl parensAfter none = none := by
  induction xs with
  | nil => rfl
  | cons tree xs ih => exact ih

theorem foldl_parensAfter_inside (h : openAfter? n xs = some m) :
    xs.foldl parensAfter (some (n + 1)) = some (m + 1) := by
  fun_induction openAfter? n xs with
  | case1 => rw [Option.some.inj h, List.foldl_nil]
  | case2 n tree span ho ih => rw [List.foldl_cons, parensAfter, if_pos ho, ih h]
  | case3 => cases h
  | case4 n tree span ho hc hn ih =>
    rw [List.foldl_cons, parensAfter, if_neg ho, if_pos hc, ← ih h, Nat.sub_add_cancel]
    omega
  | case5 n tree span ho hc ih => rw [List.foldl_cons, parensAfter, if_neg ho, if_neg hc, ih h]

theorem outsideFrom_inside (h : openAfter? n xs = some m) (ys : List Tree) :
    outsideFrom (some (n + 1)) (xs ++ ys) = outsideFrom (some (m + 1)) ys := by
  fun_induction openAfter? n xs with
  | case1 => rw [Option.some.inj h, List.nil_append]
  | case2 n tree span ho ih =>
    have hc : tree.hasKind .closeParen = false := hasKind_eq_false (by decide) ho
    rw [List.cons_append, outsideFrom, if_neg (by simp [hc]), parensAfter, if_pos ho, ih h]
  | case3 => cases h
  | case4 n tree span ho hc hn ih =>
    rw [List.cons_append, outsideFrom, if_neg (by simp [hn]), parensAfter, if_neg ho, if_pos hc,
      ← ih h, Nat.sub_add_cancel]
    omega
  | case5 n tree span ho hc ih =>
    rw [List.cons_append, outsideFrom, if_neg (by simp [hc]), parensAfter, if_neg ho, if_neg hc,
      ih h]

theorem parensAfter_closer (hc : closer.kind = .closeParen) :
    parensAfter (some 1) (.token closer) = parensAfter (some 0) (.token closer) := by
  have hopens := not_opensBlock_of_introducedBy? (introducedBy?_eq_none (t := closer) (by simp [hc]))
  simp [parensAfter, hopens, Tree.hasKind, hc]

theorem parensAfter_opener (ho : tree.hasKind .openParen = true) :
    parensAfter (some 0) tree = some 1 := by
  obtain ⟨t, rfl, hk⟩ := token_of_hasKind ho
  have hopens := not_opensBlock_of_introducedBy? (introducedBy?_eq_none (t := t) (by simp [hk]))
  rw [parensAfter, if_neg (by simp [hopens]), if_pos ho]

/-- Parentheses that close leave nothing open. -/
theorem foldl_parensAfter_enclosed (ho : tree.hasKind .openParen = true)
    (hc : closer.kind = .closeParen) (hinner : IsPaired inner) (span : List Tree) :
    (tree :: (inner ++ .token closer :: span)).foldl parensAfter (some 0) =
      (.token closer :: span).foldl parensAfter (some 0) := by
  rw [List.foldl_cons, List.foldl_append, List.foldl_cons, List.foldl_cons, parensAfter_opener ho,
    foldl_parensAfter_inside hinner, parensAfter_closer hc]

theorem outsideParens_enclosed (ho : tree.hasKind .openParen = true)
    (hc : closer.kind = .closeParen) (hinner : IsPaired inner) (span : List Tree) :
    outsideParens (tree :: (inner ++ .token closer :: span)) =
      tree :: outsideParens (.token closer :: span) := by
  have hopens := not_opensBlock_of_introducedBy? (introducedBy?_eq_none (t := closer) (by simp [hc]))
  have hclose : parensAfter (some 0) (.token closer) = some 0 := by
    simp [parensAfter, hopens, Tree.hasKind, hc]
  rw [outsideParens, outsideFrom, parensAfter_opener ho, outsideFrom_inside hinner, outsideFrom,
    if_pos (by simp [Tree.hasKind, hc]), outsideParens, outsideFrom, hclose]
  all_goals simp

theorem outsideFrom_none (span : List Tree) : outsideFrom none span = span := by
  induction span with
  | nil => rfl
  | cons tree span ih => rw [outsideFrom, parensAfter, ih]; simp

theorem outsideParens_cons (ho : tree.hasKind .openParen = false) (hopens : tree.opensBlock = false)
    (span : List Tree) : outsideParens (tree :: span) = tree :: outsideParens span := by
  have hsame : parensAfter (some 0) tree = some 0 := by
    rw [parensAfter, if_neg (by simp [hopens]), if_neg (by simp [ho])]
  rw [outsideParens, outsideFrom, hsame, outsideParens]
  simp

theorem outsideParens_of_opensBlock (hopens : tree.opensBlock = true) (span : List Tree) :
    outsideParens (tree :: span) = tree :: span := by
  rw [outsideParens, outsideFrom, parensAfter, if_pos hopens, outsideFrom_none]
  simp

theorem outsideParens_unclosed (ho : tree.hasKind .openParen = true)
    (h : openAfter? 0 span = some m) : outsideParens (tree :: span) = [tree] := by
  have hinside := outsideFrom_inside h []
  rw [List.append_nil] at hinside
  rw [outsideParens, outsideFrom, parensAfter_opener ho, hinside, outsideFrom]
  simp

theorem not_newline_of_opensBlock {tree : Tree} (h : tree.opensBlock = true) :
    tree.hasKind .newline = false := by
  cases tree with
  | group items => cases h
  | token t =>
    obtain ⟨form, ht⟩ := Option.isSome_iff_exists.mp h
    simp [Tree.hasKind, kind_of_introducedBy? ht]

theorem outsideParens_cons_eq (tree : Tree) (span : List Tree) :
    ∃ rest, outsideParens (tree :: span) = tree :: rest :=
  ⟨_, by rw [outsideParens, outsideFrom]; simp⟩

theorem regroup_cons_of_not_opener (opens : tree.opensBlock = false)
    (ho : tree.hasKind .openParen = false) (span : List Tree) :
    regroup (tree :: span) = tree :: regroup span := by
  rw [regroup, if_neg (by simp [opens]), if_neg (by simp [ho])]

theorem regroup_eq_nil_iff : regroup span = [] ↔ span = [] := by
  cases span with
  | nil => simp [regroup]
  | cons tree span =>
    obtain ⟨rest, hr⟩ := regroup_cons_eq tree span
    simp [hr]

theorem outsideParens_subset_regroup : outsideParens span ⊆ regroup span := by
  fun_induction regroup span with
  | case1 => simp [outsideParens, outsideFrom]
  | case2 tree span opens => simp [outsideParens_of_opensBlock opens]
  | case3 tree span _ ho i hi _ ih =>
    obtain ⟨inner, closer, rest, rfl, rfl, hc, hinner⟩ := isPaired_of_closerIndex? hi
    rw [List.drop_left] at ih ⊢
    rw [outsideParens_enclosed ho hc hinner]
    exact List.cons_subset_cons _ (List.subset_cons_of_subset _ ih)
  | case4 tree span _ ho _ hempty =>
    simp [List.isEmpty_iff.mp hempty, @outsideParens_unclosed [] tree 0 ho rfl]
  | case5 tree span _ ho hk _ _ =>
    obtain ⟨m, hm⟩ := closerIndex?_eq_none_iff.mp hk
    rw [outsideParens_unclosed ho hm]
    simp
  | case6 tree span opens ho ih =>
    rw [outsideParens_cons (by simpa using ho) (by simpa using opens)]
    exact List.cons_subset_cons _ ih

theorem exists_of_aheadOfBlock_ne_nil (h : aheadOfBlock span ≠ []) : ∃ t rest,
    unnested span = .token t :: rest ∧ t.kind ≠ .newline ∧ BlockForm.introducedBy? t = none := by
  obtain ⟨t, rest, hs⟩ := List.exists_cons_of_ne_nil h
  have hm : t ∈ aheadOfBlock span := by rw [hs]; exact List.mem_cons_self
  obtain ⟨hm, hk⟩ := List.mem_filter.mp hm
  refine ⟨t, rest.map .token ++ fromBlock span, by rw [unnested, hs]; rfl, by simpa using hk, ?_⟩
  simpa using List.mem_takeWhile_imp hm

theorem not_opensBlock_of_aheadOfBlock_ne_nil (h : aheadOfBlock span ≠ []) :
    ∀ tree ∈ span.head?, tree.opensBlock = false := by
  intro tree hm
  by_contra hopens
  have hopens : tree.opensBlock = true := by simpa using hopens
  obtain ⟨more, rfl⟩ := List.head?_eq_some_iff.mp hm
  obtain ⟨t, rest, hs, -, ht⟩ := exists_of_aheadOfBlock_ne_nil h
  rw [← spread_eq_unnested, spread_of_opensBlock hopens] at hs
  obtain rfl := (List.cons.inj hs).1
  rw [not_opensBlock_of_introducedBy? ht] at hopens
  cases hopens

/-- What divides a span outside of brackets is the same when its parentheses are grouped. -/
theorem isUndivided_regroup_iff {kinds : List Kind} {depth : Depth} :
    IsUndivided kinds depth (regroup span) ↔ IsUndivided kinds depth (outsideParens span) := by
  have group : ∀ (items : List Tree) (depth : Depth) (xs : List Tree),
      IsUndivided kinds depth (.group items :: xs) ↔ IsUndivided kinds depth xs := by
    intro items depth xs
    rw [isUndivided_cons, Depth.after]
    exact and_iff_right rfl
  have cons : ∀ {tree : Tree} {xs ys : List Tree} {depth : Depth},
      (IsUndivided kinds (depth.after tree) xs ↔ IsUndivided kinds (depth.after tree) ys) →
      (IsUndivided kinds depth (tree :: xs) ↔ IsUndivided kinds depth (tree :: ys)) := by
    intro tree xs ys depth h
    rw [isUndivided_cons, isUndivided_cons, h]
  fun_induction regroup span generalizing depth with
  | case1 => rfl
  | case2 tree span hopens => rw [outsideParens_of_opensBlock hopens]
  | case3 tree span _ ho i hi _ ih =>
    obtain ⟨inner, closer, rest, rfl, rfl, hc, hinner⟩ := isPaired_of_closerIndex? hi
    rw [List.drop_left] at ih ⊢
    rw [outsideParens_enclosed ho hc hinner]
    exact cons ((group _ _ _).trans ih)
  | case4 tree span _ ho hk hempty =>
    obtain rfl := List.isEmpty_iff.mp hempty
    rw [@outsideParens_unclosed _ tree 0 ho rfl]
  | case5 tree span _ ho hk _ _ =>
    obtain ⟨m, hm⟩ := closerIndex?_eq_none_iff.mp hk
    rw [outsideParens_unclosed ho hm]
    exact cons (group _ _ _)
  | case6 tree span hopens ho ih =>
    rw [outsideParens_cons (by simpa using ho) (by simpa using hopens)]
    exact cons ih

/-- Parentheses at the end of a regrouped span stood there before, unless a block comes ahead of
them that stands outside of parentheses. -/
theorem exists_of_regroup_eq {callee arguments : List Tree} {opener closer : Token}
    (ho : opener.kind = .openParen) (plain : ∀ tree ∈ callee, tree.opensBlock = false)
    (h : regroup span = callee ++ [.token opener, .group arguments, .token closer]) :
    ∃ before inner, span = before ++ .token opener :: (inner ++ [.token closer]) ∧
      regroup before = callee ∧ closer.kind = .closeParen ∧ IsPaired inner ∧
        regroup inner = arguments := by
  have hopener := not_opensBlock_of_introducedBy? (introducedBy?_eq_none (t := opener) (by simp [ho]))
  fun_induction regroup span generalizing callee with
  | case1 => simp at h
  | case2 tree span hopens =>
    cases callee with
    | nil =>
      rw [(List.cons.inj h).1, hopener] at hopens
      cases hopens
    | cons first callee =>
      rw [(List.cons.inj h).1, plain first List.mem_cons_self] at hopens
      cases hopens
  | case3 tree span hopens hp i hi _ ih =>
    obtain ⟨inner, last, rest, rfl, rfl, hc, hinner⟩ := isPaired_of_closerIndex? hi
    rw [List.take_left, List.drop_left] at *
    have hclose : BlockForm.introducedBy? last = none := introducedBy?_eq_none (by simp [hc])
    have hlast : regroup (.token last :: rest) = .token last :: regroup rest :=
      regroup_cons_of_none (by simp [hc]) hclose
    cases callee with
    | nil =>
      rw [hlast] at h
      simp only [List.nil_append, List.cons.injEq, Tree.group.injEq, Tree.token.injEq] at h
      obtain ⟨rfl, rfl, rfl, hrest⟩ := h
      rw [regroup_eq_nil_iff.mp hrest]
      exact ⟨[], inner, rfl, by rw [regroup], hc, hinner, rfl⟩
    | cons first callee =>
      obtain ⟨rfl, hspan⟩ := List.cons.inj h
      cases callee with
      | nil => cases (List.cons.inj hspan).1
      | cons group callee =>
        obtain ⟨rfl, hbehind⟩ := List.cons.inj hspan
        have hplain := (List.forall_mem_cons.mp (List.forall_mem_cons.mp plain).2).2
        obtain ⟨before, more, hs, hbefore, hrest⟩ := ih hplain hbehind
        cases before with
        | nil =>
          -- the parenthesis that closes is not the one that opens
          rw [Tree.token.inj (List.cons.inj hs).1, ho] at hc
          cases hc
        | cons first before =>
          obtain ⟨rfl, hs⟩ := List.cons.inj hs
          obtain ⟨opening, rfl, hk⟩ := token_of_hasKind hp
          rw [hs]
          refine ⟨.token opening :: (inner ++ .token last :: before), more, ?_, ?_, hrest⟩
          · simp
          · rw [hinner.isMatched.regroup_enclosed hk hc, ← hbefore,
              regroup_cons_of_none (by simp [hc]) hclose]
  | case4 tree span hopens hp hk hempty =>
    have hlen := congrArg List.length h
    simp at hlen
  | case5 tree span hopens hp hk _ _ =>
    have hlen := congrArg List.length h
    simp at hlen
  | case6 tree span hopens hp ih =>
    cases callee with
    | nil =>
      rw [(List.cons.inj h).1] at hp
      exact absurd (by simp [Tree.hasKind, ho]) hp
    | cons first callee =>
      obtain ⟨rfl, htail⟩ := List.cons.inj h
      obtain ⟨before, inner, rfl, rfl, hrest⟩ := ih (List.forall_mem_cons.mp plain).2 htail
      refine ⟨tree :: before, inner, rfl, ?_, hrest⟩
      rw [regroup, if_neg hopens, if_neg hp]

/-- What follows a span outside of its parentheses is regrouped by itself, or not at all behind a
block outside of them. -/
theorem regroup_append (h : EndsOutside xs) (ys : List Tree) : regroup (xs ++ ys) =
    regroup xs ++ if xs.foldl parensAfter (some 0) = none then ys else regroup ys := by
  fun_induction regroup xs with
  | case1 => rfl
  | case2 tree span hopens =>
    rw [List.cons_append, regroup, if_pos hopens, List.foldl_cons, parensAfter, if_pos hopens,
      foldl_parensAfter_none, if_pos rfl]
    rfl
  | case3 tree span hopens ho i hi _ ih =>
    obtain ⟨inner, closer, rest, rfl, rfl, hc, hinner⟩ := isPaired_of_closerIndex? hi
    obtain ⟨opener, rfl, hk⟩ := token_of_hasKind ho
    have hcloses : BlockForm.introducedBy? closer = none := introducedBy?_eq_none (by simp [hc])
    rw [List.take_left, List.drop_left] at *
    rw [EndsOutside, foldl_parensAfter_enclosed ho hc hinner] at h
    have ih := ih h
    rw [List.cons_append, regroup_cons_of_none (by simp [hc]) hcloses,
      regroup_cons_of_none (by simp [hc]) hcloses, List.cons_append] at ih
    rw [List.cons_append, List.append_assoc, List.cons_append,
      hinner.isMatched.regroup_enclosed hk hc, foldl_parensAfter_enclosed ho hc hinner,
      (List.cons.inj ih).2, regroup_cons_of_none (by simp [hc]) hcloses]
    rfl
  | case4 tree span hopens ho hk hempty =>
    rw [List.isEmpty_iff.mp hempty] at h
    exact absurd (parensAfter_opener ho) (h 0)
  | case5 tree span hopens ho hk hempty _ =>
    obtain ⟨m, hm⟩ := closerIndex?_eq_none_iff.mp hk
    refine absurd ?_ (h m)
    rw [List.foldl_cons, parensAfter_opener ho, foldl_parensAfter_inside hm]
  | case6 tree span hopens ho ih =>
    have hsame : parensAfter (some 0) tree = some 0 := by
      rw [parensAfter, if_neg hopens, if_neg ho]
    rw [EndsOutside, List.foldl_cons, hsame] at h
    rw [List.cons_append, regroup, if_neg hopens, if_neg ho, ih h, List.foldl_cons, hsame]
    rfl

/-- A line break outside of parentheses makes no difference to the regrouping. -/
theorem joinLines_regroup_newline (h : EndsOutside xs) (ht : t.kind = .newline) (ys : List Tree) :
    joinLines (regroup (xs ++ .token t :: ys)) = joinLines (regroup (xs ++ ys)) := by
  have hdrop : ∀ zs, joinLines (.token t :: zs) = joinLines zs :=
    fun zs => List.filter_cons_of_neg (by simp [Tree.hasKind, ht])
  have hopens : BlockForm.introducedBy? t = none := introducedBy?_eq_none (by simp [ht])
  rw [regroup_append h, regroup_append h, joinLines_append, joinLines_append,
    regroup_cons_of_none (by simp [ht]) hopens]
  split <;> rw [hdrop]

theorem endsOutside_append_newline (ht : t.kind = .newline) (ys : List Tree) :
    EndsOutside (xs ++ .token t :: ys) ↔ EndsOutside (xs ++ ys) := by
  have hopens := not_opensBlock_of_introducedBy? (introducedBy?_eq_none (t := t) (by simp [ht]))
  have hsame : ∀ parens, parensAfter parens (.token t) = parens := by
    rintro (_ | _ | n) <;> simp [parensAfter, hopens, Tree.hasKind, ht]
  rw [EndsOutside, EndsOutside, List.foldl_append, List.foldl_append, List.foldl_cons, hsame]

/-- Nor do line breaks if all of them stand outside of parentheses. -/
theorem joinLines_regroup_append (h : ∀ before t after, ys = before ++ .token t :: after →
    t.kind = .newline → EndsOutside (xs ++ before)) :
    joinLines (regroup (xs ++ ys)) = joinLines (regroup (xs ++ joinLines ys)) := by
  induction ys generalizing xs with
  | nil => rfl
  | cons tree ys ih =>
    cases hk : tree.hasKind .newline with
    | true =>
      obtain ⟨t, rfl, ht⟩ := token_of_hasKind hk
      have hxs : EndsOutside xs := by simpa using h [] t ys rfl ht
      rw [joinLines_regroup_newline hxs ht, joinLines_cons_of_newline hk]
      refine ih fun before u after hys hu => ?_
      exact (endsOutside_append_newline ht before).mp (h (.token t :: before) u after (by rw [hys]; rfl) hu)
    | false =>
      have happend : ∀ zs, xs ++ tree :: zs = (xs ++ [tree]) ++ zs := by simp
      rw [joinLines_cons hk, happend ys, happend (joinLines ys)]
      refine ih fun before u after hys hu => ?_
      rw [← happend before]
      exact h (tree :: before) u after (by rw [hys]; rfl) hu

end

/-- Whether no line break behind the first block of a span stands in parentheses. -/
def BreaksOutside (span : List Tree) : Prop :=
  ∀ before t after, span = before ++ .token t :: after → t.kind = .newline →
    ¬IsBlockless before → EndsOutside (unnested before)

section

variable {span ahead : List Tree}

theorem unnested_cons (tree : Tree) (span : List Tree) : unnested (tree :: span) =
    tree.spread.1 ++ if tree.spread.2 then span else unnested span := by
  rw [← spread_eq_unnested, ← spread_eq_unnested, spread_cons]
  split <;> rfl

theorem isBlockless_cons_iff (tree : Tree) (span : List Tree) :
    IsBlockless (tree :: span) ↔ tree.spread.2 = false ∧ IsBlockless span := by
  rw [isBlockless_cons, isBlockless_iff, spread_cons]
  cases tree.spread.2 <;> simp [spread]

/-- Line breaks outside of parentheses make no difference to what a span becomes behind the items
taken out of their groups so far. -/
theorem joinLines_regroup_unnested (h : ∀ before t after, span = before ++ .token t :: after →
    t.kind = .newline → ¬IsBlockless before → EndsOutside (ahead ++ unnested before)) :
    joinLines (regroup (ahead ++ unnested span)) =
      joinLines (regroup (ahead ++ unnested (joinLines span))) := by
  induction span generalizing ahead with
  | nil => rfl
  | cons tree span ih =>
    have shift : ∀ before t after, span = before ++ .token t :: after → t.kind = .newline →
        ¬IsBlockless (tree :: before) → EndsOutside (ahead ++ unnested (tree :: before)) :=
      fun before t after hs => h (tree :: before) t after (by rw [hs]; rfl)
    simp only [unnested_cons, isBlockless_cons_iff, ← List.append_assoc] at shift
    cases hk : tree.hasKind .newline with
    | true =>
      obtain ⟨t, rfl, ht⟩ := token_of_hasKind hk
      have hnone : (Tree.token t).spread = ([], false) := by rw [Tree.spread, if_pos ht]
      simp only [hnone] at shift
      rw [joinLines_cons_of_newline hk, unnested_cons, hnone]
      exact ih fun before u after hs hu hn => by simpa using shift before u after hs hu (by simpa using hn)
    | false =>
      rw [joinLines_cons hk, unnested_cons, unnested_cons, ← List.append_assoc, ← List.append_assoc]
      cases hmet : tree.spread.2 with
      | true =>
        rw [hmet] at shift
        exact joinLines_regroup_append fun before u after hs hu => shift before u after hs hu (by simp)
      | false =>
        rw [hmet] at shift
        exact ih fun before u after hs hu hn => shift before u after hs hu (by simpa using hn)

theorem BreaksOutside.joinLines_eq (h : BreaksOutside span) :
    joinLines (regroup (unnested span)) = joinLines (regroup (unnested (joinLines span))) :=
  @joinLines_regroup_unnested span [] h

end

end Offside
