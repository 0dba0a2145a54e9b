import Offside.Proofs.Parentheses

namespace Offside

/-- How many parentheses are open after a span that begins with so many. There is no answer if
the span closes one that is not open. -/
def openAfter? : Nat → List Tree → Option Nat
  | n, [] => some n
  | n, tree :: span =>
    if tree.hasKind .openParen then openAfter? (n + 1) span
    else if tree.hasKind .closeParen then if n = 0 then none else openAfter? (n - 1) span
    else openAfter? n span

/-- Whether a span closes the parentheses that it opens, and no others. -/
def IsPaired (span : List Tree) : Prop :=
  openAfter? 0 span = some 0

section

variable {span xs ys : List Tree} {tree : Tree} {opener closer : Token} {i m n : Nat}

theorem openAfter?_opener (ho : tree.hasKind .openParen = true) (n : Nat) (span : List Tree) :
    openAfter? n (tree :: span) = openAfter? (n + 1) span := by
  rw [openAfter?, if_pos ho]

theorem openAfter?_open (ho : opener.kind = .openParen) (n : Nat) (span : List Tree) :
    openAfter? n (.token opener :: span) = openAfter? (n + 1) span := by
  simp [openAfter?, Tree.hasKind, ho]

theorem openAfter?_close (hc : closer.kind = .closeParen) (n : Nat) (span : List Tree) :
    openAfter? (n + 1) (.token closer :: span) = openAfter? n span := by
  simp [openAfter?, Tree.hasKind, hc]

theorem openAfter?_group (n : Nat) (items span : List Tree) :
    openAfter? n (.group items :: span) = openAfter? n span := by
  simp [openAfter?, Tree.hasKind]

theorem openAfter?_append (n : Nat) (xs ys : List Tree) :
    openAfter? n (xs ++ ys) = (openAfter? n xs).bind (openAfter? · ys) := by
  fun_induction openAfter? n xs with
  | case1 => rfl
  | case2 n tree span ho ih => rw [List.cons_append, openAfter?, if_pos ho, ih]
  | case3 tree span ho hc => rw [List.cons_append, openAfter?, if_neg ho, if_pos hc]; rfl
  | case4 n tree span ho hc hn ih =>
    rw [List.cons_append, openAfter?, if_neg ho, if_pos hc, if_neg hn, ih]
  | case5 n tree span ho hc ih => rw [List.cons_append, openAfter?, if_neg ho, if_neg hc, ih]

theorem openAfter?_add (h : openAfter? n span = some m) (k : Nat) :
    openAfter? (n + k) span = some (m + k) := by
  fun_induction openAfter? n span with
  | case1 => rw [openAfter?, Option.some.inj h]
  | case2 n tree span ho ih =>
    have ih := ih h
    rw [openAfter?, if_pos ho, ← ih, Nat.add_right_comm]
  | case3 => cases h
  | case4 n tree span ho hc hn ih =>
    have ih := ih h
    rw [openAfter?, if_neg ho, if_pos hc, if_neg (by omega), ← ih]
    congr 1
    omega
  | case5 n tree span ho hc ih => rw [openAfter?, if_neg ho, if_neg hc, ih h]

theorem IsPaired.openAfter?_eq (h : IsPaired xs) (n : Nat) : openAfter? n xs = some n := by
  have h := openAfter?_add (show openAfter? 0 xs = some 0 from h) n
  rwa [Nat.zero_add] at h

theorem isPaired_group (items : List Tree) : IsPaired [.group items] :=
  openAfter?_group 0 items []

theorem closerIndex?_cons {opening closing : Kind} (n : Nat) (tree : Tree) (span : List Tree) :
    closerIndex? opening closing n (tree :: span) =
      if tree.hasKind opening then (closerIndex? opening closing (n + 1) span).map (· + 1)
      else if tree.hasKind closing then
        if n = 0 then some 0 else (closerIndex? opening closing (n - 1) span).map (· + 1)
      else (closerIndex? opening closing n span).map (· + 1) := by
  cases n <;> simp [closerIndex?]

/-- A search for a closing parenthesis goes past a span that closes none too many. -/
theorem closerIndex?_append (h : openAfter? n xs = some m) (ys : List Tree) :
    closerIndex? .openParen .closeParen n (xs ++ ys) =
      (closerIndex? .openParen .closeParen m ys).map (· + xs.length) := by
  have step : ∀ {o : Option Nat} (tree : Tree) (xs : List Tree),
      (o.map (· + xs.length)).map (· + 1) = o.map (· + (tree :: xs).length) := by
    intro o tree xs
    rw [Option.map_map]
    rfl
  fun_induction openAfter? n xs with
  | case1 =>
    rw [Option.some.inj h]
    simp
  | case2 n tree span ho ih => rw [List.cons_append, closerIndex?_cons, if_pos ho, ih h, step]
  | case3 => cases h
  | case4 n tree span ho hc hn ih =>
    rw [List.cons_append, closerIndex?_cons, if_neg ho, if_pos hc, if_neg hn, ih h, step]
  | case5 n tree span ho hc ih =>
    rw [List.cons_append, closerIndex?_cons, if_neg ho, if_neg hc, ih h, step]

theorem IsPaired.isMatched (h : IsPaired xs) : IsMatched xs :=
  fun inner rest => closerIndex?_append (h.openAfter?_eq inner) rest

/-- A closing parenthesis that is found stands behind the items that it closes. -/
theorem openAfter?_of_closerIndex? (h : closerIndex? .openParen .closeParen n span = some i) :
    ∃ before closer after, span = before ++ .token closer :: after ∧ before.length = i ∧
      closer.kind = .closeParen ∧ openAfter? n before = some 0 := by
  have step : ∀ {o : Option Nat} {tree : Tree} {span : List Tree} {n k i : Nat},
      (∀ before, openAfter? n (tree :: before) = openAfter? k before) →
      (∀ {j}, o = some j → ∃ before closer after, span = before ++ .token closer :: after ∧
        before.length = j ∧ closer.kind = .closeParen ∧ openAfter? k before = some 0) →
      o.map (· + 1) = some i → ∃ before closer after,
        tree :: span = before ++ .token closer :: after ∧ before.length = i ∧
          closer.kind = .closeParen ∧ openAfter? n before = some 0 := by
    intro o tree span n k i htree hj he
    obtain ⟨j, hs, rfl⟩ := Option.map_eq_some_iff.mp he
    obtain ⟨before, closer, after, rfl, rfl, hc, hbefore⟩ := hj hs
    exact ⟨tree :: before, closer, after, rfl, rfl, hc, by rw [htree, hbefore]⟩
  induction span generalizing n i with
  | nil => cases h
  | cons tree span ih =>
    rw [closerIndex?_cons] at h
    split at h
    next ho => exact step (fun before => by rw [openAfter?, if_pos ho]) ih h
    next ho =>
      split at h
      next hc =>
        split at h
        next hn =>
          obtain rfl := Option.some.inj h
          obtain ⟨closer, rfl, hclose⟩ := token_of_hasKind hc
          exact ⟨[], closer, span, rfl, rfl, hclose, by rw [openAfter?, hn]⟩
        next hn =>
          exact step (fun before => by rw [openAfter?, if_neg ho, if_pos hc, if_neg hn]) ih h
      next hc => exact step (fun before => by rw [openAfter?, if_neg ho, if_neg hc]) ih h

theorem isPaired_of_closerIndex? (h : closerIndex? .openParen .closeParen 0 span = some i) :
    ∃ inner closer after, span = inner ++ .token closer :: after ∧ inner.length = i ∧
      closer.kind = .closeParen ∧ IsPaired inner :=
  openAfter?_of_closerIndex? h

theorem closerIndex?_eq_none_iff :
    closerIndex? .openParen .closeParen n span = none ↔ ∃ m, openAfter? n span = some m := by
  constructor
  · intro h
    fun_induction openAfter? n span with
    | case1 n => exact ⟨n, rfl⟩
    | case2 n tree span ho ih =>
      rw [closerIndex?_cons, if_pos ho] at h
      exact ih (Option.map_eq_none_iff.mp h)
    | case3 tree span ho hc =>
      rw [closerIndex?_cons, if_neg ho, if_pos hc, if_pos rfl] at h
      cases h
    | case4 n tree span ho hc hn ih =>
      rw [closerIndex?_cons, if_neg ho, if_pos hc, if_neg hn] at h
      exact ih (Option.map_eq_none_iff.mp h)
    | case5 n tree span ho hc ih =>
      rw [closerIndex?_cons, if_neg ho, if_neg hc] at h
      exact ih (Option.map_eq_none_iff.mp h)
  · rintro ⟨m, h⟩
    have h := closerIndex?_append h []
    rwa [List.append_nil, closerIndex?, Option.map_none] at h

theorem openAfter?_succ_ne (h : openAfter? 0 span = some m) (n : Nat) :
    openAfter? (n + 1) span ≠ some 0 := by
  have h := openAfter?_add h (n + 1)
  rw [Nat.zero_add] at h
  rw [h]
  simp

/-- A parenthesis is closed by a span that closes all that are open. -/
theorem closerIndex?_ne_none (h : openAfter? (n + 1) span = some 0) :
    closerIndex? .openParen .closeParen 0 span ≠ none := by
  intro hn
  obtain ⟨m, hm⟩ := closerIndex?_eq_none_iff.mp hn
  exact openAfter?_succ_ne hm n h

/-- The parenthesis that closes the first one of a paired span. -/
theorem IsPaired.split_enclosed (h : IsPaired (.token opener :: span))
    (ho : opener.kind = .openParen) : ∃ inner closer rest,
      span = inner ++ .token closer :: rest ∧ closer.kind = .closeParen ∧
        IsPaired inner ∧ IsPaired rest := by
  rw [IsPaired, openAfter?_open ho] at h
  cases hc : closerIndex? .openParen .closeParen 0 span with
  | none => exact absurd hc (closerIndex?_ne_none h)
  | some i =>
    obtain ⟨inner, closer, rest, rfl, -, hclose, hinner⟩ := isPaired_of_closerIndex? hc
    rw [openAfter?_append, Nat.zero_add, hinner.openAfter?_eq 1, Option.bind_some,
      openAfter?_close hclose] at h
    exact ⟨inner, closer, rest, rfl, hclose, hinner, h⟩

end

section

variable {span xs ys : List Tree} {tree : Tree} {i m n : Nat}

theorem regroup_of_no_paren (h : ∀ tree ∈ span, tree.hasKind .openParen = false) :
    regroup span = span := by
  induction span with
  | nil => rw [regroup]
  | cons tree span ih =>
    obtain ⟨ht, hspan⟩ := List.forall_mem_cons.mp h
    rw [regroup, if_neg (by simp [ht] : ¬tree.hasKind .openParen = true), ih hspan, ite_self]

/-- Whether a span is made of plain tokens up to its first block. -/
inductive ReachesBlock : List Tree → Prop where
  | block {tree : Tree} {span : List Tree} (opens : tree.opensBlock = true) :
    ReachesBlock (tree :: span)
  | token {t : Token} {span : List Tree} (notNewline : t.kind ≠ .newline)
    (notBlock : BlockForm.introducedBy? t = none) (rest : ReachesBlock span) :
    ReachesBlock (.token t :: span)

theorem IsFlat.append_reachesBlock (hx : IsFlat xs) (hy : ReachesBlock ys) :
    ReachesBlock (xs ++ ys) := by
  induction xs with
  | nil => exact hy
  | cons tree xs ih =>
    obtain ⟨⟨t, rfl, hk, ht⟩, hxs⟩ := List.forall_mem_cons.mp hx
    exact .token hk ht (ih hxs)

theorem ReachesBlock.append (h : ReachesBlock xs) (ys : List Tree) : ReachesBlock (xs ++ ys) := by
  induction h with
  | block opens => exact .block opens
  | token notNewline notBlock _ ih => exact .token notNewline notBlock ih

theorem ReachesBlock.of_append (h : ReachesBlock (xs ++ ys)) :
    ReachesBlock xs ∨ (IsFlat xs ∧ ReachesBlock ys) := by
  induction xs with
  | nil => exact .inr ⟨List.forall_mem_nil _, h⟩
  | cons tree xs ih =>
    cases h with
    | block opens => exact .inl (.block opens)
    | token notNewline notBlock rest =>
      rcases ih rest with hxs | ⟨hflat, hys⟩
      · exact .inl (.token notNewline notBlock hxs)
      · exact .inr ⟨List.forall_mem_cons.mpr ⟨⟨_, rfl, notNewline, notBlock⟩, hflat⟩, hys⟩

theorem Tree.spread_of_opensBlock (h : tree.opensBlock = true) : tree.spread = ([tree], true) := by
  cases tree with
  | group items => cases h
  | token t =>
    obtain ⟨form, ht⟩ := Option.isSome_iff_exists.mp h
    have ht : BlockForm.introducedBy? t = some form := ht
    have hk : t.kind ≠ .newline := by
      rw [kind_of_introducedBy? ht]
      exact Kind.noConfusion
    rw [Tree.spread, if_neg hk, ht]
    rfl

theorem spread_of_opensBlock (h : tree.opensBlock = true) (span : List Tree) :
    spread (tree :: span) = (tree :: span, true) := by
  rw [spread, Tree.spread_of_opensBlock h]
  rfl

mutual

theorem Tree.spread_reaches (tree : Tree) :
    tree.spread.2 = true ∧ ReachesBlock tree.spread.1 ∨
      tree.spread.2 = false ∧ IsFlat tree.spread.1 := by
  match tree with
  | .group items => exact Offside.spread_reaches items
  | .token t =>
    rw [Tree.spread]
    split
    next => exact .inr ⟨rfl, fun _ hm => (List.not_mem_nil hm).elim⟩
    next hk =>
      cases ht : BlockForm.introducedBy? t with
      | some form => exact .inl ⟨rfl, .block (opensBlock_of_introducedBy? ht)⟩
      | none => exact .inr ⟨rfl, List.forall_mem_singleton.mpr ⟨t, rfl, hk, ht⟩⟩

/-- A span whose lines are joined is flat up to its first block. -/
theorem spread_reaches (span : List Tree) :
    (spread span).2 = true ∧ ReachesBlock (spread span).1 ∨
      (spread span).2 = false ∧ IsFlat (spread span).1 := by
  match span with
  | [] => exact .inr ⟨rfl, fun _ hm => (List.not_mem_nil hm).elim⟩
  | tree :: span =>
    have htree := Tree.spread_reaches tree
    have hspan := spread_reaches span
    rw [spread]
    rcases hs : tree.spread with ⟨items, met⟩
    rw [hs] at htree
    cases met with
    | true =>
      obtain ⟨-, h⟩ := htree.resolve_right (fun h => Bool.noConfusion h.1)
      exact .inl ⟨rfl, h.append span⟩
    | false =>
      obtain ⟨-, h⟩ := htree.resolve_left (fun h => Bool.noConfusion h.1)
      rcases hspan with ⟨hmet, hreach⟩ | ⟨hmet, hflat⟩
      · exact .inl ⟨hmet, h.append_reachesBlock hreach⟩
      · exact .inr ⟨hmet, List.forall_mem_append.mpr ⟨h, hflat⟩⟩

end

mutual

theorem Tree.spread_snd (tree : Tree) :
    tree.spread.2 = tree.leaves.any fun t => (BlockForm.introducedBy? t).isSome := by
  match tree with
  | .group items => exact Offside.spread_snd items
  | .token t =>
    rw [Tree.spread, Tree.leaves, List.any_cons, List.any_nil, Bool.or_false]
    split
    next hk => rw [introducedBy?_eq_none (by simp [hk])]; rfl
    next => rfl

/-- Whether joining the lines of a span meets a block does not depend on its groups. -/
theorem spread_snd (span : List Tree) :
    (spread span).2 = (leaves span).any fun t => (BlockForm.introducedBy? t).isSome := by
  match span with
  | [] => rfl
  | tree :: span =>
    have htree := Tree.spread_snd tree
    rw [spread, leaves, List.any_append, ← htree, ← spread_snd span]
    rcases tree.spread with ⟨items, _ | _⟩ <;> rfl

end

theorem spread_regroup_snd (span : List Tree) : (spread (regroup span)).2 = (spread span).2 := by
  rw [spread_snd, spread_snd, leaves_regroup]

theorem ReachesBlock.spread_eq (h : ReachesBlock span) : spread span = (span, true) := by
  induction h with
  | block opens => exact spread_of_opensBlock opens _
  | token notNewline notBlock _ ih => rw [spread_cons_of_none notNewline notBlock, ih]

/-- Grouping leaves the same number of parentheses open, or less behind one that is never
closed. -/
theorem openAfter?_regroup (h : openAfter? n span = some m) :
    ∃ i, openAfter? n (regroup span) = some i ∧ i ≤ m := by
  fun_induction regroup span generalizing n m with
  | case1 => exact ⟨m, h, Nat.le_refl m⟩
  | case2 tree span _ => exact ⟨m, h, Nat.le_refl m⟩
  | case3 tree span _ ho k hk _ ih =>
    obtain ⟨inner, closer, rest, rfl, rfl, hc, hinner⟩ := isPaired_of_closerIndex? hk
    rw [openAfter?, if_pos ho, openAfter?_append, hinner.openAfter?_eq, Option.bind_some] at h
    rw [List.drop_left] at ih ⊢
    rw [openAfter?, if_pos ho, openAfter?_group]
    exact ih h
  | case4 tree span _ ho hk hempty =>
    rw [List.isEmpty_iff.mp hempty] at h
    exact ⟨m, h, Nat.le_refl m⟩
  | case5 tree span _ ho hk hempty _ =>
    obtain ⟨k, hk⟩ := closerIndex?_eq_none_iff.mp hk
    have hopen := openAfter?_add hk (n + 1)
    rw [Nat.zero_add] at hopen
    rw [openAfter?, if_pos ho, hopen] at h
    refine ⟨n + 1, by rw [openAfter?, if_pos ho, openAfter?_group, openAfter?], ?_⟩
    have h := Option.some.inj h
    omega
  | case6 tree span _ ho ih =>
    rw [openAfter?, if_neg ho] at h ⊢
    split at h
    next hc =>
      split at h
      next => cases h
      next hn =>
        rw [if_pos hc, if_neg hn]
        exact ih h
    next hc =>
      rw [if_neg hc]
      exact ih h

/-- Grouping leaves the same number of parentheses open if each one that is opened is closed. -/
theorem openAfter?_regroup_eq {k : Nat} (closed : openAfter? k span = some 0) (n : Nat) :
    openAfter? n (regroup span) = openAfter? n span := by
  fun_induction regroup span generalizing k n with
  | case1 => rfl
  | case2 => rfl
  | case3 tree span _ ho i hi _ ih =>
    obtain ⟨inner, closer, rest, rfl, rfl, hc, hinner⟩ := isPaired_of_closerIndex? hi
    rw [openAfter?_opener ho, openAfter?_append, hinner.openAfter?_eq, Option.bind_some] at closed
    rw [List.drop_left] at ih ⊢
    rw [openAfter?_opener ho, openAfter?_group, ih closed, openAfter?_opener ho,
      openAfter?_append, hinner.openAfter?_eq, Option.bind_some]
  | case4 tree span _ ho hk hempty => rw [List.isEmpty_iff.mp hempty]
  | case5 tree span _ ho hk _ _ =>
    rw [openAfter?_opener ho] at closed
    exact absurd hk (closerIndex?_ne_none closed)
  | case6 tree span _ ho ih =>
    rw [openAfter?, if_neg ho] at closed
    rw [openAfter?, openAfter?, if_neg ho, if_neg ho]
    split at closed
    next hc =>
      split at closed
      next => cases closed
      next => rw [if_pos hc, if_pos hc, ih closed]
    next hc => rw [if_neg hc, if_neg hc, ih closed]

theorem spread_cons (tree : Tree) (span : List Tree) : spread (tree :: span) =
    if tree.spread.2 then (tree.spread.1 ++ span, true)
    else (tree.spread.1 ++ (spread span).1, (spread span).2) := by
  rw [spread]
  rcases tree.spread with ⟨items, _ | _⟩ <;> rfl

theorem spread_append (xs ys : List Tree) : spread (xs ++ ys) =
    if (spread xs).2 then ((spread xs).1 ++ ys, true)
    else ((spread xs).1 ++ (spread ys).1, (spread ys).2) := by
  induction xs with
  | nil => rfl
  | cons tree xs ih =>
    rw [List.cons_append, spread_cons, spread_cons, ih]
    cases tree.spread.2 <;> cases (spread xs).2 <;> simp

theorem spread_group_append (items span : List Tree) : spread (.group items :: span) =
    if (spread items).2 then ((spread items).1 ++ span, true)
    else ((spread items).1 ++ (spread span).1, (spread span).2) :=
  spread_cons _ _

theorem spread_opener (ho : tree.hasKind .openParen = true) (span : List Tree) :
    spread (tree :: span) = (tree :: (spread span).1, (spread span).2) := by
  obtain ⟨t, rfl, ht⟩ := token_of_hasKind ho
  exact spread_cons_of_none (by simp [ht]) (introducedBy?_eq_none (by simp [ht]))

/-- The same holds when the lines are joined before and after the grouping. -/
theorem openAfter?_spread_regroup_eq {k : Nat} (closed : openAfter? k span = some 0) (n : Nat) :
    openAfter? n (spread (regroup span)).1 = openAfter? n (spread span).1 := by
  fun_induction regroup span generalizing k n with
  | case1 => rfl
  | case2 => rfl
  | case3 tree span _ ho i hi ihinner ih =>
    obtain ⟨inner, closer, rest, rfl, rfl, hc, hinner⟩ := isPaired_of_closerIndex? hi
    rw [openAfter?_opener ho, openAfter?_append, hinner.openAfter?_eq, Option.bind_some] at closed
    rw [List.take_left, List.drop_left] at *
    rw [spread_opener ho, spread_opener ho, openAfter?_opener ho, openAfter?_opener ho,
      spread_group_append, spread_append, spread_regroup_snd]
    split
    next =>
      rw [openAfter?_append, openAfter?_append, ihinner hinner]
      congr 1
      funext j
      exact openAfter?_regroup_eq closed j
    next =>
      rw [openAfter?_append, openAfter?_append, ihinner hinner]
      congr 1
      funext j
      exact ih closed j
  | case4 tree span _ ho hk hempty => rw [List.isEmpty_iff.mp hempty]
  | case5 tree span _ ho hk _ _ =>
    rw [openAfter?_opener ho] at closed
    exact absurd hk (closerIndex?_ne_none closed)
  | case6 tree span _ ho ih =>
    have hrest : ∃ j, openAfter? j span = some 0 := by
      rw [openAfter?, if_neg ho] at closed
      split at closed
      next =>
        split at closed
        next => cases closed
        next => exact ⟨_, closed⟩
      next => exact ⟨_, closed⟩
    obtain ⟨j, hj⟩ := hrest
    rw [spread_cons, spread_cons]
    split
    next =>
      rw [openAfter?_append, openAfter?_append]
      congr 1
      funext i
      exact openAfter?_regroup_eq hj i
    next =>
      rw [openAfter?_append, openAfter?_append]
      congr 1
      funext i
      exact ih hj i

/-- Grouping between joining the lines twice leaves no more parentheses open. -/
theorem openAfter?_spread_regroup (h : openAfter? n (spread span).1 = some m) :
    ∃ i, openAfter? n (spread (regroup span)).1 = some i ∧ i ≤ m := by
  fun_induction regroup span generalizing n m with
  | case1 => exact ⟨m, h, Nat.le_refl m⟩
  | case2 => exact ⟨m, h, Nat.le_refl m⟩
  | case3 tree span _ ho i hi _ ih =>
    obtain ⟨inner, closer, rest, rfl, rfl, hc, hinner⟩ := isPaired_of_closerIndex? hi
    rw [List.take_left, List.drop_left] at *
    rw [spread_opener ho, openAfter?_opener ho, spread_append] at h
    rw [spread_opener ho, openAfter?_opener ho, spread_group_append, spread_regroup_snd]
    split
    next hmet =>
      rw [if_pos hmet, openAfter?_append] at h
      rw [openAfter?_append, openAfter?_spread_regroup_eq hinner]
      obtain ⟨j, hj, h⟩ := Option.bind_eq_some_iff.mp h
      rw [hj, Option.bind_some]
      exact openAfter?_regroup h
    next hmet =>
      rw [if_neg hmet, openAfter?_append] at h
      rw [openAfter?_append, openAfter?_spread_regroup_eq hinner]
      obtain ⟨j, hj, h⟩ := Option.bind_eq_some_iff.mp h
      rw [hj, Option.bind_some]
      exact ih h
  | case4 tree span _ ho hk hempty =>
    rw [List.isEmpty_iff.mp hempty] at h
    exact ⟨m, h, Nat.le_refl m⟩
  | case5 tree span _ ho hk _ ih =>
    rw [spread_opener ho, openAfter?_opener ho] at h
    obtain ⟨i, hi, hle⟩ := ih h
    refine ⟨i, ?_, hle⟩
    rw [spread_opener ho, openAfter?_opener ho, ← hi, spread_group_append]
    split <;> simp [spread]
  | case6 tree span _ ho ih =>
    rw [spread_cons] at h ⊢
    split
    next hmet =>
      rw [if_pos hmet, openAfter?_append] at h
      obtain ⟨j, hj, h⟩ := Option.bind_eq_some_iff.mp h
      rw [openAfter?_append, hj, Option.bind_some]
      exact openAfter?_regroup h
    next hmet =>
      rw [if_neg hmet, openAfter?_append] at h
      obtain ⟨j, hj, h⟩ := Option.bind_eq_some_iff.mp h
      rw [openAfter?_append, hj, Option.bind_some]
      exact ih h

end

end Offside
