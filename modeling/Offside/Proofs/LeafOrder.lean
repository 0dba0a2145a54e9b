import Mathlib.Data.List.TakeDrop
import Mathlib.Data.List.TakeWhile
import Offside.BlockReading
import Offside.ConstructReading
import Offside.Regrouping

namespace Offside

theorem mem_leaves_of_token_mem {t : Token} {span : List Tree} (h : .token t ∈ span) :
    t ∈ leaves span := by
  induction span with
  | nil => cases h
  | cons tree span ih =>
    rw [leaves]
    rcases List.mem_cons.mp h with rfl | h
    · exact List.mem_append_left _ List.mem_cons_self
    · exact List.mem_append_right _ (ih h)

theorem leaves_sublist {xs ys : List Tree} (h : xs.Sublist ys) :
    (leaves xs).Sublist (leaves ys) := by
  induction h with
  | slnil => exact .slnil
  | cons tree _ ih => exact ih.trans (List.sublist_append_right _ _)
  | cons_cons tree _ ih => exact (List.Sublist.refl _).append ih

/-- What stands behind an element. -/
theorem sublist_behind {α : Type} (left : List α) (x : α) (right : List α) :
    right.Sublist (left ++ x :: right) :=
  (List.sublist_cons_self _ _).trans (List.sublist_append_right _ _)

theorem joinLines_append (xs ys : List Tree) : joinLines (xs ++ ys) = joinLines xs ++ joinLines ys :=
  List.filter_append ..

theorem joinLines_cons {tree : Tree} (h : tree.hasKind .newline = false) (span : List Tree) :
    joinLines (tree :: span) = tree :: joinLines span :=
  List.filter_cons_of_pos (by simp [h])

theorem joinLines_cons_of_newline {tree : Tree} (h : tree.hasKind .newline = true)
    (span : List Tree) : joinLines (tree :: span) = joinLines span :=
  List.filter_cons_of_neg (by simp [h])

theorem joinLines_token {t : Token} (h : t.kind ≠ .newline) (span : List Tree) :
    joinLines (.token t :: span) = .token t :: joinLines span :=
  joinLines_cons (by simpa [Tree.hasKind] using h) span

theorem hasKind_newline_of_mem_joinLines {span : List Tree} {tree : Tree}
    (h : tree ∈ joinLines span) : tree.hasKind .newline = false := by
  simpa using (List.mem_filter.mp h).2

theorem joinLines_sublist (span : List Tree) : (joinLines span).Sublist span :=
  List.filter_sublist

mutual

theorem Tree.leaves_unwrap_sublist (tree : Tree) :
    (leaves tree.unwrap).Sublist tree.leaves := by
  cases tree with
  | token t => exact .refl _
  | group items => exact Offside.leaves_unwrap_sublist items

theorem leaves_unwrap_sublist (span : List Tree) : (leaves (unwrap span)).Sublist (leaves span) := by
  cases span with
  | nil => exact .refl _
  | cons tree span =>
    rw [unwrap]
    by_cases hn : tree.hasKind .newline = true
    · rw [if_pos hn]
      exact (leaves_unwrap_sublist span).trans (List.sublist_append_right _ _)
    · rw [if_neg hn]
      cases hj : joinLines span with
      | nil => exact (Tree.leaves_unwrap_sublist tree).trans (List.sublist_append_left _ _)
      | cons next rest =>
        have hs := joinLines_sublist span
        rw [hj] at hs
        exact leaves_sublist (hs.cons_cons tree)

end

mutual

theorem Tree.leaves_spread_sublist (tree : Tree) :
    (leaves tree.spread.1).Sublist tree.leaves := by
  cases tree with
  | token t =>
    rw [Tree.spread]
    by_cases hn : t.kind = .newline
    · rw [if_pos hn]
      exact List.nil_sublist _
    · rw [if_neg hn]
      exact .refl _
  | group items => exact Offside.leaves_spread_sublist items

theorem leaves_spread_sublist (span : List Tree) :
    (leaves (spread span).1).Sublist (leaves span) := by
  cases span with
  | nil => exact .refl _
  | cons tree span =>
    have ht := Tree.leaves_spread_sublist tree
    have hs := leaves_spread_sublist span
    rw [spread, leaves]
    generalize tree.spread = spreadTree at *
    obtain ⟨items, met⟩ := spreadTree
    cases met with
    | true =>
      rw [leaves_append]
      exact ht.append (.refl _)
    | false =>
      rw [leaves_append]
      exact ht.append hs

end

theorem leaves_regroup (span : List Tree) : leaves (regroup span) = leaves span := by
  fun_induction regroup span with
  | case1 => rfl
  | case2 tree span _ => rfl
  | case3 tree span _ _ n _ iht ihd =>
    have hsplit : leaves (span.take n) ++ leaves (span.drop n) = leaves span := by
      rw [← leaves_append, List.take_append_drop]
    rw [leaves, leaves, Tree.leaves, iht, ihd, hsplit, leaves]
  | case4 tree span _ _ _ he =>
    rw [List.isEmpty_iff.mp he]
  | case5 tree span _ _ _ _ ih =>
    rw [leaves, leaves, Tree.leaves, ih, leaves, List.append_nil, leaves]
  | case6 tree span _ _ ih =>
    rw [leaves, ih, leaves]

theorem token_of_hasKind {kind : Kind} {tree : Tree} (h : tree.hasKind kind = true) :
    ∃ t, tree = .token t ∧ t.kind = kind := by
  cases tree with
  | token t => exact ⟨t, rfl, by simpa [Tree.hasKind] using h⟩
  | group items => cases h

theorem hasKind_eq_false {tree : Tree} {kind kind' : Kind} (hne : kind ≠ kind')
    (h : tree.hasKind kind = true) : tree.hasKind kind' = false := by
  obtain ⟨t, rfl, hk⟩ := token_of_hasKind h
  simpa [Tree.hasKind, hk] using hne

theorem eq_of_inParens? {span inner : List Tree} (h : inParens? span = some inner) :
    ∃ opener closer : Token, span = [.token opener, .group inner, .token closer] ∧
      opener.kind = .openParen ∧ closer.kind = .closeParen := by
  unfold inParens? at h
  split at h
  next left items right =>
    split at h
    next hkinds =>
      obtain rfl := Option.some.inj h
      obtain ⟨hopen, hclose⟩ := Bool.and_eq_true_iff.mp hkinds
      obtain ⟨opener, rfl, ho⟩ := token_of_hasKind hopen
      obtain ⟨closer, rfl, hc⟩ := token_of_hasKind hclose
      exact ⟨opener, closer, rfl, ho, hc⟩
    next => cases h
  next => cases h

theorem leaves_inParens?_sublist {span inner : List Tree} (h : inParens? span = some inner) :
    (leaves inner).Sublist (leaves span) := by
  obtain ⟨opener, closer, rfl, -, -⟩ := eq_of_inParens? h
  have hl : leaves [.token opener, .group inner, .token closer] =
      opener :: (leaves inner ++ [closer]) := by
    simp only [leaves, Tree.leaves, List.append_nil, List.singleton_append]
  rw [hl]
  exact (List.sublist_append_left _ _).cons opener

section

variable {α β : Type} (separator? : α → Option β)

theorem map_fst_sections (xs : List α) :
    (sections separator? xs).2.map Prod.fst = xs.filterMap separator? := by
  induction xs with
  | nil => rfl
  | cons x xs ih =>
    cases hs : separator? x with
    | some s => simp only [sections, hs, List.map_cons, ih, List.filterMap_cons]
    | none => simp only [sections, hs, ih, List.filterMap_cons]

theorem sections_isInfix (xs : List α) :
    (sections separator? xs).1 <+: xs ∧ ∀ c ∈ (sections separator? xs).2, c.2 <:+: xs := by
  induction xs with
  | nil => exact ⟨List.prefix_rfl, fun c hc => by cases hc⟩
  | cons x xs ih =>
    obtain ⟨ihf, iho⟩ := ih
    have behind : xs <:+: x :: xs := (List.suffix_cons x xs).isInfix
    cases hs : separator? x with
    | some s =>
      simp only [sections, hs]
      refine ⟨List.nil_prefix, ?_⟩
      intro c hc
      rcases List.mem_cons.mp hc with rfl | hc
      · exact ihf.isInfix.trans behind
      · exact (iho c hc).trans behind
    | none =>
      simp only [sections, hs]
      exact ⟨List.cons_prefix_cons.mpr ⟨rfl, ihf⟩, fun c hc => (iho c hc).trans behind⟩

theorem sections_separator (xs : List α) :
    (∀ x ∈ (sections separator? xs).1, separator? x = none) ∧
      ∀ c ∈ (sections separator? xs).2, ∀ x ∈ c.2, separator? x = none := by
  induction xs with
  | nil => exact ⟨fun x hx => (by cases hx), fun c hc => (by cases hc)⟩
  | cons x xs ih =>
    obtain ⟨ihf, iho⟩ := ih
    cases hs : separator? x with
    | some s =>
      simp only [sections, hs]
      refine ⟨fun y hy => (by cases hy), ?_⟩
      intro c hc
      rcases List.mem_cons.mp hc with rfl | hc
      · exact ihf
      · exact iho c hc
    | none =>
      simp only [sections, hs]
      refine ⟨?_, iho⟩
      intro y hy
      rcases List.mem_cons.mp hy with rfl | hy
      · exact hs
      · exact ihf y hy

end

section

variable {α β : Type} {separator? : α → Option β} {p : α → Bool}

theorem sections_append_plain {xs ys : List α} (h : ∀ x ∈ xs, separator? x = none) :
    sections separator? (xs ++ ys) =
      (xs ++ (sections separator? ys).1, (sections separator? ys).2) := by
  induction xs with
  | nil => rfl
  | cons x xs ih =>
    have hx := h x List.mem_cons_self
    rw [List.cons_append, sections, ih fun y hy => h y (List.mem_cons_of_mem _ hy)]
    simp only [hx]
    rfl

theorem sections_append_separator {x : α} {s : β} (h : separator? x = some s) (xs ys : List α) :
    sections separator? (xs ++ x :: ys) =
      ((sections separator? xs).1,
        (sections separator? xs).2 ++ (s, (sections separator? ys).1) ::
          (sections separator? ys).2) := by
  induction xs with
  | nil => simp only [List.nil_append, sections, h]
  | cons y xs ih =>
    rw [List.cons_append, sections, ih, sections]
    cases separator? y with
    | some t => rfl
    | none => rfl

theorem splitWhere_cons (p : α → Bool) (x : α) (xs : List α) :
    splitWhere p (x :: xs) =
      if p x then [] :: splitWhere p xs
      else (x :: (splitWhere p xs).headD []) :: (splitWhere p xs).tail := by
  simp only [splitWhere, sections]
  cases p x <;> rfl

theorem splitWhere_eq_cons (p : α → Bool) (xs : List α) :
    splitWhere p xs = (splitWhere p xs).headD [] :: (splitWhere p xs).tail :=
  rfl

theorem splitWhere_append_plain {xs ys : List α} (h : ∀ x ∈ xs, p x = false) :
    splitWhere p (xs ++ ys) = (xs ++ (splitWhere p ys).headD []) :: (splitWhere p ys).tail := by
  have hplain : ∀ x ∈ xs, (if p x then some x else none) = none := by
    intro x hx
    simp [h x hx]
  rw [splitWhere, sections_append_plain hplain]
  rfl

theorem splitWhere_plain {xs : List α} (h : ∀ x ∈ xs, p x = false) : splitWhere p xs = [xs] := by
  rw [← List.append_nil xs, splitWhere_append_plain h]
  rfl

theorem splitWhere_append {x : α} (h : p x = true) (xs ys : List α) :
    splitWhere p (xs ++ x :: ys) = splitWhere p xs ++ splitWhere p ys := by
  have hs := @sections_append_separator _ _ (fun x => if p x then some x else none) x x (if_pos h)
  rw [splitWhere, hs]
  simp only [splitWhere, List.map_append, List.map_cons, List.cons_append]

theorem splitWhere_append_cons {x : α} {xs ys : List α} (h : ∀ y ∈ xs, p y = false)
    (hx : p x = true) : splitWhere p (xs ++ x :: ys) = xs :: splitWhere p ys := by
  rw [splitWhere_append hx, splitWhere_plain h]
  rfl

theorem splitWhere_map (f : β → α) (xs : List β) :
    splitWhere p (xs.map f) = (splitWhere (p ∘ f) xs).map (List.map f) := by
  induction xs with
  | nil => rfl
  | cons x xs ih =>
    rw [List.map_cons, splitWhere_cons, splitWhere_cons, ih, Function.comp]
    split
    next => rfl
    next => rw [splitWhere_eq_cons (p ∘ f) xs]; rfl

end

theorem isInfix_of_mem_splitWhere {α : Type} {p : α → Bool} {xs part : List α}
    (h : part ∈ splitWhere p xs) : part <:+: xs := by
  have hs := sections_isInfix (fun x => if p x then some x else none) xs
  rcases List.mem_cons.mp h with rfl | h
  · exact hs.1.isInfix
  · obtain ⟨c, hc, rfl⟩ := List.mem_map.mp h
    exact hs.2 c hc

theorem sublist_of_mem_splitWhere {α : Type} {p : α → Bool} {xs part : List α}
    (h : part ∈ splitWhere p xs) : part.Sublist xs :=
  (isInfix_of_mem_splitWhere h).sublist

theorem not_of_mem_splitWhere {α : Type} {p : α → Bool} {xs part : List α}
    (h : part ∈ splitWhere p xs) : ∀ x ∈ part, p x = false := by
  have hs := sections_separator (fun x => if p x then some x else none) xs
  have plain : ∀ x, (if p x then some x else none) = none → p x = false := by
    intro x hx
    cases hp : p x with
    | false => rfl
    | true => simp [hp] at hx
  rcases List.mem_cons.mp h with rfl | h
  · exact fun x hx => plain x (hs.1 x hx)
  · obtain ⟨c, hc, rfl⟩ := List.mem_map.mp h
    exact fun x hx => plain x (hs.2 c hc x hx)

theorem token_of_separator? {kinds : List Kind} {item : Tree × Depth} {t : Token}
    (h : separator? kinds item = some t) : item.1 = .token t := by
  obtain ⟨tree, depth⟩ := item
  cases tree with
  | token u =>
    rw [separator?] at h
    split at h
    next =>
      obtain rfl := Option.some.inj h
      rfl
    next => cases h
  | group items => cases h

theorem mem_of_mem_depths {depth : Depth} {span : List Tree} {item : Tree × Depth}
    (h : item ∈ depths depth span) : item.1 ∈ span := by
  have hm : item.1 ∈ (depths depth span).map Prod.fst := List.mem_map.mpr ⟨item, h, rfl⟩
  rw [map_fst_depths] at hm
  exact hm

section

variable {kinds : List Kind} {span : List Tree}

theorem cut_fst_isPrefix : (cut kinds span).1 <+: span := by
  have hs := (sections_isInfix (separator? kinds) (depths .top span)).1.map Prod.fst
  rw [map_fst_depths] at hs
  exact hs

theorem cut_snd_isInfix {c : Token × List Tree} (h : c ∈ (cut kinds span).2) :
    c.2 <:+: span := by
  obtain ⟨d, hd, rfl⟩ := List.mem_map.mp h
  have hs := ((sections_isInfix (separator? kinds) (depths .top span)).2 d hd).map Prod.fst
  rw [map_fst_depths] at hs
  exact hs

theorem cut_fst_sublist : (cut kinds span).1.Sublist span :=
  cut_fst_isPrefix.sublist

theorem cut_snd_sublist {c : Token × List Tree} (h : c ∈ (cut kinds span).2) :
    c.2.Sublist span :=
  (cut_snd_isInfix h).sublist

theorem separator_of_mem_cut {c : Token × List Tree} (h : c ∈ (cut kinds span).2) :
    c.1 ∈ (depths .top span).filterMap (separator? kinds) := by
  obtain ⟨d, hd, rfl⟩ := List.mem_map.mp h
  rw [← map_fst_sections]
  exact List.mem_map.mpr ⟨d, hd, rfl⟩

theorem mem_of_mem_cut {c : Token × List Tree} (h : c ∈ (cut kinds span).2) :
    .token c.1 ∈ span := by
  obtain ⟨item, hi, ht⟩ := List.mem_filterMap.mp (separator_of_mem_cut h)
  rw [← token_of_separator? ht]
  exact mem_of_mem_depths hi

theorem split_of_ne_nil {kinds : List Kind} {span : List Tree} (h : span ≠ []) :
    split kinds false span = (cut kinds span).1 :: (cut kinds span).2.map Prod.snd := by
  have he : span.isEmpty = false := List.isEmpty_eq_false_iff.mpr h
  rw [split, he]
  rfl

theorem isInfix_of_mem_split {part : List Tree} (h : part ∈ split kinds false span) :
    part <:+: span := by
  unfold split at h
  split at h
  next => cases h
  next =>
    rcases List.mem_cons.mp h with rfl | h
    · exact cut_fst_isPrefix.isInfix
    · obtain ⟨c, hc, rfl⟩ := List.mem_map.mp h
      exact cut_snd_isInfix hc

theorem sublist_of_mem_split {part : List Tree} (h : part ∈ split kinds false span) :
    part.Sublist span :=
  (isInfix_of_mem_split h).sublist

theorem eq_of_divide? {left right : List Tree} {t : Token}
    (h : divide? kinds span = some (left, t, right)) : span = left ++ .token t :: right := by
  obtain ⟨i, _, h⟩ := Option.bind_eq_some_iff.mp h
  split at h
  next u rest hd =>
    obtain ⟨rfl, rfl, rfl⟩ : span.take i = left ∧ u = t ∧ rest = right := by
      simpa using h
    rw [← hd, List.take_append_drop]
  next => cases h

end

theorem token_of_name? {tree : Tree} {t : Token} (h : tree.name? = some t) : tree = .token t := by
  cases tree with
  | token u =>
    rw [Tree.name?] at h
    split at h
    next =>
      obtain rfl := Option.some.inj h
      rfl
    next => cases h
  | group items => cases h

theorem kind_of_name? {tree : Tree} {t : Token} (h : tree.name? = some t) : t.kind = .name := by
  cases tree with
  | token u =>
    rw [Tree.name?] at h
    split at h
    next hk =>
      obtain rfl := Option.some.inj h
      exact hk
    next => cases h
  | group items => cases h

theorem exists_of_mapM_some {α β : Type} {f : α → Option β} {xs : List α} {ys : List β}
    (h : xs.mapM f = some ys) : ∀ x ∈ xs, ∃ y, f x = some y := by
  induction xs generalizing ys with
  | nil =>
    intro x hx
    cases hx
  | cons first xs ih =>
    rw [List.mapM_cons] at h
    obtain ⟨y, hy, h⟩ := Option.bind_eq_some_iff.mp h
    obtain ⟨rest, hrest, -⟩ := Option.bind_eq_some_iff.mp h
    exact List.forall_mem_cons.mpr ⟨⟨y, hy⟩, ih hrest⟩

theorem token_of_pathToken? {tree : Tree} {t : Token} (h : pathToken? tree = some t) :
    tree = .token t := by
  cases tree with
  | token u =>
    rw [pathToken?] at h
    split at h
    next =>
      obtain rfl := Option.some.inj h
      rfl
    next => cases h
  | group items => cases h

theorem declarations?_parts {span body : List Tree} {names : List Token}
    (h : declarations? span = some (names, body)) :
    body <:+ span ∧ ∀ t ∈ names, .token t ∈ span := by
  cases span with
  | nil =>
    obtain ⟨rfl, rfl⟩ : [] = names ∧ [] = body := by simpa [declarations?] using h
    exact ⟨List.suffix_refl _, fun t ht => by cases ht⟩
  | cons first rest =>
    rw [declarations?] at h
    split at h
    next =>
      split at h
      next => cases h
      next closer after hd =>
        obtain ⟨rfl, rfl⟩ := Prod.mk.inj (Option.some.inj h)
        have hsuffix : closer :: after <:+ rest := by
          rw [← hd]
          exact List.dropWhile_suffix _
        refine ⟨(List.suffix_cons closer after).trans
          (hsuffix.trans (List.suffix_cons first rest)), ?_⟩
        intro t ht
        obtain ⟨tree, hm, hn⟩ := List.mem_filterMap.mp ht
        rw [← token_of_name? hn]
        exact List.mem_cons_of_mem _ ((List.takeWhile_prefix _).subset hm)
    next =>
      obtain ⟨rfl, rfl⟩ := Prod.mk.inj (Option.some.inj h)
      exact ⟨List.suffix_refl _, fun t ht => by cases ht⟩

theorem heading?_parts {form : BlockForm} {span body : List Tree} {heading : Heading}
    (h : heading? form span = some (heading, body)) :
    ∃ t rest, span = .token t :: rest ∧ heading.origin = t.span.start ∧ body <:+ rest ∧
      ∀ name ∈ heading.declarations, .token name ∈ rest := by
  cases span with
  | nil => cases h
  | cons tree rest =>
    cases tree with
    | group items => cases h
    | token t =>
      rw [heading?] at h
      split at h
      next =>
        obtain ⟨⟨names, after⟩, hd, he⟩ := Option.map_eq_some_iff.mp h
        obtain ⟨rfl, rfl⟩ := Prod.mk.inj he
        have hp := declarations?_parts hd
        exact ⟨t, rest, rfl, rfl, hp.1, hp.2⟩
      next => cases h

theorem headerAndBody_append (span : List Tree) :
    (headerAndBody span).1 ++ (headerAndBody span).2 = span := by
  rw [headerAndBody, List.span_eq_takeWhile_dropWhile]
  exact List.takeWhile_append_dropWhile

theorem isGroup_of_mem_header {span : List Tree} :
    ∀ tree ∈ (headerAndBody span).1, tree.isGroup = false := by
  intro tree hm
  rw [headerAndBody, List.span_eq_takeWhile_dropWhile] at hm
  simpa using List.mem_takeWhile_imp hm

theorem headerAndBody_fst_isPrefix (span : List Tree) : (headerAndBody span).1 <+: span :=
  ⟨_, headerAndBody_append span⟩

theorem headerAndBody_snd_isSuffix (span : List Tree) : (headerAndBody span).2 <:+ span :=
  ⟨_, headerAndBody_append span⟩

theorem headerAndBody_fst_sublist (span : List Tree) : (headerAndBody span).1.Sublist span :=
  (headerAndBody_fst_isPrefix span).sublist

theorem headerAndBody_snd_sublist (span : List Tree) : (headerAndBody span).2.Sublist span :=
  (headerAndBody_snd_isSuffix span).sublist

theorem leaves_sublist_of_mem_stepsOf {span part : List Tree} (h : part ∈ stepsOf span) :
    (leaves part).Sublist (leaves span) := by
  have hs := sublist_of_mem_split (List.mem_filter.mp h).1
  have hl := leaves_sublist hs
  rw [leaves_ungroup] at hl
  exact hl

theorem iteration?_isSuffix {header part : List Tree} {iterator : String}
    (h : iteration? header = some (iterator, part)) : part <:+ header := by
  unfold iteration? at h
  split at h
  next first second iteratee =>
    obtain ⟨t, _, h⟩ := Option.bind_eq_some_iff.mp h
    split at h
    next => cases h
    next =>
      obtain ⟨-, rfl⟩ := Prod.mk.inj (Option.some.inj h)
      exact (List.suffix_cons second iteratee).trans (List.suffix_cons first _)
  next => cases h

theorem iteration?_sublist {header part : List Tree} {iterator : String}
    (h : iteration? header = some (iterator, part)) : part.Sublist header :=
  (iteration?_isSuffix h).sublist

theorem signature?_isSuffix {header inline : List Tree} {parameters : List String}
    (h : signature? header = some (parameters, inline)) : inline <:+ header := by
  unfold signature? at h
  split at h
  next =>
    obtain ⟨-, rfl⟩ := Prod.mk.inj (Option.some.inj h)
    exact List.suffix_rfl
  next first rest =>
    split at h
    next =>
      obtain ⟨n, _, h⟩ := Option.bind_eq_some_iff.mp h
      obtain ⟨names, _, h⟩ := Option.bind_eq_some_iff.mp h
      obtain ⟨-, rfl⟩ := Prod.mk.inj (Option.some.inj h)
      exact (List.drop_suffix _ _).trans (List.suffix_cons first rest)
    next => cases h

theorem headerAndBody_behind {xs : List Tree} (h : ∀ tree ∈ xs, tree.isGroup = false) 
    (ys : List Tree) :
    headerAndBody (xs ++ ys) = (xs ++ (headerAndBody ys).1, (headerAndBody ys).2) := by
  have hpos : ∀ tree ∈ xs, (!tree.isGroup) = true := fun tree hm => by simp [h tree hm]
  simp only [headerAndBody, List.span_eq_takeWhile_dropWhile, List.takeWhile_append_of_pos hpos,
    List.dropWhile_append_of_pos hpos]

theorem ungroup_append (xs ys : List Tree) : ungroup (xs ++ ys) = ungroup xs ++ ungroup ys :=
  List.flatMap_append

theorem ungroup_eq_self {xs : List Tree} (h : ∀ tree ∈ xs, tree.isGroup = false) :
    ungroup xs = xs := by
  induction xs with
  | nil => rfl
  | cons tree xs ih =>
    obtain ⟨htree, hxs⟩ := List.forall_mem_cons.mp h
    cases tree with
    | token t => exact congrArg (Tree.token t :: ·) (ih hxs)
    | group items => cases htree

theorem header_append_ungroup (span : List Tree) :
    (headerAndBody span).1 ++ ungroup (headerAndBody span).2 = ungroup span := by
  conv => rhs; rw [← headerAndBody_append span, ungroup_append, ungroup_eq_self isGroup_of_mem_header]

theorem functionParts?_isSuffix {span part : List Tree} {name : String}
    {parameters : List String} (h : functionParts? span = some (name, parameters, part)) :
    part <:+ ungroup span := by
  rw [← header_append_ungroup]
  unfold functionParts? at h
  split at h
  next first header body hb =>
    obtain ⟨t, _, h⟩ := Option.bind_eq_some_iff.mp h
    obtain ⟨⟨names, inline⟩, hs, h⟩ := Option.bind_eq_some_iff.mp h
    obtain ⟨-, h⟩ := Prod.mk.inj (Option.some.inj h)
    obtain ⟨-, rfl⟩ := Prod.mk.inj h
    obtain ⟨ahead, rfl⟩ := signature?_isSuffix hs
    rw [hb]
    exact ⟨first :: ahead, by simp⟩
  next => cases h

theorem leaves_functionParts?_sublist {span part : List Tree} {name : String}
    {parameters : List String} (h : functionParts? span = some (name, parameters, part)) :
    (leaves part).Sublist (leaves span) := by
  rw [← leaves_ungroup span]
  exact leaves_sublist (functionParts?_isSuffix h).sublist

theorem eq_of_labelled? {part rest : List Tree} {t : Token}
    (h : labelled? part = some (t, rest)) :
    ∃ colon : Token, part = .token t :: .token colon :: rest ∧ colon.kind = .colon := by
  unfold labelled? at h
  split at h
  next label colon after =>
    obtain ⟨u, hu, h⟩ := Option.bind_eq_some_iff.mp h
    split at h
    next hcolon =>
      obtain ⟨rfl, rfl⟩ := Prod.mk.inj (Option.some.inj h)
      obtain rfl := token_of_name? hu
      obtain ⟨c, rfl, hk⟩ := token_of_hasKind hcolon
      exact ⟨c, rfl, hk⟩
    next => cases h
  next => cases h

theorem labelled?_parts {part rest : List Tree} {t : Token}
    (h : labelled? part = some (t, rest)) : .token t ∈ part ∧ rest.Sublist part := by
  obtain ⟨colon, rfl, -⟩ := eq_of_labelled? h
  exact ⟨List.mem_cons_self, ((List.Sublist.refl _).cons _).cons _⟩

theorem mem_of_accessors? {span : List Tree} {accessors : List Token}
    (h : accessors? span = some accessors) : ∀ t ∈ accessors, .token t ∈ span := by
  induction span generalizing accessors with
  | nil =>
    obtain rfl := Option.some.inj h
    intro t ht
    cases ht
  | cons tree span ih =>
    cases tree with
    | group items => cases h
    | token u =>
      rw [accessors?] at h
      split at h
      next => exact fun t ht => List.mem_cons_of_mem _ (ih h t ht)
      next =>
        split at h
        next =>
          obtain ⟨others, ho, rfl⟩ := Option.map_eq_some_iff.mp h
          intro t ht
          rcases List.mem_cons.mp ht with rfl | ht
          · exact List.mem_cons_self
          · exact List.mem_cons_of_mem _ (ih ho t ht)
        next => cases h

end Offside
