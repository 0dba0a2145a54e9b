import Offside.Proofs.LeafOrder

namespace Offside

theorem depths_append (depth : Depth) (xs ys : List Tree) :
    depths depth (xs ++ ys) = depths depth xs ++ depths (xs.foldl Depth.after depth) ys := by
  induction xs generalizing depth with
  | nil => rfl
  | cons tree xs ih => rw [List.cons_append, depths, ih, depths, List.cons_append, List.foldl_cons]

/-- Whether nothing in a span divides it, when it begins at a depth. -/
def IsUndivided (kinds : List Kind) (depth : Depth) (span : List Tree) : Prop :=
  ∀ item ∈ depths depth span, separator? kinds item = none

section

variable {kinds : List Kind} {span left right : List Tree} {depth : Depth} {t : Token}

theorem isUndivided_nil : IsUndivided kinds depth [] :=
  fun item hm => by cases hm

theorem isUndivided_cons {tree : Tree} : IsUndivided kinds depth (tree :: span) ↔
    separator? kinds (tree, depth.after tree) = none ∧
      IsUndivided kinds (depth.after tree) span := by
  rw [IsUndivided, depths, List.forall_mem_cons]
  rfl

theorem isUndivided_append : IsUndivided kinds depth (left ++ right) ↔
    IsUndivided kinds depth left ∧ IsUndivided kinds (left.foldl Depth.after depth) right := by
  rw [IsUndivided, depths_append, List.forall_mem_append]
  rfl

theorem topIndex?_eq_none_iff : topIndex? kinds span = none ↔ IsUndivided kinds .top span := by
  rw [topIndex?, List.findIdx?_eq_none_iff, IsUndivided]
  simp

/-- Where a search for a separator ends that begins at a depth. -/
theorem findIdx?_depths {i : Nat}
    (h : (depths depth span).findIdx? (fun item => (separator? kinds item).isSome) = some i) :
    ∃ left t right, span = left ++ .token t :: right ∧ left.length = i ∧
      IsUndivided kinds depth left ∧
      separator? kinds (.token t, (left.foldl Depth.after depth).after (.token t)) = some t := by
  induction span generalizing depth i with
  | nil => cases h
  | cons tree span ih =>
    rw [depths, List.findIdx?_cons] at h
    cases hs : separator? kinds (tree, depth.after tree) with
    | some t =>
      rw [hs] at h
      obtain rfl := Option.some.inj h
      have ht : tree = .token t := token_of_separator? hs
      subst ht
      exact ⟨[], t, span, rfl, rfl, isUndivided_nil, hs⟩
    | none =>
      rw [hs] at h
      obtain ⟨j, hj, rfl⟩ := Option.map_eq_some_iff.mp h
      obtain ⟨left, t, right, rfl, rfl, hleft, ht⟩ := ih hj
      exact ⟨tree :: left, t, right, rfl, rfl, isUndivided_cons.mpr ⟨hs, hleft⟩, ht⟩

theorem findIdx?_depths_append (hleft : IsUndivided kinds depth left)
    (ht : separator? kinds (.token t, (left.foldl Depth.after depth).after (.token t)) = some t) :
    (depths depth (left ++ .token t :: right)).findIdx?
      (fun item => (separator? kinds item).isSome) = some left.length := by
  induction left generalizing depth with
  | nil =>
    rw [List.nil_append, depths, List.findIdx?_cons]
    rw [List.foldl_nil] at ht
    rw [ht]
    rfl
  | cons tree left ih =>
    obtain ⟨htree, hleft⟩ := isUndivided_cons.mp hleft
    rw [List.cons_append, depths, List.findIdx?_cons, htree, ih hleft ht]
    rfl

theorem topIndex?_append (hleft : IsUndivided kinds .top left)
    (ht : separator? kinds (.token t, (left.foldl Depth.after .top).after (.token t)) = some t) :
    topIndex? kinds (left ++ .token t :: right) = some left.length :=
  findIdx?_depths_append hleft ht

/-- A span is divided at its first separator. -/
theorem divide?_eq_some_iff : divide? kinds span = some (left, t, right) ↔
    span = left ++ .token t :: right ∧ IsUndivided kinds .top left ∧
      separator? kinds (.token t, (left.foldl Depth.after .top).after (.token t)) = some t := by
  constructor
  · intro h
    obtain ⟨i, hi, h⟩ := Option.bind_eq_some_iff.mp h
    obtain ⟨before, u, after, rfl, rfl, hbefore, hu⟩ := findIdx?_depths hi
    rw [List.drop_left, List.take_left] at h
    obtain ⟨rfl, hu', rfl⟩ : before = left ∧ u = t ∧ after = right := by simpa using h
    subst hu'
    exact ⟨rfl, hbefore, hu⟩
  · rintro ⟨rfl, hleft, ht⟩
    rw [divide?, topIndex?_append hleft ht]
    simp only [Option.bind_eq_bind, Option.bind_some, List.drop_left, List.take_left]

theorem divide?_eq_none_iff : divide? kinds span = none ↔ IsUndivided kinds .top span := by
  rw [← topIndex?_eq_none_iff]
  cases hi : topIndex? kinds span with
  | none => simp [divide?, hi]
  | some i =>
    obtain ⟨left, t, right, rfl, rfl, hleft, ht⟩ := findIdx?_depths hi
    have h : divide? kinds (left ++ .token t :: right) = some (left, t, right) :=
      divide?_eq_some_iff.mpr ⟨rfl, hleft, ht⟩
    simp [h]

theorem separator?_of_not_mem (h : t.kind ∉ kinds) :
    separator? kinds (.token t, depth) = none := by
  have ht : t.hasKindIn kinds = false := by simpa [Token.hasKindIn] using h
  simp [separator?, ht]

theorem separator?_eq_some_iff : separator? kinds (.token t, depth) = some t ↔
    t.kind ∈ kinds ∧ depth = .top := by
  simp [separator?, Token.hasKindIn]

theorem kind_of_divide? (h : divide? kinds span = some (left, t, right)) : t.kind ∈ kinds :=
  (separator?_eq_some_iff.mp (divide?_eq_some_iff.mp h).2.2).1

theorem separator?_eq_none_of_subset {kinds' : List Kind} (hs : kinds ⊆ kinds') {item : Tree × Depth}
    (h : separator? kinds' item = none) : separator? kinds item = none := by
  obtain ⟨tree, depth⟩ := item
  cases hitem : separator? kinds (tree, depth) with
  | none => rfl
  | some t =>
    obtain rfl := token_of_separator? hitem
    obtain ⟨hk, hd⟩ := separator?_eq_some_iff.mp hitem
    cases h.symm.trans (separator?_eq_some_iff.mpr ⟨hs hk, hd⟩)

theorem IsUndivided.of_subset {kinds' : List Kind} (hs : kinds ⊆ kinds')
    (h : IsUndivided kinds' depth span) : IsUndivided kinds depth span :=
  fun item hm => separator?_eq_none_of_subset hs (h item hm)

theorem Depth.after_newline (ht : t.kind = .newline) (depth : Depth) :
    depth.after (.token t) = depth := by
  simp [Depth.after, ht]

theorem foldl_after_joinLines (span : List Tree) (depth : Depth) :
    (joinLines span).foldl Depth.after depth = span.foldl Depth.after depth := by
  induction span generalizing depth with
  | nil => rfl
  | cons tree span ih =>
    rw [joinLines, List.filter_cons, List.foldl_cons]
    split
    next => exact ih _
    next hk =>
      obtain ⟨t, rfl, ht⟩ := token_of_hasKind (by simpa using hk)
      rw [Depth.after_newline ht]
      exact ih _

theorem IsUndivided.joinLines (h : IsUndivided kinds depth span) :
    IsUndivided kinds depth (joinLines span) := by
  induction span generalizing depth with
  | nil => exact isUndivided_nil
  | cons tree span ih =>
    obtain ⟨htree, hspan⟩ := isUndivided_cons.mp h
    rw [Offside.joinLines, List.filter_cons]
    split
    next => exact isUndivided_cons.mpr ⟨htree, ih hspan⟩
    next hk =>
      obtain ⟨t, rfl, ht⟩ := token_of_hasKind (by simpa using hk)
      rw [Depth.after_newline ht] at hspan
      exact ih hspan

/-- Line breaks that are no separators make no difference to what divides a span. -/
theorem isUndivided_joinLines (hn : .newline ∉ kinds) :
    IsUndivided kinds depth (joinLines span) ↔ IsUndivided kinds depth span := by
  refine ⟨fun h => ?_, IsUndivided.joinLines⟩
  induction span generalizing depth with
  | nil => exact isUndivided_nil
  | cons tree span ih =>
    rw [joinLines, List.filter_cons] at h
    split at h
    next =>
      obtain ⟨htree, hspan⟩ := isUndivided_cons.mp h
      exact isUndivided_cons.mpr ⟨htree, ih hspan⟩
    next hk =>
      obtain ⟨t, rfl, ht⟩ := token_of_hasKind (by simpa using hk)
      refine isUndivided_cons.mpr ⟨separator?_of_not_mem (ht ▸ hn), ?_⟩
      rw [Depth.after_newline ht]
      exact ih h

theorem topIndex?_joinLines (hn : .newline ∉ kinds) (span : List Tree) :
    (topIndex? kinds (joinLines span)).isNone = (topIndex? kinds span).isNone := by
  rw [Bool.eq_iff_iff, Option.isNone_iff_eq_none, Option.isNone_iff_eq_none, topIndex?_eq_none_iff,
    topIndex?_eq_none_iff, isUndivided_joinLines hn]

theorem divide?_joinLines (hn : .newline ∉ kinds) (span : List Tree) :
    divide? kinds (joinLines span) =
      (divide? kinds span).map fun d => (joinLines d.1, d.2.1, joinLines d.2.2) := by
  cases hd : divide? kinds span with
  | none => exact divide?_eq_none_iff.mpr (divide?_eq_none_iff.mp hd).joinLines
  | some d =>
    obtain ⟨left, t, right⟩ := d
    obtain ⟨rfl, hleft, ht⟩ := divide?_eq_some_iff.mp hd
    have hk : t.kind ≠ .newline := fun he => hn (he ▸ kind_of_divide? hd)
    refine divide?_eq_some_iff.mpr ⟨?_, hleft.joinLines, ?_⟩
    · rw [joinLines_append, joinLines_token hk]
    · rw [foldl_after_joinLines, ht]

theorem hasArrow_eq_false (h : IsUndivided [.arrow] .top span) : hasArrow span = false := by
  rw [hasArrow, topIndex?_eq_none_iff.mpr h]
  rfl

theorem canBeSubject_iff : canBeSubject span = true ↔
    span ≠ [] ∧ IsUndivided [.operator, .assignment, .arrow] .top span := by
  rw [canBeSubject, Bool.and_eq_true, Option.isNone_iff_eq_none, topIndex?_eq_none_iff]
  simp

end

/-- Whether the brackets opened in a span are closed in it, sort by sort. -/
def IsBalanced (span : List Tree) : Prop :=
  span.foldl Depth.after .top = .top

/-- The parts between separators, empty ones included. -/
def partsBetween (kinds : List Kind) (span : List Tree) : List (List Tree) :=
  (cut kinds span).1 :: (cut kinds span).2.map Prod.snd

section

variable {kinds : List Kind} {xs ys part : List Tree}

/-- A separator after balanced brackets divides a span, whatever comes after it. -/
theorem partsBetween_append {t : Token} (balanced : IsBalanced xs) (ht : t.hasKindIn kinds = true)
    (flat : Depth.top.after (.token t) = .top) :
    partsBetween kinds (xs ++ .token t :: ys) = partsBetween kinds xs ++ partsBetween kinds ys := by
  have hs : separator? kinds (.token t, .top) = some t := by simp [separator?, ht]
  have hd : depths .top (xs ++ .token t :: ys) =
      depths .top xs ++ (.token t, .top) :: depths .top ys := by
    rw [depths_append, balanced, depths, flat]
  rw [partsBetween, partsBetween, partsBetween, cut, cut, cut, hd, sections_append_separator hs]
  simp only [List.map_append, List.map_cons, List.cons_append]

theorem isInfix_of_mem_partsBetween (h : part ∈ partsBetween kinds xs) : part <:+: xs := by
  rcases List.mem_cons.mp h with rfl | h
  · exact cut_fst_isPrefix.isInfix
  · obtain ⟨c, hc, rfl⟩ := List.mem_map.mp h
    exact cut_snd_isInfix hc

theorem mem_partsBetween_of_mem_split (h : part ∈ split kinds false xs) :
    part ∈ partsBetween kinds xs := by
  unfold split at h
  split at h
  next => cases h
  next => exact h

theorem cut_of_isUndivided (h : IsUndivided kinds .top xs) : cut kinds xs = (xs, []) := by
  have hs := @sections_append_plain _ _ (separator? kinds) (depths .top xs) [] h
  rw [List.append_nil] at hs
  rw [cut, hs]
  simp only [sections, List.append_nil, List.map_nil, map_fst_depths]

theorem append_sections (kinds : List Kind) (items : List (Tree × Depth)) :
    (sections (separator? kinds) items).1.map Prod.fst ++
      (sections (separator? kinds) items).2.flatMap
        (fun c => .token c.1 :: c.2.map Prod.fst) = items.map Prod.fst := by
  induction items with
  | nil => rfl
  | cons item items ih =>
    cases hs : separator? kinds item with
    | some t =>
      simp only [sections, hs, List.map_nil, List.flatMap_cons, List.map_cons, List.nil_append]
      rw [List.cons_append, ih, token_of_separator? hs]
    | none =>
      simp only [sections, hs, List.map_cons, List.cons_append]
      rw [ih]

/-- Separators and the parts between them make up the span. -/
theorem append_cut (kinds : List Kind) (span : List Tree) :
    (cut kinds span).1 ++ (cut kinds span).2.flatMap (fun c => .token c.1 :: c.2) = span := by
  have h := append_sections kinds (depths .top span)
  rw [map_fst_depths] at h
  rw [cut, List.flatMap_map]
  exact h

theorem partsBetween_of_plain (h : ∀ item ∈ depths .top xs, separator? kinds item = none) :
    partsBetween kinds xs = [xs] := by
  rw [partsBetween, cut_of_isUndivided h]
  rfl

/-- Line breaks that are no separators make no difference to where a span is cut. -/
theorem cut_joinLines (hn : .newline ∉ kinds) (span : List Tree) : cut kinds (joinLines span) =
    (joinLines (cut kinds span).1, (cut kinds span).2.map fun c => (c.1, joinLines c.2)) := by
  have key : ∀ (span : List Tree) (depth : Depth),
      (sections (separator? kinds) (depths depth (joinLines span))).1.map Prod.fst =
          joinLines ((sections (separator? kinds) (depths depth span)).1.map Prod.fst) ∧
        (sections (separator? kinds) (depths depth (joinLines span))).2.map
            (fun c => (c.1, c.2.map Prod.fst)) =
          (sections (separator? kinds) (depths depth span)).2.map
            fun c => (c.1, joinLines (c.2.map Prod.fst)) := by
    intro span
    induction span with
    | nil => exact fun depth => ⟨rfl, rfl⟩
    | cons tree span ih =>
      intro depth
      obtain ⟨hfirst, hothers⟩ := ih (depth.after tree)
      cases hk : tree.hasKind .newline with
      | true =>
        obtain ⟨t, rfl, ht⟩ := token_of_hasKind hk
        have hjoin := joinLines_cons_of_newline hk
        rw [Depth.after_newline ht] at hfirst hothers
        simp only [hjoin, depths, sections, separator?_of_not_mem (ht ▸ hn), Depth.after_newline ht,
          List.map_cons]
        exact ⟨hfirst, hothers⟩
      | false =>
        have hjoin := joinLines_cons hk
        rw [hjoin, depths, depths, sections, sections]
        cases separator? kinds (tree, depth.after tree) with
        | some t => exact ⟨rfl, congrArg₂ List.cons (congrArg _ hfirst) hothers⟩
        | none =>
          simp only [List.map_cons, hjoin]
          exact ⟨congrArg _ hfirst, hothers⟩
  obtain ⟨hfirst, hothers⟩ := key span .top
  rw [cut, cut]
  refine Prod.ext hfirst ?_
  rw [List.map_map]
  exact hothers

end

end Offside
