import Offside.Proofs.CountedBrackets
import Offside.Proofs.NonnegativeDepth
import Offside.Proofs.Printing

namespace Offside

/-- Whether an item is a bracket of any sort. -/
def Tree.isBracket : Tree → Bool
  | token t => t.kind.isBracket
  | group _ => false

/-- Whether the brackets of a span close each other in pairs, each pair around a span of this sort. -/
inductive IsWellBracketed : List Tree → Prop where
  | nil : IsWellBracketed []
  | item {tree : Tree} {span : List Tree} (plain : tree.isBracket = false)
    (rest : IsWellBracketed span) : IsWellBracketed (tree :: span)
  | pair {opener closer : Token} {inside span : List Tree}
    (closes : opener.kind.closer? = some closer.kind) (inner : IsWellBracketed inside)
    (rest : IsWellBracketed span) :
    IsWellBracketed (.token opener :: (inside ++ .token closer :: span))

/-- Whether some bracket is open, and none has been closed too often. -/
def Depth.IsInside (depth : Depth) : Prop :=
  depth.IsNonneg ∧ depth ≠ .top

section

variable {opener closer : Token} {depth : Depth}

theorem Depth.after_closer (closes : opener.kind.closer? = some closer.kind) (depth : Depth) :
    (depth.after (.token opener)).after (.token closer) = depth := by
  cases ho : opener.kind <;> simp [ho, Kind.closer?] at closes <;>
    simp [Depth.after, ho, ← closes]

theorem Depth.IsNonneg.after_opener (h : depth.IsNonneg)
    (closes : opener.kind.closer? = some closer.kind) :
    (depth.after (.token opener)).IsInside := by
  obtain ⟨hparens, hbrackets, hbraces⟩ := h
  cases ho : opener.kind <;> simp [ho, Kind.closer?] at closes <;>
    simp only [Depth.after, ho, IsInside, IsNonneg, ne_eq, Depth.top, Depth.mk.injEq] <;> omega

theorem Depth.after_of_not_isBracket {tree : Tree} (h : tree.isBracket = false) (depth : Depth) :
    depth.after tree = depth := by
  cases tree with
  | group items => rfl
  | token t => cases hk : t.kind <;> simp_all [Depth.after, Tree.isBracket, Kind.isBracket]

theorem Kind.closer?_isBracket {kind closing : Kind} (h : kind.closer? = some closing) :
    kind.isBracket = true ∧ closing.isBracket = true := by
  cases kind <;> simp [closer?] at h <;> subst h <;> decide

/-- Two pairs of brackets are of the same sort, or have nothing in common. -/
theorem Kind.closer?_cases {kind closing kind' closing' : Kind} (h : kind.closer? = some closing)
    (h' : kind'.closer? = some closing') : kind = kind' ∧ closing = closing' ∨
      kind ≠ kind' ∧ kind ≠ closing' ∧ closing ≠ kind' ∧ closing ≠ closing' := by
  cases kind <;> simp [closer?] at h <;> cases kind' <;> simp [closer?] at h' <;> subst h h' <;>
    decide

theorem Kind.ne_of_closer? {kind closing : Kind} (h : kind.closer? = some closing) :
    kind ≠ closing := by
  cases kind <;> simp [closer?] at h <;> subst h <;> decide

end

namespace IsWellBracketed

variable {span xs ys : List Tree} {depth : Depth} {kinds : List Kind}

theorem of_plain (h : ∀ tree ∈ span, tree.isBracket = false) : IsWellBracketed span := by
  induction span with
  | nil => exact .nil
  | cons tree span ih =>
    obtain ⟨htree, hspan⟩ := List.forall_mem_cons.mp h
    exact .item htree (ih hspan)

/-- A well-bracketed span leaves the depth as it was. -/
theorem foldl (h : IsWellBracketed span) (depth : Depth) : span.foldl Depth.after depth = depth := by
  induction h generalizing depth with
  | nil => rfl
  | item plain rest ih => rw [List.foldl_cons, Depth.after_of_not_isBracket plain, ih]
  | pair closes inner rest ihinner ih =>
    rw [List.foldl_cons, List.foldl_append, ihinner, List.foldl_cons, Depth.after_closer closes, ih]

theorem isBalanced (h : IsWellBracketed span) : IsBalanced span :=
  h.foldl .top

/-- Inside of brackets nothing divides a well-bracketed span. -/
theorem isUndivided (h : IsWellBracketed span) (hd : depth.IsInside) :
    IsUndivided kinds depth span := by
  have hnone : ∀ (tree : Tree) (depth : Depth), depth.IsInside →
      separator? kinds (tree, depth) = none := by
    intro tree depth hd
    cases hs : separator? kinds (tree, depth) with
    | none => rfl
    | some t => exact absurd (kind_of_separator? hs).2 hd.2
  induction h generalizing depth with
  | nil => exact isUndivided_nil
  | item plain rest ih =>
    rw [isUndivided_cons, Depth.after_of_not_isBracket plain]
    exact ⟨hnone _ _ hd, ih hd⟩
  | pair closes inner rest ihinner ih =>
    have hinside := hd.1.after_opener closes
    rw [isUndivided_cons, isUndivided_append, inner.foldl, isUndivided_cons,
      Depth.after_closer closes]
    exact ⟨hnone _ _ hinside, ihinner hinside, hnone _ _ hd, ih hd⟩

/-- A search for a bracket passes a well-bracketed span from either side. -/
theorem isPassed (h : IsWellBracketed span) {opening closing : Kind}
    (closes : opening.closer? = some closing) :
    IsPassed opening closing span ∧ IsPassed closing opening span.reverse := by
  have hne := Kind.ne_of_closer? closes
  induction h with
  | nil => exact ⟨isPassed_nil, isPassed_nil⟩
  | @item tree span plain rest ih =>
    have hkind : ∀ {kind : Kind}, kind.isBracket = true → tree.hasKind kind = false := by
      intro kind hk
      cases tree with
      | group items => rfl
      | token t =>
        refine beq_eq_false_iff_ne.mpr ?_
        rintro rfl
        simp [Tree.isBracket, hk] at plain
    obtain ⟨ho, hc⟩ := Kind.closer?_isBracket closes
    rw [List.reverse_cons]
    exact ⟨(isPassed_single (hkind ho) (hkind hc)).append ih.1,
      ih.2.append (isPassed_single (hkind hc) (hkind ho))⟩
  | @pair opener closer inside span closes' inner rest ihinner ih =>
    have hreverse : (Tree.token opener :: (inside ++ .token closer :: span)).reverse =
        span.reverse ++ .token closer :: (inside.reverse ++ [.token opener]) := by simp
    have hsplit : Tree.token opener :: (inside ++ .token closer :: span) =
        .token opener :: (inside ++ [.token closer]) ++ span := by simp
    rw [hreverse, hsplit]
    rcases Kind.closer?_cases closes' closes with ⟨ho, hc⟩ | ⟨hoo, hoc, hco, hcc⟩
    · exact ⟨(ihinner.1.enclosed hne ho hc).append ih.1,
        ih.2.append (ihinner.2.enclosed hne.symm hc ho)⟩
    · have hsingle : ∀ {t : Token} {kind kind' : Kind}, t.kind ≠ kind → t.kind ≠ kind' →
          IsPassed kind kind' [.token t] := fun h h' =>
        isPassed_single (beq_eq_false_iff_ne.mpr h) (beq_eq_false_iff_ne.mpr h')
      refine ⟨?_, ih.2.append ?_⟩
      · exact ((hsingle hoo hoc).append (ihinner.1.append (hsingle hco hcc))).append ih.1
      · exact (hsingle hcc hco).append (ihinner.2.append (hsingle hoc hoo))

theorem isMatched (h : IsWellBracketed span) : IsMatched span :=
  (h.isPassed (rfl : Kind.openParen.closer? = some .closeParen)).1

/-- The opening square bracket in front of a well-bracketed span is the one its last item closes. -/
theorem openOfLast?_eq (h : IsWellBracketed span) {opener closer : Token}
    (ho : opener.kind = .openBracket) (hc : closer.kind = .closeBracket) (subject : List Tree) :
    openOfLast? (subject ++ .token opener :: (span ++ [.token closer])) = some subject.length := by
  have hreverse : (subject ++ Tree.token opener :: (span ++ [.token closer])).reverse =
      .token closer :: (span.reverse ++ .token opener :: subject.reverse) := by simp
  have hpassed := (h.isPassed (rfl : Kind.openBracket.closer? = some .closeBracket)).2
  have hfound := hpassed.closerIndex?_eq (by decide) ho subject.reverse
  rw [openOfLast?, hreverse]
  simp [Tree.hasKind, hc, hfound]

/-- What becomes of a pair of brackets: parentheses get a group between them. -/
theorem regroup_pair {opener closer : Token} (h : IsWellBracketed xs)
    (closes : opener.kind.closer? = some closer.kind)
    (hopens : BlockForm.introducedBy? opener = none)
    (hcloses : BlockForm.introducedBy? closer = none)
    (hbehind : ∀ rest, regroup (xs ++ rest) = regroup xs ++ regroup rest) :
    ∃ inside, (inside = [.group (regroup xs)] ∨ inside = regroup xs) ∧
      ∀ rest, regroup (.token opener :: (xs ++ .token closer :: rest)) =
        .token opener :: (inside ++ .token closer :: regroup rest) := by
  by_cases ho : opener.kind = .openParen
  · have hc : closer.kind = .closeParen := by
      rw [ho] at closes
      exact (Option.some.inj closes).symm
    exact ⟨_, .inl rfl, h.isMatched.regroup_enclosed ho hc⟩
  · have hc : closer.kind ≠ .openParen := by
      rcases Kind.closer?_cases closes (rfl : Kind.openParen.closer? = _) with ⟨h, -⟩ | ⟨-, -, h, -⟩
      · exact absurd h ho
      · exact h
    refine ⟨_, .inr rfl, fun rest => ?_⟩
    rw [regroup_cons_of_none ho hopens, hbehind, regroup_cons_of_none hc hcloses]

/-- Grouping the parentheses of a flat span does not depend on what stands behind it, and changes
nothing about its brackets and about what stands outside of them. -/
theorem regroup (h : IsWellBracketed span) (flat : IsFlat span) :
    (∀ rest, Offside.regroup (span ++ rest) = Offside.regroup span ++ Offside.regroup rest) ∧
      IsWellBracketed (Offside.regroup span) ∧
      ∀ {kinds : List Kind} {depth : Depth}, IsUndivided kinds depth span →
        IsUndivided kinds depth (Offside.regroup span) := by
  have hnone : ∀ {t : Token}, (∃ u, Tree.token t = .token u ∧ u.kind ≠ .newline ∧
      BlockForm.introducedBy? u = none) → BlockForm.introducedBy? t = none := by
    rintro t ⟨u, hu, -, hnone⟩
    exact Tree.token.inj hu ▸ hnone
  induction h with
  | nil =>
    rw [Offside.regroup]
    exact ⟨fun rest => rfl, .nil, id⟩
  | @item tree span plain rest ih =>
    obtain ⟨⟨t, rfl, -, ht⟩, hflat⟩ := List.forall_mem_cons.mp flat
    obtain ⟨hbehind, hspan, hundivided⟩ := ih hflat
    have hopen : t.kind ≠ .openParen := by
      intro hk
      simp [Tree.isBracket, hk, Kind.isBracket] at plain
    have hregroup : ∀ span : List Tree, Offside.regroup (.token t :: span) =
        .token t :: Offside.regroup span := fun _ => regroup_cons_of_none hopen ht
    refine ⟨fun rest => ?_, ?_, fun hu => ?_⟩
    · rw [List.cons_append, hregroup, hregroup, hbehind, List.cons_append]
    · rw [hregroup]
      exact .item plain hspan
    · obtain ⟨htree, hu⟩ := isUndivided_cons.mp hu
      rw [hregroup]
      exact isUndivided_cons.mpr ⟨htree, hundivided hu⟩
  | @pair opener closer xs span closes inner rest ihinner ih =>
    obtain ⟨hopener, hflat⟩ := List.forall_mem_cons.mp flat
    obtain ⟨hinside, hflat⟩ := List.forall_mem_append.mp hflat
    obtain ⟨hcloser, hflat⟩ := List.forall_mem_cons.mp hflat
    obtain ⟨hbehind, hspan, hundivided⟩ := ih hflat
    obtain ⟨hbehind', hinner, hundivided'⟩ := ihinner hinside
    obtain ⟨inside, hcases, hregroup⟩ :=
      inner.regroup_pair closes (hnone hopener) (hnone hcloser) hbehind'
    have hwell : IsWellBracketed inside := by
      rcases hcases with rfl | rfl
      · exact .item rfl .nil
      · exact hinner
    refine ⟨fun rest => ?_, ?_, fun hu => ?_⟩
    · rw [List.cons_append, List.append_assoc, List.cons_append, hregroup, hregroup, hbehind]
      simp
    · rw [hregroup]
      exact .pair closes hwell hspan
    · rw [isUndivided_cons, isUndivided_append, inner.foldl, isUndivided_cons] at hu
      obtain ⟨hfirst, hin, hlast, hu⟩ := hu
      rw [hregroup, isUndivided_cons, isUndivided_append, hwell.foldl, isUndivided_cons]
      refine ⟨hfirst, ?_, hlast, hundivided hu⟩
      rcases hcases with rfl | rfl
      · exact isUndivided_cons.mpr ⟨rfl, isUndivided_nil⟩
      · exact hundivided' hin

theorem groups {tokens : List Token} (h : IsWellBracketed (tokens.map .token))
    (flat : IsFlat (tokens.map .token)) : Groups tokens (Offside.regroup (tokens.map .token)) :=
  ⟨flat, h.isMatched, (h.regroup flat).1⟩

/-- Line breaks are no brackets. -/
theorem joinLines (h : IsWellBracketed span) : IsWellBracketed (joinLines span) := by
  have bracket : ∀ {kind : Kind}, kind.isBracket = true → kind ≠ .newline := by
    rintro kind hk rfl
    cases hk
  induction h with
  | nil => exact .nil
  | @item tree span plain rest ih =>
    rw [Offside.joinLines, List.filter_cons]
    split
    next => exact .item plain ih
    next => exact ih
  | pair closes inner rest ihinner ih =>
    obtain ⟨hopener, hcloser⟩ := Kind.closer?_isBracket closes
    rw [joinLines_token (bracket hopener), joinLines_append, joinLines_token (bracket hcloser)]
    exact .pair closes ihinner ih

end IsWellBracketed

end Offside
