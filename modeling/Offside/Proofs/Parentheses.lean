import Offside.Proofs.BlockLayout

namespace Offside

/-- Whether a search for a closing bracket goes past a span, whatever comes after it. -/
def IsPassed (opening closing : Kind) (span : List Tree) : Prop :=
  ∀ inner rest, closerIndex? opening closing inner (span ++ rest) =
    (closerIndex? opening closing inner rest).map (· + span.length)

/-- Whether a search for a closing parenthesis goes past a span, whatever comes after it. -/
def IsMatched (span : List Tree) : Prop :=
  ∀ inner rest, closerIndex? .openParen .closeParen inner (span ++ rest) =
    (closerIndex? .openParen .closeParen inner rest).map (· + span.length)

/-- Whether a span is nothing but tokens that neither break a line nor begin a block. -/
def IsFlat (span : List Tree) : Prop :=
  ∀ tree ∈ span, ∃ t, tree = .token t ∧ t.kind ≠ .newline ∧ BlockForm.introducedBy? t = none

section

variable {opening closing : Kind} {xs ys : List Tree} {opener closer : Token} {tree : Tree}

theorem isPassed_nil : IsPassed opening closing [] := by
  intro inner rest
  simp

theorem IsPassed.append (hx : IsPassed opening closing xs) (hy : IsPassed opening closing ys) :
    IsPassed opening closing (xs ++ ys) := by
  intro inner rest
  rw [List.append_assoc, hx, hy, Option.map_map]
  congr 1
  funext n
  simp only [Function.comp_apply, List.length_append]
  omega

theorem isPassed_single (ho : tree.hasKind opening = false) (hc : tree.hasKind closing = false) :
    IsPassed opening closing [tree] := by
  intro inner rest
  simp [closerIndex?, ho, hc]

theorem IsPassed.closerIndex?_eq (h : IsPassed opening closing xs) (hne : opening ≠ closing)
    (hc : closer.kind = closing) (rest : List Tree) :
    closerIndex? opening closing 0 (xs ++ .token closer :: rest) = some xs.length := by
  rw [h, closerIndex?, if_neg (by simp [Tree.hasKind, hc, hne.symm]),
    if_pos (by simp [Tree.hasKind, hc])]
  simp

theorem IsPassed.enclosed (h : IsPassed opening closing xs) (hne : opening ≠ closing)
    (ho : opener.kind = opening) (hc : closer.kind = closing) :
    IsPassed opening closing (.token opener :: (xs ++ [.token closer])) := by
  intro inner rest
  have hopens : ∀ span, closerIndex? opening closing inner (.token opener :: span) =
      (closerIndex? opening closing (inner + 1) span).map (· + 1) := by
    intro span
    simp [closerIndex?, Tree.hasKind, ho]
  have hcloses : closerIndex? opening closing (inner + 1) (.token closer :: rest) =
      (closerIndex? opening closing inner rest).map (· + 1) := by
    simp [closerIndex?, Tree.hasKind, hc, hne.symm]
  rw [List.cons_append, List.append_assoc, hopens, h, List.singleton_append, hcloses,
    Option.map_map, Option.map_map]
  congr 1
  funext n
  simp only [Function.comp_apply, List.length_cons, List.length_append, List.length_nil]
  omega

end

section

variable {span xs ys : List Tree} {t opener closer : Token} {tree : Tree}

theorem isMatched_nil : IsMatched [] :=
  isPassed_nil

theorem IsMatched.append (hx : IsMatched xs) (hy : IsMatched ys) : IsMatched (xs ++ ys) :=
  IsPassed.append hx hy

theorem isMatched_single (ho : tree.hasKind .openParen = false)
    (hc : tree.hasKind .closeParen = false) : IsMatched [tree] :=
  isPassed_single ho hc

theorem IsMatched.closerIndex?_eq (h : IsMatched xs) (hc : closer.kind = .closeParen)
    (rest : List Tree) :
    closerIndex? .openParen .closeParen 0 (xs ++ .token closer :: rest) = some xs.length :=
  IsPassed.closerIndex?_eq h (by decide) hc rest

theorem IsMatched.enclosed (h : IsMatched xs) (ho : opener.kind = .openParen)
    (hc : closer.kind = .closeParen) :
    IsMatched (.token opener :: (xs ++ [.token closer])) :=
  IsPassed.enclosed h (by decide) ho hc

theorem regroup_single (tree : Tree) : regroup [tree] = [tree] := by
  rw [regroup]
  simp [closerIndex?, regroup]

/-- What stands between matching parentheses becomes a group. -/
theorem IsMatched.regroup_enclosed (h : IsMatched xs) (ho : opener.kind = .openParen)
    (hc : closer.kind = .closeParen) (rest : List Tree) :
    regroup (.token opener :: (xs ++ .token closer :: rest)) =
      .token opener :: .group (regroup xs) :: .token closer :: regroup rest := by
  have hopens : BlockForm.introducedBy? opener = none := introducedBy?_eq_none (by simp [ho])
  have hcloses : BlockForm.introducedBy? closer = none := introducedBy?_eq_none (by simp [hc])
  have hparen : Tree.hasKind .openParen (.token opener) = true := by simp [Tree.hasKind, ho]
  rw [regroup, if_neg (by simp [not_opensBlock_of_introducedBy? hopens]), if_pos hparen,
    h.closerIndex?_eq hc]
  dsimp only
  rw [List.take_left, List.drop_left, regroup_cons_of_none (by simp [hc]) hcloses]

theorem mem_regroup (h : tree ∈ regroup span) : tree ∈ span ∨ tree.isGroup = true := by
  fun_induction regroup span with
  | case1 => cases h
  | case2 first span _ => exact .inl h
  | case3 first span _ _ n _ _ ihdrop =>
    rcases List.mem_cons.mp h with rfl | h
    · exact .inl List.mem_cons_self
    · rcases List.mem_cons.mp h with rfl | h
      · exact .inr rfl
      · exact (ihdrop h).imp (fun hm => List.mem_cons_of_mem _ (List.mem_of_mem_drop hm)) id
  | case4 first span _ _ _ _ => exact .inl (by simp_all)
  | case5 first span _ _ _ _ _ =>
    rcases List.mem_cons.mp h with rfl | h
    · exact .inl List.mem_cons_self
    · obtain rfl := List.mem_singleton.mp h
      exact .inr rfl
  | case6 first span _ _ ih =>
    rcases List.mem_cons.mp h with rfl | h
    · exact .inl List.mem_cons_self
    · exact (ih h).imp (List.mem_cons_of_mem _) id

theorem regroup_cons_eq (tree : Tree) (span : List Tree) :
    ∃ rest, regroup (tree :: span) = tree :: rest := by
  rw [regroup]
  split
  next => exact ⟨_, rfl⟩
  next =>
    split
    next =>
      split
      next => exact ⟨_, rfl⟩
      next => split <;> exact ⟨_, rfl⟩
    next => exact ⟨_, rfl⟩

theorem IsFlat.spread_append (h : IsFlat xs) (ys : List Tree) :
    spread (xs ++ ys) = (xs ++ (spread ys).1, (spread ys).2) := by
  induction xs with
  | nil => rfl
  | cons tree xs ih =>
    obtain ⟨⟨t, rfl, hk, ht⟩, hxs⟩ := List.forall_mem_cons.mp h
    rw [List.cons_append, spread_cons_of_none hk ht, ih hxs]
    rfl

theorem spread_group_cons (items : List Tree) (span : List Tree)
    (h : spread items = (xs, false)) :
    spread (.group items :: span) = (xs ++ (spread span).1, (spread span).2) := by
  rw [spread, Tree.spread, h]

/-- Joining the lines of a flat span after its parentheses were grouped gives the span back. -/
theorem IsFlat.spread_regroup (h : IsFlat span) : spread (regroup span) = (span, false) := by
  have token : ∀ {tree span}, IsFlat (tree :: span) → ∀ rest, spread (tree :: rest) =
      (tree :: (spread rest).1, (spread rest).2) := by
    intro tree span hflat rest
    obtain ⟨t, rfl, hk, ht⟩ := hflat tree List.mem_cons_self
    exact spread_cons_of_none hk ht
  fun_induction regroup span with
  | case1 => rfl
  | case2 tree span hopens =>
    obtain ⟨t, rfl, -, ht⟩ := h tree List.mem_cons_self
    rw [not_opensBlock_of_introducedBy? ht] at hopens
    cases hopens
  | case3 tree span _ _ n _ ihtake ihdrop =>
    have hspan := (List.forall_mem_cons.mp h).2
    rw [token h, spread_group_cons _ _ (ihtake fun x hx => hspan x (List.mem_of_mem_take hx)),
      ihdrop fun x hx => hspan x (List.mem_of_mem_drop hx)]
    simp only [List.take_append_drop]
  | case4 tree span _ _ _ he =>
    rw [token h, List.isEmpty_iff.mp he]
    rfl
  | case5 tree span _ _ _ _ ih =>
    rw [token h, spread_group_cons _ _ (ih (List.forall_mem_cons.mp h).2)]
    simp [spread]
  | case6 tree span _ _ ih =>
    rw [token h, ih (List.forall_mem_cons.mp h).2]

end

section

variable {r : Readers} {span : List Tree} {t : Token}

theorem readSimple_of_eq {compound compound' : List Tree → Outcome Value}
    (h : compound span = compound' span) :
    readSimple r span compound = readSimple r span compound' := by
  rw [readSimple, readSimple, h]

theorem readSimple_self (compound : List Tree → Outcome Value) :
    readSimple r span (fun span => readSimple r span compound) = readSimple r span compound := by
  simp only [readSimple]
  split
  next => rfl
  next =>
    split
    next => rfl
    next => rfl

theorem readValue_of_token (plain : ∀ tree ∈ .token t :: span, tree.hasKind .newline = false)
    (ht : BlockForm.introducedBy? t = none) :
    readValue (.token t :: span) = readSimple readers (.token t :: span) (readFlat readers) := by
  rw [readValue_eq, valueStep, unwrap_of_token plain]
  simp [not_opensBlock_of_introducedBy? ht]

theorem readFlat_of_fixed (h : regroup (spread span).1 = span) :
    readSimple r span (readFlat r) = readSimple r span (readConstruct r) :=
  (readSimple_of_eq (by rw [readFlat, h])).trans (readSimple_self (readConstruct r))

theorem IsFlat.inParens?_eq (h : IsFlat span) : inParens? span = none := by
  unfold inParens?
  split
  next left items right =>
    obtain ⟨t, ht, -⟩ := h (.group items) (by simp)
    cases ht
  next => rfl

/-- A flat span is read as a composite expression once its parentheses are grouped. -/
theorem IsFlat.readValue_regroup (h : IsFlat span) (hne : span ≠ []) :
    readValue (regroup span) = readSimple readers (regroup span) (readConstruct readers) := by
  obtain ⟨tree, rest, rfl⟩ := List.exists_cons_of_ne_nil hne
  obtain ⟨t, rfl, hk, ht⟩ := h tree List.mem_cons_self
  have hspread := h.spread_regroup
  have hplain : ∀ tree ∈ regroup (.token t :: rest), tree.hasKind .newline = false := by
    intro tree hm
    rcases mem_regroup hm with hm | hg
    · obtain ⟨u, rfl, hu, -⟩ := h tree hm
      simpa [Tree.hasKind] using hu
    · cases tree with
      | token u => cases hg
      | group items => rfl
  have hfixed : regroup (spread (regroup (.token t :: rest))).1 = regroup (.token t :: rest) := by
    rw [hspread]
  obtain ⟨more, hr⟩ := regroup_cons_eq (.token t) rest
  rw [hr] at hplain hfixed ⊢
  rw [readValue_of_token hplain ht, readFlat_of_fixed hfixed]

/-- Grouping the parentheses of a flat span does not change how it is read. -/
theorem IsFlat.readValue_eq (h : IsFlat span) (hne : span ≠ []) :
    readValue span = readValue (regroup span) := by
  rw [h.readValue_regroup hne]
  obtain ⟨tree, rest, rfl⟩ := List.exists_cons_of_ne_nil hne
  obtain ⟨t, rfl, hk, ht⟩ := h tree List.mem_cons_self
  have hplain : ∀ tree ∈ .token t :: rest, tree.hasKind .newline = false := by
    intro tree hm
    obtain ⟨u, rfl, hu, -⟩ := h tree hm
    simpa [Tree.hasKind] using hu
  rw [readValue_of_token hplain ht]
  cases rest with
  | nil =>
    rw [regroup_single, readFlat_of_fixed]
    rw [spread_cons_of_none hk ht]
    exact regroup_single _
  | cons next rest =>
    have hspread := h.spread_append []
    rw [List.append_nil] at hspread
    have hliteral : literal? (.token t :: next :: rest) = none := rfl
    rw [readSimple, hliteral, h.inParens?_eq]
    dsimp only
    rw [readFlat, hspread]
    simp [spread]

/-- What stands in parentheses is read by itself. -/
theorem readValue_parens {opener closer : Token} (ho : opener.kind = .openParen)
    (hc : closer.kind = .closeParen) (items : List Tree) :
    readValue [.token opener, .group items, .token closer] = readValue items := by
  have hplain : ∀ tree ∈ [Tree.token opener, .group items, .token closer],
      tree.hasKind .newline = false := by
    simp [Tree.hasKind, ho, hc]
  have hparens : inParens? [.token opener, .group items, .token closer] = some items := by
    simp [inParens?, Tree.hasKind, ho, hc]
  have hliteral : literal? [.token opener, .group items, .token closer] = none := rfl
  rw [readValue_of_token hplain (introducedBy?_eq_none (by simp [ho])), readSimple, hliteral,
    hparens]
  rfl

end

end Offside
