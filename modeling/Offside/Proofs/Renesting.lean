import Offside.Proofs.Unnesting

namespace Offside

/-- What a span becomes when its lines are joined and its parentheses grouped. -/
def refined (span : List Tree) : List Tree :=
  regroup (spread span).1

/-- A span with so many groups around the whole of it. -/
def enclose : Nat → List Tree → List Tree
  | 0, span => span
  | n + 1, span => [.group (enclose n span)]

/-- An item outside of parentheses that the regrouping leaves where it is. -/
structure Tree.IsPlain (tree : Tree) : Prop where
  notOpener : tree.hasKind .openParen = false
  blockless : IsBlockless [tree]

/-- Whether a span comes from another by more groups around what stands in parentheses. With `even`
they only come around groups. Parentheses inside the parentheses may differ in the same way. Up to
the last block, the parentheses in each group match. -/
inductive Renested : Bool → List Tree → List Tree → Prop where
  | same {even : Bool} (span : List Tree) : Renested even span span
  | item {even : Bool} {tree : Tree} {xs ys : List Tree} (plain : tree.IsPlain)
    (paired : (tree.isGroup = true → IsPaired tree.spread.1) ∨ IsBlockless xs)
    (rest : Renested even xs ys) : Renested even (tree :: xs) (tree :: ys)
  | parens {even : Bool} {n k : Nat} {opener closer : Token} {items items' xs ys : List Tree}
    (opens : opener.kind = .openParen) (closes : closer.kind = .closeParen)
    (paired : IsPaired (spread items).1 ∧ IsPaired (spread items').1 ∨
      IsBlockless items ∧ IsBlockless xs)
    (more : even = true → n = 0 → k = 0) (inside : Renested false items items')
    (rest : Renested even xs ys) :
    Renested even (.token opener :: .group (enclose n items) :: .token closer :: xs)
      (.token opener :: .group (enclose (n + k) items') :: .token closer :: ys)
  | unclosed {even : Bool} {n k : Nat} {opener : Token} {items items' : List Tree}
    (opens : opener.kind = .openParen)
    (closed : (∃ m, openAfter? 0 (spread items).1 = some m) ∧
      (∃ m, openAfter? 0 (spread items').1 = some m) ∨ IsBlockless items)
    (inside : Renested false items items') :
    Renested even [.token opener, .group (enclose n items)]
      [.token opener, .group (enclose (n + k) items')]

section

variable {span xs ys items : List Tree} {t opener closer : Token} {even : Bool} {m n : Nat}

@[simp] theorem spread_group (items : List Tree) : spread [.group items] = spread items := by
  rw [spread, Tree.spread]
  rcases spread items with ⟨inner, _ | _⟩ <;> simp [spread]

@[simp] theorem spread_enclose (n : Nat) (span : List Tree) :
    spread (enclose n span) = spread span := by
  induction n with
  | zero => rfl
  | succ n ih => rw [enclose, spread_group, ih]

@[simp] theorem leaves_enclose (n : Nat) (span : List Tree) :
    leaves (enclose n span) = leaves span := by
  induction n with
  | zero => rfl
  | succ n ih => rw [enclose, leaves, Tree.leaves, ih, leaves, List.append_nil]

theorem isBlockless_enclose : IsBlockless (enclose n span) ↔ IsBlockless span := by
  rw [IsBlockless, IsBlockless, leaves_enclose]

theorem enclose_succ_add (n k : Nat) (span : List Tree) :
    enclose (n + 1 + k) span = [.group (enclose (n + k) span)] := by
  rw [Nat.add_right_comm]
  rfl

theorem refined_token (hk : t.kind ≠ .newline) (ho : t.kind ≠ .openParen)
    (ht : BlockForm.introducedBy? t = none) (span : List Tree) :
    refined (.token t :: span) = .token t :: refined span := by
  rw [refined, spread_cons_of_none hk ht, regroup_cons_of_none ho ht, refined]

/-- A block in parentheses keeps what stands behind the parentheses from being joined. -/
theorem refined_parens_of_block (ho : opener.kind = .openParen) (hc : closer.kind = .closeParen)
    (hp : IsPaired (spread items).1) (hmet : (spread items).2 = true) (n : Nat) (span : List Tree) :
    refined (.token opener :: .group (enclose n items) :: .token closer :: span) =
      .token opener :: .group (refined items) :: .token closer :: regroup span := by
  rw [refined, spread_cons_of_none (by simp [ho]) (introducedBy?_eq_none (by simp [ho])),
    spread_group_append, spread_enclose, if_pos hmet]
  exact hp.isMatched.regroup_enclosed ho hc span

theorem refined_parens (ho : opener.kind = .openParen) (hc : closer.kind = .closeParen)
    (hp : IsPaired (spread items).1) (hmet : (spread items).2 = false) (n : Nat)
    (span : List Tree) :
    refined (.token opener :: .group (enclose n items) :: .token closer :: span) =
      .token opener :: .group (refined items) :: .token closer :: refined span := by
  rw [refined, spread_cons_of_none (by simp [ho]) (introducedBy?_eq_none (by simp [ho])),
    spread_group_append, spread_enclose, if_neg (by simp [hmet]),
    spread_cons_of_none (by simp [hc]) (introducedBy?_eq_none (by simp [hc]))]
  exact hp.isMatched.regroup_enclosed ho hc _

theorem regroup_unclosed (ho : opener.kind = .openParen) (h : openAfter? 0 span = some m) :
    regroup (.token opener :: span) =
      if span.isEmpty then [.token opener] else [.token opener, .group (regroup span)] := by
  have hopens : BlockForm.introducedBy? opener = none := introducedBy?_eq_none (by simp [ho])
  rw [regroup, if_neg (by simp [not_opensBlock_of_introducedBy? hopens]),
    if_pos (by simp [Tree.hasKind, ho]), closerIndex?_eq_none_iff.mpr ⟨m, h⟩]

theorem regroup_parens (ho : opener.kind = .openParen) (hc : closer.kind = .closeParen)
    (items span : List Tree) :
    regroup (.token opener :: .group items :: .token closer :: span) =
      .token opener :: .group [.group items] :: .token closer :: regroup span := by
  have h := (isPaired_group items).isMatched.regroup_enclosed ho hc span
  rwa [regroup_single] at h

theorem regroup_opener_group (ho : opener.kind = .openParen) (items : List Tree) :
    regroup [.token opener, .group items] = [.token opener, .group [.group items]] := by
  rw [regroup_unclosed ho (isPaired_group items), regroup_single]
  rfl

theorem refined_unclosed (ho : opener.kind = .openParen)
    (h : openAfter? 0 (spread items).1 = some m) (n : Nat) :
    refined [.token opener, .group (enclose n items)] =
      if (spread items).1.isEmpty then [.token opener]
      else [.token opener, .group (refined items)] := by
  rw [refined, spread_cons_of_none (by simp [ho]) (introducedBy?_eq_none (by simp [ho])),
    spread_group, spread_enclose, regroup_unclosed ho h]
  rfl

theorem spread_spread (span : List Tree) : (spread (spread span).1).1 = (spread span).1 := by
  rcases spread_reaches span with ⟨-, hreach⟩ | ⟨-, hflat⟩
  · rw [hreach.spread_eq]
  · have h := hflat.spread_append []
    rw [List.append_nil, spread, List.append_nil] at h
    rw [h]

theorem openAfter?_spread_refined (h : openAfter? n (spread span).1 = some m) :
    ∃ i, openAfter? n (spread (refined span)).1 = some i ∧ i ≤ m := by
  refine openAfter?_spread_regroup ?_
  rwa [spread_spread]

theorem IsPaired.spread_refined (h : IsPaired (spread span).1) :
    IsPaired (spread (refined span)).1 := by
  obtain ⟨i, hi, hle⟩ := openAfter?_spread_refined h
  obtain rfl := Nat.le_zero.mp hle
  exact hi

theorem Tree.isPlain_token (ho : t.kind ≠ .openParen) (ht : BlockForm.introducedBy? t = none) :
    (Tree.token t).IsPlain := by
  exact ⟨by simpa [Tree.hasKind] using ho, isBlockless_token_cons.mpr ⟨ht, isBlockless_nil⟩⟩

theorem Tree.IsPlain.spread_snd_eq {tree : Tree} (h : tree.IsPlain) : tree.spread.2 = false := by
  have hs := isBlockless_iff.mp h.blockless
  rw [spread_cons] at hs
  cases hmet : tree.spread.2 with
  | false => rfl
  | true => simp [hmet] at hs

theorem Tree.IsPlain.not_opensBlock {tree : Tree} (h : tree.IsPlain) : tree.opensBlock = false := by
  cases tree with
  | group items => rfl
  | token t => exact not_opensBlock_of_introducedBy? (isBlockless_token_cons.mp h.blockless).1

theorem Tree.IsPlain.regroup_cons {tree : Tree} (h : tree.IsPlain) (span : List Tree) :
    regroup (tree :: span) = tree :: regroup span := by
  rw [regroup, if_neg (by simp [h.not_opensBlock]), if_neg (by simp [h.notOpener])]

theorem isBlockless_regroup : IsBlockless (regroup span) ↔ IsBlockless span := by
  rw [IsBlockless, IsBlockless, leaves_regroup]

theorem Renested.leaves_eq (h : Renested even xs ys) : leaves xs = leaves ys := by
  induction h with
  | same span => rfl
  | item plain paired rest ih => rw [leaves, leaves, ih]
  | parens opens closes paired more inside rest ihin ih =>
    simp only [leaves, Tree.leaves, leaves_enclose, ihin, ih]
  | unclosed opens closed inside ih => simp only [leaves, Tree.leaves, leaves_enclose, ih]

theorem Renested.spread_snd_eq (h : Renested even xs ys) : (spread xs).2 = (spread ys).2 := by
  rw [spread_snd, spread_snd, h.leaves_eq]

/-- Without a block, groups make no difference. -/
theorem Renested.refined_eq (h : Renested even xs ys) (hx : IsBlockless xs) :
    refined xs = refined ys := by
  have hy : IsBlockless ys := by rwa [isBlockless_iff, ← h.spread_snd_eq, ← isBlockless_iff]
  rw [Offside.refined, Offside.refined, hx.spread_eq, hy.spread_eq, h.leaves_eq]

theorem ReachesBlock.isEmpty_eq_false (h : ReachesBlock span) : span.isEmpty = false := by
  cases h <;> rfl

theorem Renested.isEmpty_spread (h : Renested even xs ys) :
    (spread xs).1.isEmpty = (spread ys).1.isEmpty := by
  have hmet := h.spread_snd_eq
  cases hx : (spread xs).2 with
  | false =>
    rw [(isBlockless_iff.mpr hx).spread_eq, (isBlockless_iff.mpr (hmet.symm.trans hx)).spread_eq,
      h.leaves_eq]
  | true =>
    have nonempty : ∀ span, (spread span).2 = true → (spread span).1.isEmpty = false := by
      intro span hs
      rcases spread_reaches span with ⟨-, hreach⟩ | ⟨hno, -⟩
      · exact hreach.isEmpty_eq_false
      · cases hs.symm.trans hno
    rw [nonempty xs hx, nonempty ys (hmet.symm.trans hx)]

theorem Renested.uneven (h : Renested even xs ys) : Renested false xs ys := by
  induction h with
  | same span => exact .same span
  | item plain paired rest ih => exact .item plain paired ih
  | parens opens closes paired more inside rest ihin ih =>
    exact .parens opens closes paired (fun he => by cases he) inside ih
  | unclosed opens closed inside ih => exact .unclosed opens closed inside

/-- Grouping what is renested gives something that is renested evenly. -/
theorem Renested.regroup (h : Renested even xs ys) :
    Renested true (regroup xs) (regroup ys) := by
  induction h with
  | same span => exact .same _
  | @item even tree xs ys plain paired rest ih =>
    rw [plain.regroup_cons, plain.regroup_cons]
    exact .item plain (paired.imp_right isBlockless_regroup.mpr) ih
  | @parens even n k opener closer items items' xs ys opens closes paired more inside rest ihin ih =>
    rw [regroup_parens opens closes, regroup_parens opens closes, ← enclose_succ_add]
    exact @parens true (n + 1) k _ _ _ _ _ _ opens closes
      (paired.imp_right (And.imp_right isBlockless_regroup.mpr))
      (fun _ hn => absurd hn (Nat.succ_ne_zero n)) inside ih
  | @unclosed even n k opener items items' opens closed inside ih =>
    rw [regroup_opener_group opens, regroup_opener_group opens, ← enclose_succ_add]
    exact @unclosed true (n + 1) k _ _ _ opens closed inside

/-- What stands ahead of a renested span on one level can be grouped with it. -/
theorem Renested.regroup_append (hflat : IsFlat span) (hp : IsPaired span)
    (h : Renested even (Offside.regroup xs) (Offside.regroup ys)) :
    Renested even (Offside.regroup (span ++ xs)) (Offside.regroup (span ++ ys)) := by
  induction hlen : span.length using Nat.strong_induction_on generalizing span with
  | _ length ih =>
    cases span with
    | nil => exact h
    | cons tree span =>
      obtain ⟨⟨t, rfl, hk, ht⟩, hspan⟩ := List.forall_mem_cons.mp hflat
      by_cases ho : t.kind = .openParen
      · obtain ⟨inner, closer, rest, rfl, hc, hinner, hrest⟩ := hp.split_enclosed ho
        obtain ⟨hinflat, hmore⟩ := List.forall_mem_append.mp hspan
        have hinflat : IsFlat inner := hinflat
        have hrestflat := (List.forall_mem_cons.mp hmore).2
        have hregroup : ∀ zs, Offside.regroup (.token t :: (inner ++ .token closer :: rest) ++ zs) =
            .token t :: .group (enclose 0 (Offside.regroup inner)) :: .token closer ::
              Offside.regroup (rest ++ zs) := by
          intro zs
          rw [List.cons_append, List.append_assoc, List.cons_append]
          exact hinner.isMatched.regroup_enclosed ho hc (rest ++ zs)
        have hpaired : IsPaired (spread (Offside.regroup inner)).1 := by
          rw [hinflat.spread_regroup]
          exact hinner
        rw [hregroup, hregroup]
        refine .parens ho hc (.inl ⟨hpaired, hpaired⟩) (fun _ _ => rfl) (.same _) ?_
        refine ih rest.length ?_ hrestflat hrest rfl
        rw [← hlen]
        simp only [List.length_cons, List.length_append]
        omega
      · have hplain := Tree.isPlain_token ho ht
        have hrest : IsPaired span := by
          rw [IsPaired, openAfter?, if_neg (by simpa [Tree.hasKind] using ho)] at hp
          split at hp
          next => cases hp
          next => exact hp
        rw [List.cons_append, List.cons_append, hplain.regroup_cons, hplain.regroup_cons]
        exact .item hplain (.inl fun hg => by cases hg) (ih span.length (by simp [← hlen]) hspan hrest rfl)

/-- Joining the lines of what is renested and grouping its parentheses gives something that is
renested evenly: the groups around what is grouped anew are the same. -/
theorem Renested.refined (h : Renested even xs ys) :
    Renested true (Offside.refined xs) (Offside.refined ys) := by
  induction h with
  | same span => exact .same _
  | @item even tree xs ys plain paired rest ih =>
    rcases paired with paired | hxs
    · have hflat : IsFlat tree.spread.1 := by
        rcases tree.spread_reaches with ⟨hmet, -⟩ | ⟨-, hflat⟩
        · cases hmet.symm.trans plain.spread_snd_eq
        · exact hflat
      have hrefined : ∀ span, Offside.refined (tree :: span) =
          Offside.regroup (tree.spread.1 ++ (spread span).1) := by
        intro span
        rw [Offside.refined, spread_cons, if_neg (by simp [plain.spread_snd_eq])]
      rw [hrefined, hrefined]
      cases tree with
      | group items => exact .regroup_append hflat (paired rfl) ih
      | token t =>
        rw [Tree.spread] at hflat ⊢
        split
        next => exact ih
        next =>
          rw [List.singleton_append, List.singleton_append, plain.regroup_cons, plain.regroup_cons]
          exact .item plain (.inl fun hg => by cases hg) ih
    · have hspan := isBlockless_cons.mpr ⟨plain.blockless, hxs⟩
      rw [(Renested.item plain (.inr hxs) rest).refined_eq hspan]
      exact .same _
  | @parens even n k opener closer items items' xs ys opens closes paired more inside rest ihin ih =>
    rcases paired with ⟨paired, paired'⟩ | ⟨hitems, hxs⟩
    · have hpaired := And.intro paired.spread_refined paired'.spread_refined
      have hmet := inside.spread_snd_eq
      cases hs : (spread items).2 with
      | false =>
        rw [refined_parens opens closes paired hs,
          refined_parens opens closes paired' (hmet.symm.trans hs)]
        exact @parens true 0 0 _ _ _ _ _ _ opens closes (.inl hpaired) (fun _ _ => rfl)
          ihin.uneven ih
      | true =>
        rw [refined_parens_of_block opens closes paired hs,
          refined_parens_of_block opens closes paired' (hmet.symm.trans hs)]
        exact @parens true 0 0 _ _ _ _ _ _ opens closes (.inl hpaired) (fun _ _ => rfl)
          ihin.uneven rest.regroup
    · have hspan : IsBlockless (.token opener :: .group (enclose n items) :: .token closer :: xs) := by
        rw [isBlockless_token_cons, isBlockless_group_cons, isBlockless_token_cons,
          isBlockless_enclose]
        exact ⟨introducedBy?_eq_none (by simp [opens]), hitems,
          introducedBy?_eq_none (by simp [closes]), hxs⟩
      rw [(Renested.parens opens closes (.inr ⟨hitems, hxs⟩) more inside rest).refined_eq hspan]
      exact .same _
  | @unclosed even n k opener items items' opens closed inside ih =>
    rcases closed with ⟨⟨m, hm⟩, ⟨m', hm'⟩⟩ | hitems
    · obtain ⟨i, hi, -⟩ := openAfter?_spread_refined hm
      obtain ⟨i', hi', -⟩ := openAfter?_spread_refined hm'
      rw [refined_unclosed opens hm, refined_unclosed opens hm', inside.isEmpty_spread]
      split
      next => exact .same _
      next => exact @unclosed true 0 0 _ _ _ opens (.inl ⟨⟨i, hi⟩, ⟨i', hi'⟩⟩) ih.uneven
    · have hspan : IsBlockless [.token opener, .group (enclose n items)] := by
        rw [isBlockless_token_cons, isBlockless_group_cons, isBlockless_enclose]
        exact ⟨introducedBy?_eq_none (by simp [opens]), hitems, isBlockless_nil⟩
      rw [(@Renested.unclosed true n k _ _ _ opens (.inr hitems) inside).refined_eq hspan]
      exact .same _

end

/-- Whether what stands behind a closing parenthesis is left alone when it is grouped once more, up
to a block outside of parentheses: nothing is grouped there, or no block comes any more, or the
parentheses in each group match. -/
inductive IsTidy : List Tree → Prop where
  | quiet {span : List Tree} (quiet : ∀ tree ∈ span, tree.hasKind .openParen = false) : IsTidy span
  | blockless {span : List Tree} (blockless : IsBlockless span) : IsTidy span
  | block {tree : Tree} {span : List Tree} (opens : tree.opensBlock = true) : IsTidy (tree :: span)
  | item {tree : Tree} {span : List Tree} (plain : tree.IsPlain)
    (paired : tree.isGroup = true → IsPaired (unnested [tree])) (rest : IsTidy span) :
    IsTidy (tree :: span)
  | parens {opener closer : Token} {inner span : List Tree} (opens : opener.kind = .openParen)
    (closes : closer.kind = .closeParen) (paired : IsPaired inner)
    (within : IsPaired (unnested inner)) (rest : IsTidy span) :
    IsTidy (.token opener :: (inner ++ .token closer :: span))
  | unclosed {opener : Token} {inner : List Tree} {m n : Nat} (opens : opener.kind = .openParen)
    (unclosed : openAfter? 0 inner = some m) (within : openAfter? 0 (unnested inner) = some n) :
    IsTidy (.token opener :: inner)

/-- Whether a span is tidy behind each pair of parentheses that its first block stands in. -/
def IsTidyBehindParens (span : List Tree) : Prop :=
  ∀ left opener inner closer after,
    span = left ++ .token opener :: (inner ++ .token closer :: after) →
    opener.kind = .openParen → closer.kind = .closeParen → IsPaired inner →
    (∀ tree ∈ left, tree.opensBlock = false) → (∃ tree ∈ inner, tree.opensBlock = true) →
    IsTidy after

section

variable {span xs ys items : List Tree} {t opener closer : Token} {even : Bool} {m n : Nat}

theorem Renested.of_token_cons (h : Renested even (.token t :: xs) (.token t :: ys))
    (hk : t.kind ≠ .openParen) : Renested even xs ys := by
  cases h with
  | same span => exact .same _
  | item plain paired rest => exact rest
  | parens opens closes paired more inside rest => exact absurd opens hk
  | unclosed opens closed inside => exact absurd opens hk

/-- Without a block, grouping once more only adds groups. -/
theorem IsBlockless.renested (h : IsBlockless span) :
    Renested false (regroup span) (regroup (regroup span)) := by
  fun_induction regroup span with
  | case1 =>
    rw [regroup]
    exact .same _
  | case2 tree span opens =>
    rw [regroup, if_pos opens]
    exact .same _
  | case3 tree span _ ho i hi ihinner ih =>
    obtain ⟨inner, closer, rest, rfl, rfl, hc, hinner⟩ := isPaired_of_closerIndex? hi
    obtain ⟨opener, rfl, hopen⟩ := token_of_hasKind ho
    have hcloses : BlockForm.introducedBy? closer = none := introducedBy?_eq_none (by simp [hc])
    rw [List.take_left, List.drop_left] at *
    obtain ⟨hinside, hbehind⟩ : IsBlockless inner ∧ IsBlockless (.token closer :: rest) := by
      have h := (isBlockless_token_cons.mp h).2
      rw [IsBlockless, leaves_append] at h
      exact List.forall_mem_append.mp h
    have ih := ih hbehind
    rw [regroup_cons_of_none (by simp [hc]) hcloses, regroup_cons_of_none (by simp [hc]) hcloses] at ih
    rw [regroup_cons_of_none (by simp [hc]) hcloses, regroup_parens hopen hc]
    exact @Renested.parens false 0 1 _ _ _ _ _ _ hopen hc
      (.inr ⟨isBlockless_regroup.mpr hinside,
        isBlockless_regroup.mpr (isBlockless_token_cons.mp hbehind).2⟩)
      (fun he => by cases he) (.same _) (ih.of_token_cons (by simp [hc]))
  | case4 tree span _ _ _ _ =>
    rw [regroup_single]
    exact .same _
  | case5 tree span _ ho hk _ ih =>
    obtain ⟨opener, rfl, hopen⟩ := token_of_hasKind ho
    rw [regroup_opener_group hopen]
    exact @Renested.unclosed false 0 1 _ _ _ hopen
      (.inr (isBlockless_regroup.mpr (isBlockless_token_cons.mp h).2)) (.same _)
  | case6 tree span hopens ho ih =>
    obtain ⟨htree, hspan⟩ := isBlockless_cons.mp h
    have plain : tree.IsPlain := ⟨by simpa using ho, htree⟩
    rw [plain.regroup_cons]
    exact .item plain (.inr (isBlockless_regroup.mpr hspan)) (ih hspan)

/-- What is tidy only gets more groups when it is grouped once more. -/
theorem IsTidy.renested (h : IsTidy span) :
    Renested false (regroup span) (regroup (regroup span)) := by
  induction h with
  | quiet quiet =>
    rw [regroup_of_no_paren quiet, regroup_of_no_paren quiet]
    exact .same _
  | blockless h => exact h.renested
  | block opens =>
    rw [regroup, if_pos opens, regroup, if_pos opens]
    exact .same _
  | @item tree span plain paired rest ih =>
    rw [plain.regroup_cons, plain.regroup_cons]
    refine .item plain (.inl fun hg => ?_) ih
    cases tree with
    | token t => cases hg
    | group items =>
      have hpaired := paired rfl
      rwa [← spread_eq_unnested, spread_group] at hpaired
  | @parens opener closer inner span opens closes paired within rest ih =>
    rw [paired.isMatched.regroup_enclosed opens closes, regroup_parens opens closes]
    have hpaired : IsPaired (spread (regroup inner)).1 := by
      rw [IsPaired, openAfter?_spread_regroup_eq paired, spread_eq_unnested]
      exact within
    exact @Renested.parens false 0 1 _ _ _ _ _ _ opens closes (.inl ⟨hpaired, hpaired⟩)
      (fun he => by cases he) (.same _) ih
  | @unclosed opener inner m n opens unclosed within =>
    rw [← spread_eq_unnested] at within
    obtain ⟨i, hi, -⟩ := openAfter?_spread_regroup within
    rw [regroup_unclosed opens unclosed]
    split
    next =>
      rw [regroup_single]
      exact .same _
    next =>
      rw [regroup_opener_group opens]
      exact @Renested.unclosed false 0 1 _ _ _ opens (.inl ⟨⟨i, hi⟩, ⟨i, hi⟩⟩) (.same _)

/-- What is tidy is so up to where all parentheses are closed. -/
theorem IsTidy.of_append (h : IsTidy (xs ++ ys)) (hx : openAfter? n xs = some 0) : IsTidy xs := by
  generalize hspan : xs ++ ys = span at h
  have hsub : ∀ tree ∈ xs, tree ∈ span := by
    rw [← hspan]
    exact fun tree hm => List.mem_append_left _ hm
  induction h generalizing xs n with
  | quiet quiet => exact .quiet fun tree hm => quiet tree (hsub tree hm)
  | blockless h =>
    rw [← hspan] at h
    exact .blockless h.of_append
  | block opens =>
    cases xs with
    | nil => exact .blockless isBlockless_nil
    | cons first xs =>
      obtain ⟨rfl, -⟩ := List.cons.inj hspan
      exact .block opens
  | @item tree span plain paired rest ih =>
    cases xs with
    | nil => exact .blockless isBlockless_nil
    | cons first xs =>
      obtain ⟨rfl, hrest⟩ := List.cons.inj hspan
      obtain ⟨m, hm⟩ : ∃ m, openAfter? m xs = some 0 := by
        rw [openAfter?, if_neg (by simp [plain.notOpener])] at hx
        split at hx
        next =>
          split at hx
          next => cases hx
          next => exact ⟨_, hx⟩
        next => exact ⟨_, hx⟩
      exact .item plain paired (ih hm hrest fun tree hm => hrest ▸ List.mem_append_left _ hm)
  | @parens opener closer' inner span opens closes paired within rest ih =>
    cases xs with
    | nil => exact .blockless isBlockless_nil
    | cons first xs =>
      obtain ⟨rfl, hrest⟩ := List.cons.inj hspan
      rw [openAfter?_open opens] at hx
      rcases List.append_eq_append_iff.mp hrest with ⟨more, rfl, -⟩ | ⟨more, rfl, htail⟩
      · rw [IsPaired, openAfter?_append] at paired
        obtain ⟨j, hj, -⟩ := Option.bind_eq_some_iff.mp paired
        exact absurd hx (openAfter?_succ_ne hj n)
      · cases more with
        | nil =>
          rw [List.append_nil] at hx
          exact absurd hx (openAfter?_succ_ne paired n)
        | cons _ more =>
          obtain ⟨rfl, rfl⟩ := List.cons.inj htail
          rw [openAfter?_append, paired.openAfter?_eq, Option.bind_some, openAfter?_close closes] at hx
          exact .parens opens closes paired within
            (ih hx rfl fun tree hm => List.mem_append_left _ hm)
  | @unclosed opener inner m k opens unclosed within =>
    cases xs with
    | nil => exact .blockless isBlockless_nil
    | cons first xs =>
      obtain ⟨rfl, hrest⟩ := List.cons.inj hspan
      rw [openAfter?_open opens] at hx
      rw [← hrest, List.append_eq, openAfter?_append] at unclosed
      obtain ⟨j, hj, -⟩ := Option.bind_eq_some_iff.mp unclosed
      exact absurd hx (openAfter?_succ_ne hj n)

theorem ReachesBlock.spread_regroup_snd (h : ReachesBlock span) :
    (spread (regroup span)).2 = true := by
  rw [Offside.spread_regroup_snd, h.spread_eq]

theorem ReachesBlock.isPaired_spread_regroup (h : ReachesBlock span) (paired : IsPaired span) :
    IsPaired (spread (regroup span)).1 := by
  rw [IsPaired, openAfter?_spread_regroup_eq paired, h.spread_eq]
  exact paired

theorem ReachesBlock.refined_parens (h : ReachesBlock items) (paired : IsPaired items)
    (ho : opener.kind = .openParen) (hc : closer.kind = .closeParen) (span : List Tree) :
    refined (.token opener :: .group (regroup items) :: .token closer :: span) =
      .token opener :: .group (refined (regroup items)) :: .token closer :: regroup span :=
  refined_parens_of_block ho hc (h.isPaired_spread_regroup paired) h.spread_regroup_snd 0 span

theorem IsFlat.refined_parens (h : IsFlat items) (paired : IsPaired items)
    (ho : opener.kind = .openParen) (hc : closer.kind = .closeParen) (span : List Tree) :
    refined (.token opener :: .group (regroup items) :: .token closer :: span) =
      .token opener :: .group (regroup items) :: .token closer :: refined span := by
  have hspread := h.spread_regroup
  have hrefined : refined (regroup items) = regroup items := by rw [refined, hspread]
  have hparens := Offside.refined_parens ho hc (by rwa [hspread]) (by rw [hspread]) 0 span
  rwa [enclose, hrefined] at hparens

theorem renested_parens_of_block (ho : opener.kind = .openParen)
    (hc : closer.kind = .closeParen) (hreach : ReachesBlock items) (hitems : IsPaired items)
    (inside : Renested false (regroup items) (refined (regroup items)))
    (behind : Renested even xs (regroup xs)) :
    Renested even (.token opener :: .group (regroup items) :: .token closer :: xs)
      (refined (.token opener :: .group (regroup items) :: .token closer :: xs)) := by
  have hi := hreach.isPaired_spread_regroup hitems
  rw [hreach.refined_parens hitems ho hc]
  exact @Renested.parens even 0 0 _ _ _ _ _ _ ho hc (.inl ⟨hi, hi.spread_refined⟩)
    (fun _ _ => rfl) inside behind

theorem renested_parens_of_isFlat (ho : opener.kind = .openParen)
    (hc : closer.kind = .closeParen) (hflat : IsFlat items) (hitems : IsPaired items)
    (behind : Renested even xs (refined xs)) :
    Renested even (.token opener :: .group (regroup items) :: .token closer :: xs)
      (refined (.token opener :: .group (regroup items) :: .token closer :: xs)) := by
  have hi : IsPaired (spread (regroup items)).1 := by
    rw [hflat.spread_regroup]
    exact hitems
  rw [hflat.refined_parens hitems ho hc]
  exact @Renested.parens even 0 0 _ _ _ _ _ _ ho hc (.inl ⟨hi, hi⟩) (fun _ _ => rfl) (.same _)
    behind

theorem ReachesBlock.exists_opensBlock (h : ReachesBlock span) :
    ∃ tree ∈ span, tree.opensBlock = true := by
  induction h with
  | block opens => exact ⟨_, List.mem_cons_self, opens⟩
  | token _ _ _ ih =>
    obtain ⟨tree, hm, hopens⟩ := ih
    exact ⟨tree, List.mem_cons_of_mem _ hm, hopens⟩

theorem IsFlat.not_opensBlock (h : IsFlat span) : ∀ tree ∈ span, tree.opensBlock = false := by
  intro tree hm
  obtain ⟨t, rfl, -, ht⟩ := h tree hm
  exact not_opensBlock_of_introducedBy? ht

theorem IsTidyBehindParens.of_append (h : IsTidyBehindParens (xs ++ ys))
    (hx : ∀ tree ∈ xs, tree.opensBlock = false) : IsTidyBehindParens ys := by
  intro left opener inner closer after hs ho hc hinner hleft hblock
  refine h (xs ++ left) opener inner closer after ?_ ho hc hinner ?_ hblock
  · rw [hs, List.append_assoc]
  · exact List.forall_mem_append.mpr ⟨hx, hleft⟩

/-- What is tidy behind its parentheses is so in each of them. -/
theorem IsTidyBehindParens.inside {left after : List Tree}
    (h : IsTidyBehindParens (left ++ items ++ after)) (hleft : ∀ tree ∈ left, tree.opensBlock = false)
    (hitems : IsPaired items) : IsTidyBehindParens items := by
  intro front opener inner closer back hs ho hc hinner hfront hblock
  have htidy : IsTidy (back ++ after) := by
    refine h (left ++ front) opener inner closer (back ++ after) ?_ ho hc hinner ?_ hblock
    · rw [hs]
      simp
    · exact List.forall_mem_append.mpr ⟨hleft, hfront⟩
  rw [hs, IsPaired, openAfter?_append] at hitems
  obtain ⟨j, -, hback⟩ := Option.bind_eq_some_iff.mp hitems
  rw [openAfter?_open ho, openAfter?_append, hinner.openAfter?_eq, Option.bind_some,
    openAfter?_close hc] at hback
  exact htidy.of_append hback

/-- Refining once more only adds groups, and none if nothing is grouped behind the first block. -/
theorem ReachesBlock.renested (h : ReachesBlock span) (tidy : IsTidyBehindParens span)
    (quiet : even = true → ∀ before items rest, regroup span = before ++ .group items :: rest →
      (spread items).2 = true → ∀ tree ∈ rest, tree.hasKind .openParen = false) :
    Renested even (regroup span) (refined (regroup span)) := by
  fun_induction regroup span generalizing even with
  | case1 => cases h
  | case2 tree span hopens =>
    rw [refined, spread_of_opensBlock hopens, regroup, if_pos hopens]
    exact .same _
  | case3 tree span hopens ho k hk ihinner ih =>
    cases h with
    | block opens => exact absurd opens hopens
    | @token t span notNewline notBlock rest =>
      obtain ⟨inner, closer, after, rfl, rfl, hc, hinner⟩ := isPaired_of_closerIndex? hk
      have ho : t.kind = .openParen := by simpa [Tree.hasKind] using ho
      have hopener : ∀ tree ∈ [Tree.token t], tree.opensBlock = false := by simpa using hopens
      have hcloses : BlockForm.introducedBy? closer = none := introducedBy?_eq_none (by simp [hc])
      rw [List.take_left, List.drop_left] at *
      rw [regroup_cons_of_none (by simp [hc]) hcloses] at *
      rcases rest.of_append with hreach | ⟨hflat, hreach⟩
      · have hin : IsTidyBehindParens inner :=
          @IsTidyBehindParens.inside inner [.token t] (.token closer :: after) tidy hopener hinner
        have hrest : Renested even (regroup after) (regroup (regroup after)) := by
          cases even with
          | false =>
            exact (tidy [] t inner closer after rfl ho hc hinner (List.forall_mem_nil _)
              hreach.exists_opensBlock).renested
          | true =>
            have hnone := quiet rfl [.token t] _ _ rfl hreach.spread_regroup_snd
            rw [regroup_of_no_paren fun tree hm => hnone tree (List.mem_cons_of_mem _ hm)]
            exact .same _
        exact renested_parens_of_block ho hc hreach hinner
          (ihinner hreach hin fun he => by cases he) hrest
      · have hbehind : IsTidyBehindParens (.token closer :: after) := by
          refine @IsTidyBehindParens.of_append (.token t :: inner) _ tidy ?_
          exact List.forall_mem_cons.mpr ⟨by simpa using hopens, hflat.not_opensBlock⟩
        have hrest := ih hreach hbehind fun he before items rest hspan hs =>
          quiet he (.token t :: .group (regroup inner) :: before) items rest (by rw [hspan]; rfl) hs
        rw [refined_token (by simp [hc]) (by simp [hc]) hcloses] at hrest
        exact renested_parens_of_isFlat ho hc hflat hinner (hrest.of_token_cons (by simp [hc]))
  | case4 tree span hopens ho hk hempty =>
    rw [List.isEmpty_iff.mp hempty] at h
    cases h with
    | block opens => exact absurd opens hopens
    | token _ _ rest => cases rest
  | case5 tree span hopens ho hk hempty ih =>
    cases h with
    | block opens => exact absurd opens hopens
    | @token t span notNewline notBlock rest =>
      have ho := by simpa [Tree.hasKind] using ho
      obtain ⟨m, hm⟩ := closerIndex?_eq_none_iff.mp hk
      obtain ⟨i, hi, -⟩ := openAfter?_spread_regroup (n := 0) (by rwa [rest.spread_eq])
      obtain ⟨j, hj, -⟩ := openAfter?_spread_refined hi
      have hin : IsTidyBehindParens span :=
        @IsTidyBehindParens.of_append [.token t] _ tidy (by simpa using hopens)
      have hnonempty : (spread (regroup span)).1.isEmpty = false := by
        rcases spread_reaches (regroup span) with ⟨-, hreach⟩ | ⟨hno, -⟩
        · exact hreach.isEmpty_eq_false
        · cases rest.spread_regroup_snd.symm.trans hno
      have hrefined := refined_unclosed ho hi 0
      rw [enclose, hnonempty, if_neg (by simp)] at hrefined
      rw [hrefined]
      exact @Renested.unclosed even 0 0 _ _ _ ho (.inl ⟨⟨i, hi⟩, ⟨j, hj⟩⟩)
        (ih rest hin fun he => by cases he)
  | case6 tree span hopens ho ih =>
    cases h with
    | block opens => exact absurd opens hopens
    | @token t span notNewline notBlock rest =>
      have ho : t.kind ≠ .openParen := by simpa [Tree.hasKind] using ho
      have hbehind : IsTidyBehindParens span :=
        @IsTidyBehindParens.of_append [.token t] _ tidy (by simpa using hopens)
      rw [refined_token notNewline ho notBlock]
      refine .item (Tree.isPlain_token ho notBlock) (.inl fun hg => by cases hg)
        (ih rest hbehind ?_)
      intro he before items rest hspan hs
      exact quiet he (.token t :: before) items rest (by rw [hspan]; rfl) hs

theorem joinLines_parens (ho : opener.kind = .openParen) (hc : closer.kind = .closeParen)
    (items span : List Tree) : joinLines (.token opener :: .group items :: .token closer :: span) =
      .token opener :: .group items :: .token closer :: joinLines span := by
  rw [joinLines_token (by simp [ho]), joinLines_cons rfl, joinLines_token (by simp [hc])]

theorem joinLines_opener_group (ho : opener.kind = .openParen) (items : List Tree) :
    joinLines [.token opener, .group items] = [.token opener, .group items] := by
  rw [joinLines_token (by simp [ho]), joinLines_cons rfl]
  rfl

/-- It makes no difference to a second grouping when the lines are joined. -/
theorem regroup_joinLines_regroup (span : List Tree) :
    regroup (joinLines (regroup span)) = joinLines (regroup (regroup span)) := by
  fun_induction regroup span with
  | case1 => simp [joinLines, regroup]
  | case2 tree span opens =>
    rw [joinLines_cons (not_newline_of_opensBlock opens), regroup, if_pos opens, regroup,
      if_pos opens, joinLines_cons (not_newline_of_opensBlock opens)]
  | case3 tree span _ ho i hi ihinner ih =>
    obtain ⟨inner, closer, rest, rfl, rfl, hc, hinner⟩ := isPaired_of_closerIndex? hi
    obtain ⟨opener, rfl, hopen⟩ := token_of_hasKind ho
    have hcloses : BlockForm.introducedBy? closer = none := introducedBy?_eq_none (by simp [hc])
    have hnewline : closer.kind ≠ .newline := by simp [hc]
    have hparen : closer.kind ≠ .openParen := by simp [hc]
    rw [List.take_left, List.drop_left] at *
    rw [regroup_cons_of_none hparen hcloses] at *
    rw [joinLines_token hnewline, regroup_cons_of_none hparen hcloses,
      regroup_cons_of_none hparen hcloses, joinLines_token hnewline] at ih
    rw [joinLines_parens hopen hc, regroup_parens hopen hc, regroup_parens hopen hc,
      joinLines_parens hopen hc, (List.cons.inj ih).2]
  | case4 tree span _ ho _ _ =>
    rw [joinLines_cons (hasKind_eq_false (by decide) ho), joinLines, List.filter_nil, regroup_single,
      joinLines_cons (hasKind_eq_false (by decide) ho), joinLines, List.filter_nil]
  | case5 tree span _ ho _ _ ih =>
    obtain ⟨opener, rfl, hopen⟩ := token_of_hasKind ho
    rw [joinLines_opener_group hopen, regroup_opener_group hopen, joinLines_opener_group hopen]
  | case6 tree span opens ho ih =>
    have hcons := @regroup_cons_of_not_opener tree (by simpa using opens) (by simpa using ho)
    cases hk : tree.hasKind .newline with
    | true =>
      rw [joinLines_cons_of_newline hk, hcons, joinLines_cons_of_newline hk, ih]
    | false => rw [joinLines_cons hk, hcons, hcons, joinLines_cons hk, ih]

/-- Nor does it make one to a span up to its first block. -/
theorem ReachesBlock.joinLines_refined (h : ReachesBlock span) :
    joinLines (refined (regroup span)) = refined (joinLines (regroup span)) := by
  fun_induction regroup span with
  | case1 => cases h
  | case2 tree span opens =>
    have hk := not_newline_of_opensBlock opens
    rw [refined, spread_of_opensBlock opens, regroup, if_pos opens, joinLines_cons hk, refined,
      spread_of_opensBlock opens, regroup, if_pos opens]
  | case3 tree span opens ho i hi ihinner ih =>
    cases h with
    | block hopens => exact absurd hopens opens
    | @token t span notNewline notBlock rest =>
      obtain ⟨inner, closer, after, rfl, rfl, hc, hinner⟩ := isPaired_of_closerIndex? hi
      have ho : t.kind = .openParen := by simpa [Tree.hasKind] using ho
      have hcloses : BlockForm.introducedBy? closer = none := introducedBy?_eq_none (by simp [hc])
      have hnewline : closer.kind ≠ .newline := by simp [hc]
      rw [List.take_left, List.drop_left] at *
      rw [regroup_cons_of_none (by simp [hc]) hcloses] at *
      rcases rest.of_append with hreach | ⟨hflat, hreach⟩
      · rw [joinLines_parens ho hc, hreach.refined_parens hinner ho hc,
          hreach.refined_parens hinner ho hc, joinLines_parens ho hc, regroup_joinLines_regroup]
      · have ih := ih hreach
        rw [refined_token hnewline (by simp [hc]) hcloses, joinLines_token hnewline,
          joinLines_token hnewline, refined_token hnewline (by simp [hc]) hcloses] at ih
        rw [joinLines_parens ho hc, hflat.refined_parens hinner ho hc,
          hflat.refined_parens hinner ho hc, joinLines_parens ho hc, (List.cons.inj ih).2]
  | case4 tree span opens ho hk hempty =>
    rw [List.isEmpty_iff.mp hempty] at h
    cases h with
    | block hopens => exact absurd hopens opens
    | token _ _ rest => cases rest
  | case5 tree span opens ho hk hempty ih =>
    cases h with
    | block hopens => exact absurd hopens opens
    | @token t span notNewline notBlock rest =>
      have ho : t.kind = .openParen := by simpa [Tree.hasKind] using ho
      obtain ⟨m, hm⟩ := closerIndex?_eq_none_iff.mp hk
      obtain ⟨i, hi, -⟩ := openAfter?_spread_regroup (n := 0) (by rwa [rest.spread_eq])
      have hrefined := refined_unclosed ho hi 0
      rw [enclose] at hrefined
      rw [joinLines_opener_group ho, hrefined]
      split
      next => rw [joinLines_token notNewline]; rfl
      next => rw [joinLines_opener_group ho]
  | case6 tree span opens ho ih =>
    cases h with
    | block hopens => exact absurd hopens opens
    | @token t span notNewline notBlock rest =>
      have ho : t.kind ≠ .openParen := by simpa [Tree.hasKind] using ho
      rw [refined_token notNewline ho notBlock, joinLines_token notNewline, joinLines_token notNewline,
        refined_token notNewline ho notBlock, ih rest]

/-- A span in which a single parenthesis opens is tidy behind its parentheses. -/
theorem isTidyBehindParens_of_countP (h : span.countP (Tree.hasKind .openParen) = 1) :
    IsTidyBehindParens span := by
  intro left opener inner closer after hs ho _ _ _ _
  have hopens : (Tree.token opener).hasKind .openParen = true := by simp [Tree.hasKind, ho]
  rw [hs, List.countP_append, List.countP_cons_of_pos hopens, List.countP_append,
    List.countP_cons] at h
  have hafter : after.countP (Tree.hasKind .openParen) = 0 := by omega
  exact .quiet fun tree hm => by simpa using List.countP_eq_zero.mp hafter tree hm

end

end Offside
