import Offside.Proofs.Pairing
import Offside.Proofs.ReachedSpans

namespace Offside

/-- Where a block stands: its keyword, what is behind it on its line, and the lines nested below as
they are in a tree. No parenthesis that is open at the keyword is closed on its line. -/
structure Site where
  keyword : Token
  back : List Tree
  below : List Tree
  opens : ∃ form, BlockForm.introducedBy? keyword = some form
  line : ∀ tree ∈ back, ∃ t, tree = .token t ∧ t.kind ≠ .newline
  unclosed : ∃ n, openAfter? 0 back = some n
  broken : ∃ t rest, below = .token t :: rest ∧ t.kind = .newline
  nodup : (keyword :: (leaves back ++ leaves below)).Nodup

namespace Site

/-- Whether a keyword, the rest of its line and the lines below stand in a span side by side. -/
inductive IsWholeIn (s : Site) : List Tree → Prop where
  | here (after : List Tree) :
    s.IsWholeIn (.token s.keyword :: (s.back ++ .group s.below :: after))
  | inside {items : List Tree} (within : s.IsWholeIn items) (after : List Tree) :
    s.IsWholeIn (.group items :: after)
  | behind (tree : Tree) {span : List Tree} (rest : s.IsWholeIn span) : s.IsWholeIn (tree :: span)

/-- Whether nothing comes behind a keyword in a span but what is on its line. -/
def EndsOnLine (s : Site) (span : List Tree) : Prop :=
  ∃ front, s.keyword ∉ front ∧ (leaves span).Sublist (front ++ s.keyword :: leaves s.back)

/-- Whether a span that has a keyword has the lines below it in their place, or does not reach
them. -/
def IsKeptIn (s : Site) (span : List Tree) : Prop :=
  s.keyword ∈ leaves span → s.IsWholeIn span ∨ s.EndsOnLine span

end Site

theorem not_token_mem_of_mem_group {span items : List Tree} {t : Token}
    (nodup : (leaves span).Nodup) (hg : .group items ∈ span) (ht : t ∈ leaves items) :
    .token t ∉ span := by
  intro hm
  obtain ⟨front, rest, rfl⟩ := List.append_of_mem hg
  rw [leaves_append, leaves, Tree.leaves] at nodup
  obtain ⟨-, hrest, hfront⟩ := List.nodup_append.mp nodup
  have hitems := List.disjoint_of_nodup_append hrest ht
  rcases List.mem_append.mp hm with hm | hm
  · exact hfront t (mem_leaves_of_token_mem hm) t (List.mem_append_left _ ht) rfl
  · rcases List.mem_cons.mp hm with he | hm
    · cases he
    · exact hitems (mem_leaves_of_token_mem hm)

theorem cons_sublist_of_not_mem {α : Type} {x : α} {xs ys front : List α}
    (h : (x :: xs).Sublist (front ++ ys)) (hx : x ∉ front) : (x :: xs).Sublist ys := by
  induction front with
  | nil => exact h
  | cons y front ih =>
    obtain ⟨hne, hfront⟩ := not_or.mp (mt List.mem_cons.mpr hx)
    exact ih (h.of_cons_of_ne hne) hfront

theorem sublist_of_cons_sublist {α : Type} {x : α} {xs ys front : List α}
    (h : (x :: xs).Sublist (front ++ x :: ys)) (hx : x ∉ front) : xs.Sublist ys :=
  List.cons_sublist_cons.mp (cons_sublist_of_not_mem h hx)

/-- What lies on either side of an element stays there in a longer list without duplicates. -/
theorem sublist_sides {α : Type} {x : α} {left right ahead behind : List α}
    (h : (left ++ x :: right).Sublist (ahead ++ x :: behind)) (nodup : (ahead ++ x :: behind).Nodup) :
    left.Sublist ahead ∧ right.Sublist behind := by
  obtain ⟨hahead, hbehind⟩ :=
    not_or.mp (mt List.mem_append.mpr (List.nodup_cons.mp (List.nodup_middle.mp nodup)).1)
  refine ⟨?_, sublist_of_cons_sublist ((List.sublist_append_right left _).trans h) hahead⟩
  have hleft : (left ++ [x]).Sublist (ahead ++ x :: behind) :=
    ((List.Sublist.refl left).append (List.singleton_sublist.mpr List.mem_cons_self)).trans h
  have hreverse := hleft.reverse
  simp only [List.reverse_append, List.reverse_cons, List.append_assoc, List.reverse_nil,
    List.nil_append, List.singleton_append] at hreverse
  exact List.reverse_sublist.mp
    (sublist_of_cons_sublist hreverse (mt List.mem_reverse.mp hbehind))

/-- Whether a block takes the lines below it onto its own, to divide or to join them there. -/
def BlockForm.TakesUp : BlockForm → Prop
  | sequence | function => True
  | _ => False

namespace Site

section

variable {s : Site} {span target part xs ys : List Tree}

theorem kind_keyword (s : Site) : s.keyword.kind = .keyword := by
  obtain ⟨form, h⟩ := s.opens
  exact kind_of_introducedBy? h

theorem IsWholeIn.leaves_eq (h : s.IsWholeIn span) : ∃ front after,
    leaves span = front ++ s.keyword :: (leaves s.back ++ (leaves s.below ++ after)) := by
  induction h with
  | here after =>
    refine ⟨[], leaves after, ?_⟩
    rw [leaves, leaves_append]
    rfl
  | inside within after ih =>
    obtain ⟨front, rest, he⟩ := ih
    refine ⟨front, rest ++ leaves after, ?_⟩
    rw [leaves, Tree.leaves, he]
    simp only [List.append_assoc, List.cons_append]
  | behind tree rest ih =>
    obtain ⟨front, after, he⟩ := ih
    exact ⟨tree.leaves ++ front, after, by rw [leaves, he, List.append_assoc]⟩

/-- The line of a keyword stands ahead of a line break among the lines below it. -/
theorem IsWholeIn.line_sublist {mark : Token} {ahead behind : List Token} {front lower : List Tree}
    (h : s.IsWholeIn span) (below : s.below = front ++ .token mark :: lower)
    (hspan : leaves span = ahead ++ mark :: behind) (nodup : (ahead ++ mark :: behind).Nodup) :
    (s.keyword :: leaves s.back).Sublist ahead := by
  obtain ⟨left, right, hwhole⟩ := h.leaves_eq
  rw [hspan, below, leaves_append, leaves, Tree.leaves] at hwhole
  have hsides : (left ++ s.keyword :: (leaves s.back ++ leaves front) ++
      mark :: (leaves lower ++ right)).Sublist (ahead ++ mark :: behind) := by
    simp [hwhole]
  refine List.Sublist.trans ?_ (sublist_sides hsides nodup).1
  exact ((List.sublist_append_left _ _).cons_cons _).trans (List.sublist_append_right _ _)

theorem IsWholeIn.keyword_mem (h : s.IsWholeIn span) : s.keyword ∈ leaves span := by
  obtain ⟨front, after, he⟩ := h.leaves_eq
  rw [he]
  exact List.mem_append_right _ List.mem_cons_self

theorem IsWholeIn.append_right (h : s.IsWholeIn xs) (ys : List Tree) : s.IsWholeIn (xs ++ ys) := by
  induction h with
  | here after =>
    rw [List.cons_append, List.append_assoc, List.cons_append]
    exact .here _
  | inside within after ih => exact .inside within _
  | behind tree rest ih => exact .behind tree ih

theorem IsWholeIn.append_left (h : s.IsWholeIn ys) (xs : List Tree) : s.IsWholeIn (xs ++ ys) := by
  induction xs with
  | nil => exact h
  | cons tree xs ih => exact .behind tree ih

theorem IsWholeIn.joinLines (h : s.IsWholeIn span) : s.IsWholeIn (Offside.joinLines span) := by
  induction h with
  | here after =>
    have hk : s.keyword.kind ≠ .newline := by
      rw [s.kind_keyword]
      exact Kind.noConfusion
    have hback : Offside.joinLines s.back = s.back := by
      refine List.filter_eq_self.mpr fun tree hm => ?_
      obtain ⟨t, rfl, ht⟩ := s.line tree hm
      simpa [Tree.hasKind] using ht
    have hgroup : Offside.joinLines (.group s.below :: after) =
        .group s.below :: Offside.joinLines after := rfl
    rw [joinLines_token hk, joinLines_append, hback, hgroup]
    exact .here _
  | inside within after ih => exact .inside within _
  | behind tree rest ih =>
    rw [← List.singleton_append, joinLines_append]
    exact ih.append_left _

theorem IsWholeIn.spread (h : s.IsWholeIn span) : s.IsWholeIn (Offside.spread span).1 := by
  induction h with
  | here after =>
    obtain ⟨form, hform⟩ := s.opens
    rw [spread_of_opensBlock (opensBlock_of_introducedBy? hform)]
    exact .here after
  | inside within after ih =>
    rw [spread_group_append]
    split
    next => exact ih.append_right _
    next => exact ih.append_right _
  | behind tree rest ih =>
    rw [spread_cons]
    split
    next => exact rest.append_left _
    next => exact ih.append_left _

/-- The parenthesis that closes one in front of the keyword does not stand between the keyword and
the lines below it. -/
theorem IsWholeIn.take_or_drop {closer : Token} {n : Nat} (hc : closer.kind = .closeParen)
    (h : s.IsWholeIn (xs ++ .token closer :: ys)) (hx : openAfter? n xs = some 0) :
    s.IsWholeIn xs ∨ s.IsWholeIn (.token closer :: ys) := by
  induction xs generalizing n with
  | nil => exact .inr h
  | cons tree xs ih =>
    obtain ⟨m, hm⟩ : ∃ m, openAfter? m xs = some 0 := by
      have happ := openAfter?_append n [tree] xs
      rw [List.singleton_append, hx] at happ
      obtain ⟨m, -, hm⟩ := Option.bind_eq_some_iff.mp happ.symm
      exact ⟨m, hm⟩
    generalize hspan : tree :: xs ++ .token closer :: ys = whole at h
    rw [List.cons_append] at hspan
    cases h with
    | here after =>
      obtain ⟨rfl, hrest⟩ := List.cons.inj hspan
      rcases List.append_eq_append_iff.mp hrest with ⟨cs, hback, he⟩ | ⟨cs, rfl, he⟩
      · cases cs with
        | nil => cases (List.cons.inj he).1
        | cons tree cs =>
          obtain ⟨rfl, rfl⟩ := List.cons.inj he
          -- the closing parenthesis stands on the line and closes none that is opened there
          obtain ⟨k, hk⟩ := s.unclosed
          rw [hback, openAfter?_append] at hk
          obtain ⟨j, hj, hk⟩ := Option.bind_eq_some_iff.mp hk
          have hadd := openAfter?_add hj m
          rw [Nat.zero_add, hm] at hadd
          obtain rfl : j = 0 := by
            have := Option.some.inj hadd
            omega
          simp [openAfter?, Tree.hasKind, hc] at hk
      · cases cs with
        | nil => cases (List.cons.inj he).1
        | cons tree cs =>
          obtain ⟨rfl, -⟩ := List.cons.inj he
          exact .inl (.here cs)
    | inside within after =>
      obtain ⟨rfl, -⟩ := List.cons.inj hspan
      exact .inl (.inside within xs)
    | behind first rest =>
      obtain ⟨rfl, rfl⟩ := List.cons.inj hspan
      exact (ih rest hm).imp_left (.behind tree)

theorem IsWholeIn.of_cons {tree : Tree} (h : s.IsWholeIn (tree :: span))
    (off : tree ≠ .token s.keyword) :
    (∃ items, tree = .group items ∧ s.IsWholeIn items) ∨ s.IsWholeIn span := by
  generalize hspan : tree :: span = whole at h
  cases h with
  | here after => exact absurd (List.cons.inj hspan).1 off
  | inside within after => exact .inl ⟨_, (List.cons.inj hspan).1, within⟩
  | behind first rest =>
    obtain ⟨-, rfl⟩ := List.cons.inj hspan
    exact .inr rest

theorem IsWholeIn.of_plain_cons {tree : Tree} (h : s.IsWholeIn (tree :: span))
    (off : tree ≠ .token s.keyword) (plain : tree.isGroup = false) : s.IsWholeIn span := by
  refine (h.of_cons off).resolve_left ?_
  rintro ⟨items, rfl, -⟩
  cases plain

theorem IsWholeIn.regroup (h : s.IsWholeIn span) : s.IsWholeIn (Offside.regroup span) := by
  have off : ∀ {tree : Tree}, ¬tree.opensBlock = true → tree ≠ .token s.keyword := by
    rintro tree hopens rfl
    obtain ⟨form, hform⟩ := s.opens
    exact hopens (opensBlock_of_introducedBy? hform)
  have plain : ∀ {tree : Tree}, tree.hasKind .openParen = true → tree.isGroup = false := by
    intro tree hparen
    obtain ⟨t, rfl, -⟩ := token_of_hasKind hparen
    rfl
  fun_induction Offside.regroup span with
  | case1 => exact h
  | case2 tree span hopens => exact h
  | case3 tree span hopens hparen n hn ihtake ihdrop =>
    have hrest := h.of_plain_cons (off hopens) (plain hparen)
    obtain ⟨before, closer, after, rfl, rfl, hc, hpaired⟩ := isPaired_of_closerIndex? hn
    rw [List.take_left] at ihtake ⊢
    rw [List.drop_left] at ihdrop ⊢
    rcases hrest.take_or_drop hc hpaired with hfront | hback
    · exact .behind _ (.inside (ihtake hfront) _)
    · exact .behind _ (.behind _ (ihdrop hback))
  | case4 tree span hopens hparen hn hempty =>
    rw [List.isEmpty_iff.mp hempty] at h
    exact h
  | case5 tree span hopens hparen hn hempty ih =>
    exact .behind _ (.inside (ih (h.of_plain_cons (off hopens) (plain hparen))) _)
  | case6 tree span hopens hparen ih =>
    rcases h.of_cons (off hopens) with ⟨items, rfl, within⟩ | rest
    · exact .inside within _
    · exact .behind _ (ih rest)

theorem EndsOnLine.of_sublist (h : s.EndsOnLine span)
    (hs : (leaves target).Sublist (leaves span)) : s.EndsOnLine target := by
  obtain ⟨front, hk, hl⟩ := h
  exact ⟨front, hk, hs.trans hl⟩

theorem IsWholeIn.of_isPrefix (h : s.IsWholeIn span) (nodup : (leaves span).Nodup)
    (hp : xs <+: span) (mem : s.keyword ∈ leaves xs) : s.IsWholeIn xs ∨ s.EndsOnLine xs := by
  induction h generalizing xs with
  | here after =>
    have ends : ∀ {front}, front <+: s.back → s.EndsOnLine (.token s.keyword :: front) :=
      fun hfront => ⟨[], List.not_mem_nil, (leaves_sublist hfront.sublist).cons_cons _⟩
    cases xs with
    | nil => cases mem
    | cons tree xs =>
      obtain ⟨rfl, zs, hz⟩ := List.cons_prefix_cons.mp hp
      rcases List.append_eq_append_iff.mp hz with ⟨as, hback, -⟩ | ⟨cs, rfl, he⟩
      · exact .inr (ends ⟨as, hback.symm⟩)
      · cases cs with
        | nil =>
          rw [List.append_nil]
          exact .inr (ends List.prefix_rfl)
        | cons tree cs =>
          obtain ⟨rfl, -⟩ := List.cons.inj he
          exact .inl (.here cs)
  | inside within after ih =>
    cases xs with
    | nil => cases mem
    | cons tree xs =>
      obtain ⟨rfl, -⟩ := List.cons_prefix_cons.mp hp
      exact .inl (.inside within xs)
  | behind tree rest ih =>
    cases xs with
    | nil => cases mem
    | cons first xs =>
      obtain ⟨rfl, hrest⟩ := List.cons_prefix_cons.mp hp
      rw [leaves] at nodup mem
      have hfirst : s.keyword ∉ first.leaves :=
        fun hm => List.disjoint_of_nodup_append nodup hm rest.keyword_mem
      have hmem := (List.mem_append.mp mem).resolve_left hfirst
      rcases ih (List.nodup_append.mp nodup).2.1 hrest hmem with hwhole | ⟨front, hk, hs⟩
      · exact .inl (.behind first hwhole)
      · refine .inr ⟨first.leaves ++ front, by simp [hfirst, hk], ?_⟩
        rw [leaves, List.append_assoc]
        exact (List.Sublist.refl _).append hs

theorem IsWholeIn.of_isSuffix (h : s.IsWholeIn (xs ++ ys)) (nodup : (leaves (xs ++ ys)).Nodup)
    (mem : s.keyword ∈ leaves ys) : s.IsWholeIn ys := by
  induction xs with
  | nil => exact h
  | cons tree xs ih =>
    rw [List.cons_append, leaves] at nodup
    have htree : s.keyword ∉ tree.leaves := by
      intro hm
      refine List.disjoint_of_nodup_append nodup hm ?_
      rw [leaves_append]
      exact List.mem_append_right _ mem
    have off : tree ≠ .token s.keyword := by
      rintro rfl
      exact htree List.mem_cons_self
    rcases h.of_cons off with ⟨items, rfl, within⟩ | rest
    · exact absurd within.keyword_mem htree
    · exact ih rest (List.nodup_append.mp nodup).2.1

theorem IsWholeIn.of_group {items : List Tree} (h : s.IsWholeIn span) (nodup : (leaves span).Nodup)
    (hg : .group items ∈ span) (mem : s.keyword ∈ leaves items) : s.IsWholeIn items := by
  have hnot := not_token_mem_of_mem_group nodup hg mem
  induction h with
  | here after => exact absurd List.mem_cons_self hnot
  | @inside others within after ih =>
    rcases List.mem_cons.mp hg with he | hg
    · obtain rfl := Tree.group.inj he
      exact within
    · have hmem := (leaves_sublist (List.singleton_sublist.mpr hg)).subset
        (List.mem_append_left _ mem)
      rw [leaves] at nodup
      exact absurd hmem (List.disjoint_of_nodup_append nodup within.keyword_mem)
  | @behind tree span rest ih =>
    rw [leaves] at nodup
    rcases List.mem_cons.mp hg with rfl | hg
    · exact absurd rest.keyword_mem (List.disjoint_of_nodup_append nodup mem)
    · exact ih (List.nodup_append.mp nodup).2.1 hg
        fun hm => hnot (List.mem_cons_of_mem _ hm)

theorem IsWholeIn.ungroup (h : s.IsWholeIn span) (off : .token s.keyword ∉ span) :
    s.IsWholeIn (Offside.ungroup span) := by
  induction h with
  | here after => exact absurd List.mem_cons_self off
  | inside within after ih => exact within.append_right _
  | behind tree rest ih =>
    exact (ih fun hm => off (List.mem_cons_of_mem _ hm)).append_left tree.parts

/-- Behind a keyword that a span holds itself come its line and the lines below. -/
theorem IsWholeIn.eq_append (h : s.IsWholeIn span) (nodup : (leaves span).Nodup)
    (on : .token s.keyword ∈ span) :
    ∃ front after, span = front ++ .token s.keyword :: (s.back ++ .group s.below :: after) := by
  induction h with
  | here after => exact ⟨[], after, rfl⟩
  | inside within after ih =>
    have hmem := mem_leaves_of_token_mem ((List.mem_cons.mp on).resolve_left (by simp))
    exact absurd hmem (List.disjoint_of_nodup_append nodup within.keyword_mem)
  | behind tree rest ih =>
    rw [leaves] at nodup
    rcases List.mem_cons.mp on with rfl | on
    · exact absurd rest.keyword_mem (List.disjoint_of_nodup_append nodup List.mem_cons_self)
    · obtain ⟨front, after, rfl⟩ := ih (List.nodup_append.mp nodup).2.1 on
      exact ⟨tree :: front, after, rfl⟩

theorem IsWholeIn.eq_of_cons (h : s.IsWholeIn (.token s.keyword :: span))
    (nodup : (leaves (.token s.keyword :: span)).Nodup) :
    ∃ after, span = s.back ++ .group s.below :: after := by
  obtain ⟨front, after, he⟩ := h.eq_append nodup List.mem_cons_self
  cases front with
  | nil => exact ⟨after, (List.cons.inj he).2⟩
  | cons tree front =>
    have hmem : .token s.keyword ∈ span := by
      rw [(List.cons.inj he).2]
      exact List.mem_append_right _ List.mem_cons_self
    exact absurd (mem_leaves_of_token_mem hmem) (List.nodup_cons.mp nodup).1

theorem EndsOnLine.sublist_of_cons (h : s.EndsOnLine (.token s.keyword :: span)) :
    (leaves span).Sublist (leaves s.back) := by
  obtain ⟨front, hk, hs⟩ := h
  exact sublist_of_cons_sublist hs hk

theorem IsKeptIn.of_isInfix (h : s.IsKeptIn span) (nodup : (leaves span).Nodup)
    (hi : xs <:+: span) : s.IsKeptIn xs := by
  obtain ⟨front, back, rfl⟩ := hi
  intro mem
  rw [List.append_assoc] at h nodup
  have hsub : (leaves xs).Sublist (leaves (front ++ (xs ++ back))) :=
    leaves_sublist ((List.sublist_append_left xs back).trans (List.sublist_append_right front _))
  have hmem : s.keyword ∈ leaves (xs ++ back) := by
    rw [leaves_append]
    exact List.mem_append_left _ mem
  rcases h (hsub.subset mem) with hwhole | hends
  · have hrest := hwhole.of_isSuffix nodup hmem
    rw [leaves_append] at nodup
    exact hrest.of_isPrefix (List.nodup_append.mp nodup).2.1 (List.prefix_append xs back) mem
  · exact .inr (hends.of_sublist hsub)

/-- What reading a value comes to keeps a keyword with the lines below it. -/
theorem IsKeptIn.reaches (h : s.IsKeptIn span) (nodup : (leaves span).Nodup)
    (hr : Reaches span target) : s.IsKeptIn target := by
  induction hr with
  | self => exact h
  | @joined span target rest ih =>
    have hs := leaves_sublist (joinLines_sublist span)
    refine ih (fun mem => ?_) (nodup.sublist hs)
    exact (h (hs.subset mem)).imp IsWholeIn.joinLines (EndsOnLine.of_sublist · hs)
  | @refined span target rest ih =>
    have hs := leaves_spread_sublist span
    rw [← leaves_regroup] at hs
    refine ih (fun mem => ?_) (nodup.sublist hs)
    exact (h (hs.subset mem)).imp (fun hw => hw.spread.regroup) (EndsOnLine.of_sublist · hs)
  | @inside span items target mem rest ih =>
    have hs := leaves_sublist (List.singleton_sublist.mpr mem)
    rw [leaves, leaves, List.append_nil, Tree.leaves] at hs
    refine ih (fun hk => ?_) (nodup.sublist hs)
    exact (h (hs.subset hk)).imp (fun hw => hw.of_group nodup mem hk) (EndsOnLine.of_sublist · hs)
  | part within rest ih =>
    exact ih (h.of_isInfix nodup within) (nodup.sublist (leaves_sublist within.sublist))

theorem IsKeptIn.ungroup (h : s.IsKeptIn span) (off : .token s.keyword ∉ span) :
    s.IsKeptIn (Offside.ungroup span) := by
  intro mem
  have hleaves := leaves_ungroup span
  rw [hleaves] at mem
  exact (h mem).imp (·.ungroup off) (EndsOnLine.of_sublist · (by rw [hleaves]))

/-- The lines below a keyword end the part that it stands in, when they are taken up and divided. -/
theorem IsKeptIn.of_mem_splitWhere (h : s.IsKeptIn span) (nodup : (leaves span).Nodup)
    (hp : part ∈ splitWhere (·.hasKind .newline) (Offside.ungroup span)) : s.IsKeptIn part := by
  have hinfix := isInfix_of_mem_splitWhere hp
  by_cases on : .token s.keyword ∈ span
  · intro mem
    have hpart := leaves_sublist hinfix.sublist
    rw [leaves_ungroup] at hpart
    rcases h (hpart.subset mem) with hw | he
    · obtain ⟨front, after, rfl⟩ := hw.eq_append nodup on
      obtain ⟨t, rest, hbelow, ht⟩ := s.broken
      have hspan : Offside.ungroup (front ++ .token s.keyword :: (s.back ++ .group s.below :: after)) =
          (Offside.ungroup front ++ .token s.keyword :: Offside.ungroup s.back) ++
            .token t :: (rest ++ Offside.ungroup after) := by
        simp [Offside.ungroup, List.flatMap_append, Tree.parts, hbelow]
      simp only [leaves_append, leaves, Tree.leaves, List.singleton_append] at nodup
      obtain ⟨-, hrest, hfront⟩ := List.nodup_append.mp nodup
      rw [hspan, splitWhere_append (by simp [Tree.hasKind, ht])] at hp
      rcases List.mem_append.mp hp with hp | hp
      · have hline := leaves_sublist (isInfix_of_mem_splitWhere hp).sublist
        rw [leaves_append, leaves, leaves_ungroup, leaves_ungroup] at hline
        exact .inr ⟨leaves front, fun hm => hfront _ hm _ List.mem_cons_self rfl, hline⟩
      · have hline := (leaves_sublist (isInfix_of_mem_splitWhere hp).sublist).subset mem
        rw [leaves_append, leaves_ungroup] at hline
        rw [hbelow, leaves] at hrest
        refine absurd ?_ (List.nodup_cons.mp hrest).1
        rcases List.mem_append.mp hline with hm | hm
        · simp [hm]
        · simp [hm]
    · exact .inr (he.of_sublist hpart)
  · have nodup' : (leaves (Offside.ungroup span)).Nodup := by rwa [leaves_ungroup]
    exact (h.ungroup on).of_isInfix nodup' hinfix

/-- What a block hands on keeps a keyword with the lines below it. -/
theorem IsKeptIn.handsOn {form : BlockForm} (h : s.IsKeptIn span) (nodup : (leaves span).Nodup)
    (hands : form.HandsOn span part) (off : form.TakesUp → .token s.keyword ∉ span) :
    s.IsKeptIn part := by
  have nodup' : (leaves (Offside.ungroup span)).Nodup := by rwa [leaves_ungroup]
  cases form with
  | imports => exact hands.elim
  | closure =>
    have hbody := headerAndBody_snd_isSuffix span
    exact (h.of_isInfix nodup hbody.isInfix).of_mem_splitWhere
      (nodup.sublist (leaves_sublist hbody.sublist)) hands
  | sequence =>
    exact (h.ungroup (off trivial)).of_isInfix nodup' (isInfix_of_mem_partsBetween hands)
  | function => exact (h.ungroup (off trivial)).of_isInfix nodup' hands
  | conditional | otherwise | each | repetition => exact h.of_isInfix nodup hands

/-- Whatever is nested below the line of a block is not level with its keyword. -/
theorem IsKeptIn.not_token_mem {t : Token} (h : s.IsKeptIn (.token s.keyword :: span))
    (nodup : (leaves (.token s.keyword :: span)).Nodup) (ht : t ∈ leaves s.below) :
    .token t ∉ span := by
  intro hm
  rcases h List.mem_cons_self with hw | he
  · obtain ⟨after, rfl⟩ := hw.eq_of_cons nodup
    exact not_token_mem_of_mem_group (List.nodup_cons.mp nodup).2 (by simp) ht hm
  · have hback := he.sublist_of_cons.subset (mem_leaves_of_token_mem hm)
    exact List.disjoint_of_nodup_append (List.nodup_cons.mp s.nodup).2 hback ht

end

section

variable {s : Site} {span part body upper lower : List Tree} {mark : Token}
  {ahead behind : List Token}
  (kept : s.IsKeptIn (.token s.keyword :: span))
  (below : s.below = upper ++ .token mark :: lower) (newline : mark.kind = .newline)
  (nodup : (ahead ++ mark :: behind).Nodup) (line : (s.keyword :: leaves s.back).Sublist ahead)
  (within : (leaves (.token s.keyword :: span)).Sublist (ahead ++ mark :: behind))

include kept below nodup line within

/-- The lines below a keyword are either out of reach, or are laid out around a line break. -/
theorem IsKeptIn.sides :
    (leaves span).Sublist ahead ∨ ∃ after, span = s.back ++ .group s.below :: after ∧
      (leaves s.back ++ leaves upper).Sublist ahead ∧
      (leaves lower ++ leaves after).Sublist behind := by
  rcases kept List.mem_cons_self with hw | he
  · obtain ⟨after, rfl⟩ := hw.eq_of_cons (nodup.sublist within)
    have hleaves : leaves (.token s.keyword :: (s.back ++ .group s.below :: after)) =
        (s.keyword :: (leaves s.back ++ leaves upper)) ++
          mark :: (leaves lower ++ leaves after) := by
      simp [leaves, leaves_append, Tree.leaves, below]
    rw [hleaves] at within
    obtain ⟨hahead, hbehind⟩ := sublist_sides within nodup
    exact .inr ⟨after, rfl, (List.sublist_cons_self _ _).trans hahead, hbehind⟩
  · have hline := (List.sublist_cons_self s.keyword (leaves s.back)).trans line
    exact .inl (he.sublist_of_cons.trans hline)

include newline

theorem IsKeptIn.closure_divided (hb : body <:+ span)
    (hp : part ∈ splitWhere (·.hasKind .newline) (Offside.ungroup (headerAndBody body).2)) :
    (leaves part).Sublist ahead ∨ (leaves part).Sublist behind := by
  have hpart : (leaves part).Sublist (leaves body) := by
    have hs := leaves_sublist (isInfix_of_mem_splitWhere hp).sublist
    rw [leaves_ungroup] at hs
    exact hs.trans (leaves_sublist (headerAndBody_snd_sublist body))
  rcases kept.sides below nodup line within with hspan | ⟨after, rfl, hahead, hbehind⟩
  · exact .inl ((hpart.trans (leaves_sublist hb.sublist)).trans hspan)
  · -- the body of the closure begins on its line, or behind all lines below
    have hrest : .group s.below :: after <:+ s.back ++ .group s.below :: after :=
      List.suffix_append _ _
    obtain ⟨header, rfl, hheader⟩ | hafter : (∃ header, body = header ++ .group s.below :: after ∧
        header <:+ s.back) ∨ body <:+ after := by
      rcases List.suffix_or_suffix_of_suffix hb hrest with hb' | ⟨header, rfl⟩
      · rcases List.suffix_cons_iff.mp hb' with rfl | hb'
        · exact .inl ⟨[], rfl, List.nil_suffix⟩
        · exact .inr hb'
      · obtain ⟨front, he⟩ := hb
        rw [← List.append_assoc] at he
        exact .inl ⟨header, rfl, front, List.append_cancel_right he⟩
    · have hplain : ∀ tree ∈ header, tree.isGroup = false := by
        intro tree hm
        obtain ⟨t, rfl, -⟩ := s.line tree (hheader.subset hm)
        rfl
      have hspan : Offside.ungroup (headerAndBody (header ++ .group s.below :: after)).2 =
          upper ++ .token mark :: (lower ++ Offside.ungroup after) := by
        rw [headerAndBody_behind hplain]
        show s.below ++ Offside.ungroup after = _
        rw [below, List.append_assoc]
        rfl
      rw [hspan, splitWhere_append (by simp [Tree.hasKind, newline])] at hp
      rcases List.mem_append.mp hp with hp | hp
      · have hs := leaves_sublist (isInfix_of_mem_splitWhere hp).sublist
        exact .inl ((hs.trans (List.sublist_append_right _ _)).trans hahead)
      · have hs := leaves_sublist (isInfix_of_mem_splitWhere hp).sublist
        rw [leaves_append, leaves_ungroup] at hs
        exact .inr (hs.trans hbehind)
    · have hs := hpart.trans (leaves_sublist hafter.sublist)
      exact .inr ((hs.trans (List.sublist_append_right _ _)).trans hbehind)

theorem IsKeptIn.sequence_divided {heading heading' : Heading} {header : List Tree}
    (opens : heading? .sequence (.token s.keyword :: s.back) = some (heading, header))
    (balanced : IsBalanced (header ++ upper))
    (hb : heading? .sequence (.token s.keyword :: span) = some (heading', body))
    (hp : part ∈ partsBetween [.comma, .newline] (Offside.ungroup body)) :
    (leaves part).Sublist ahead ∨ (leaves part).Sublist behind := by
  have hbody : body <:+ span := by
    obtain ⟨t, rest, he, -, hsuffix, -⟩ := heading?_parts hb
    obtain ⟨-, rfl⟩ := List.cons.inj he
    exact hsuffix
  rcases kept.sides below nodup line within with hspan | ⟨after, rfl, hahead, hbehind⟩
  · have hs := leaves_sublist (isInfix_of_mem_partsBetween hp).sublist
    rw [leaves_ungroup] at hs
    exact .inl ((hs.trans (leaves_sublist hbody.sublist)).trans hspan)
  · have hsuffix : header <:+ s.back := by
      obtain ⟨t, rest, he, -, hsuffix, -⟩ := heading?_parts opens
      obtain ⟨-, rfl⟩ := List.cons.inj he
      exact hsuffix
    have hplain : ∀ tree ∈ header, tree.isGroup = false := by
      intro tree hm
      obtain ⟨t, rfl, -⟩ := s.line tree (hsuffix.subset hm)
      rfl
    have hlong : heading? .sequence (.token s.keyword :: (s.back ++ .group s.below :: after)) =
        some (heading, header ++ .group s.below :: after) := by
      refine heading?_append_groups opens fun tree hm => ?_
      obtain rfl := Option.some.inj hm
      rfl
    obtain ⟨-, rfl⟩ := Prod.mk.inj (Option.some.inj (hb.symm.trans hlong))
    have hspan : Offside.ungroup (header ++ .group s.below :: after) =
        (header ++ upper) ++ .token mark :: (lower ++ Offside.ungroup after) := by
      rw [ungroup_append, ungroup_eq_self hplain]
      show header ++ (s.below ++ Offside.ungroup after) = _
      rw [below]
      simp only [List.append_assoc, List.cons_append]
    have flat : Depth.top.after (.token mark) = .top := by simp [Depth.after, newline]
    rw [hspan, partsBetween_append balanced (by simp [Token.hasKindIn, newline]) flat] at hp
    rcases List.mem_append.mp hp with hp | hp
    · have hs := leaves_sublist (isInfix_of_mem_partsBetween hp).sublist
      rw [leaves_append] at hs
      exact .inl ((hs.trans ((leaves_sublist hsuffix.sublist).append (.refl _))).trans hahead)
    · have hs := leaves_sublist (isInfix_of_mem_partsBetween hp).sublist
      rw [leaves_append, leaves_ungroup] at hs
      exact .inr (hs.trans hbehind)

end

end Site

end Offside
