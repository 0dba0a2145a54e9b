import Offside.Proofs.Pairing

namespace Offside

/-- Whether some tokens close, in no beginning of them, more parentheses than they open, and on the
whole as many. -/
structure BalanceParens (tokens : List Token) : Prop where
  beginnings : ∀ before, before <+: tokens →
    before.countP (·.kind == .closeParen) ≤ before.countP (·.kind == .openParen)
  total : tokens.countP (·.kind == .closeParen) = tokens.countP (·.kind == .openParen)

/-- Whether two parentheses of some tokens match, with `inside` between them. -/
structure MatchParens (tokens before : List Token) (opener : Token) (inside : List Token)
    (closer : Token) (after : List Token) : Prop where
  place : tokens = before ++ opener :: (inside ++ closer :: after)
  opens : opener.kind = .openParen
  closes : closer.kind = .closeParen
  balanced : BalanceParens inside

/-- Whether on every level of a span each opening parenthesis has one group of this sort behind it
and then its closing parenthesis, and there are no other parentheses and no other groups. -/
inductive GroupsParens : List Tree → Prop where
  | nil : GroupsParens []
  | token {t : Token} {span : List Tree} (notOpener : t.kind ≠ .openParen)
    (notCloser : t.kind ≠ .closeParen) (rest : GroupsParens span) :
    GroupsParens (.token t :: span)
  | parens {opener closer : Token} {items span : List Tree} (opens : opener.kind = .openParen)
    (closes : closer.kind = .closeParen) (inside : GroupsParens items)
    (rest : GroupsParens span) :
    GroupsParens (.token opener :: .group items :: .token closer :: span)

/-- Whether at some depth of a span a group stands between two tokens, with some tokens before these
and some after them. -/
inductive HoldsGroup (opener : Token) (items : List Tree) (closer : Token) :
    List Token → List Token → List Tree → Prop where
  | here {before after : List Token} {left right : List Tree} (hbefore : leaves left = before)
    (hafter : leaves right = after) :
    HoldsGroup opener items closer before after
      (left ++ .token opener :: .group items :: .token closer :: right)
  | within {before after before' after' : List Token} {left inner right : List Tree}
    (inside : HoldsGroup opener items closer before after inner)
    (hbefore : leaves left ++ before = before') (hafter : after ++ leaves right = after') :
    HoldsGroup opener items closer before' after' (left ++ .group inner :: right)

section

variable {tokens before after inside : List Token} {opener closer t : Token} {m n : Nat}
  {span items left right : List Tree}

theorem openAfter?_plain (ho : t.kind ≠ .openParen) (hc : t.kind ≠ .closeParen) (n : Nat)
    (span : List Tree) : openAfter? n (.token t :: span) = openAfter? n span := by
  simp [openAfter?, Tree.hasKind, ho, hc]

theorem forall_prefix_cons {p : List Token → Prop} : (∀ before, before <+: t :: tokens → p before) ↔
    p [] ∧ ∀ before, before <+: tokens → p (t :: before) := by
  simp only [List.prefix_cons_iff]
  constructor
  · intro h
    exact ⟨h [] (.inl rfl), fun before hb => h _ (.inr ⟨before, rfl, hb⟩)⟩
  · rintro ⟨hnil, hcons⟩ before (rfl | ⟨before, rfl, hb⟩)
    · exact hnil
    · exact hcons before hb

/-- So many parentheses are open after some tokens if no beginning of them closes too many and the
whole opens so many more than it closes. -/
theorem openAfter?_map_token : openAfter? n (tokens.map .token) = some m ↔
    (∀ before, before <+: tokens →
      before.countP (·.kind == .closeParen) ≤ n + before.countP (·.kind == .openParen)) ∧
    tokens.countP (·.kind == .closeParen) + m = n + tokens.countP (·.kind == .openParen) := by
  induction tokens generalizing n with
  | nil => simp [openAfter?, eq_comm]
  | cons t tokens ih =>
    rw [List.map_cons, forall_prefix_cons]
    by_cases ho : t.kind = .openParen
    · rw [openAfter?_open ho, ih]
      simp [ho, Nat.add_assoc, Nat.add_comm 1]
    · by_cases hc : t.kind = .closeParen
      · cases n with
        | zero =>
          have hnone : openAfter? 0 (.token t :: tokens.map .token) = none := by
            simp [openAfter?, Tree.hasKind, hc]
          rw [hnone]
          refine ⟨fun h => (by cases h), fun h => ?_⟩
          have hfirst := h.1.2 [] List.nil_prefix
          simp [hc] at hfirst
        | succ n =>
          have hclose : ∀ l : List Token, (t :: l).countP (·.kind == .closeParen) =
              l.countP (·.kind == .closeParen) + 1 := by simp [hc]
          have hopen : ∀ l : List Token, (t :: l).countP (·.kind == .openParen) =
              l.countP (·.kind == .openParen) := by simp [hc]
          rw [openAfter?_close hc, ih]
          simp only [hclose, hopen]
          constructor
          · rintro ⟨hbefore, htotal⟩
            exact ⟨⟨Nat.zero_le _, fun b hb => by have := hbefore b hb; omega⟩, by omega⟩
          · rintro ⟨⟨-, hbefore⟩, htotal⟩
            exact ⟨fun b hb => by have := hbefore b hb; omega, by omega⟩
      · rw [openAfter?_plain ho hc, ih]
        simp [ho, hc]

theorem balanceParens_iff : BalanceParens tokens ↔ IsPaired (tokens.map .token) := by
  rw [IsPaired, openAfter?_map_token, Nat.add_zero, Nat.zero_add]
  simp only [Nat.zero_add]
  exact ⟨fun h => ⟨h.beginnings, h.total⟩, fun h => ⟨h.1, h.2⟩⟩

/-- What is grouped at every pair of parentheses has only tokens that balance. -/
theorem GroupsParens.isPaired_leaves (h : GroupsParens span) :
    IsPaired ((leaves span).map .token) := by
  induction h with
  | nil => rfl
  | token notOpener notCloser rest ih =>
    rw [leaves, Tree.leaves, List.singleton_append, List.map_cons, IsPaired,
      openAfter?_plain notOpener notCloser]
    exact ih
  | parens opens closes inside rest ihin ih =>
    rw [leaves, leaves, leaves, Tree.leaves, Tree.leaves, Tree.leaves, List.singleton_append,
      List.singleton_append, List.map_cons, List.map_append, List.map_cons, IsPaired,
      openAfter?_open opens, openAfter?_append, ihin.openAfter?_eq, Option.bind_some,
      openAfter?_close closes]
    exact ih

/-- Paired tokens are grouped at every pair of parentheses. -/
theorem groupsParens_regroup (plain : ∀ t ∈ tokens, BlockForm.introducedBy? t = none)
    (h : IsPaired (tokens.map .token)) : GroupsParens (regroup (tokens.map .token)) := by
  induction hlen : tokens.length using Nat.strong_induction_on generalizing tokens with
  | _ length ih =>
    cases tokens with
    | nil =>
      rw [List.map_nil, regroup]
      exact .nil
    | cons t tokens =>
      obtain ⟨ht, hplain⟩ := List.forall_mem_cons.mp plain
      rw [List.map_cons] at h ⊢
      by_cases ho : t.kind = .openParen
      · obtain ⟨inner, closer, rest, htokens, hc, hinner, hrest⟩ := h.split_enclosed ho
        obtain ⟨ins, more, rfl, rfl, hmore⟩ := List.map_eq_append_iff.mp htokens
        obtain ⟨c, rest, rfl, hcloser, rfl⟩ := List.map_eq_cons_iff.mp hmore
        obtain rfl := Tree.token.inj hcloser
        obtain ⟨hins, hmore⟩ := List.forall_mem_append.mp hplain
        rw [htokens, hinner.isMatched.regroup_enclosed ho hc]
        simp only [List.length_cons, List.length_append] at hlen
        exact .parens ho hc (ih _ (by omega) hins hinner rfl)
          (ih _ (by omega) (List.forall_mem_cons.mp hmore).2 hrest rfl)
      · have hc : t.kind ≠ .closeParen := by
          intro hc
          simp [IsPaired, openAfter?, Tree.hasKind, hc] at h
        rw [IsPaired, openAfter?_plain ho hc] at h
        rw [regroup_cons_of_none ho ht]
        exact .token ho hc (ih _ (by simp [← hlen]) hplain h rfl)

/-- A group stands in parentheses, and is itself grouped at every pair. -/
theorem GroupsParens.of_group (h : GroupsParens (left ++ .group items :: right)) :
    GroupsParens items ∧ ∃ left' opener closer right', left = left' ++ [.token opener] ∧
      right = .token closer :: right' ∧ opener.kind = .openParen ∧ closer.kind = .closeParen := by
  generalize hspan : left ++ Tree.group items :: right = span at h
  induction h generalizing left with
  | nil => simp at hspan
  | token notOpener notCloser rest ih =>
    cases left with
    | nil => cases (List.cons.inj hspan).1
    | cons first left =>
      obtain ⟨rfl, htail⟩ := List.cons.inj hspan
      obtain ⟨hitems, left', opener, closer, right', rfl, hright⟩ := ih htail
      exact ⟨hitems, _ :: left', opener, closer, right', rfl, hright⟩
  | @parens opener closer inner span opens closes inside rest ihin ih =>
    match left with
    | [] => cases (List.cons.inj hspan).1
    | [_] =>
      obtain ⟨rfl, htail⟩ := List.cons.inj hspan
      obtain ⟨hgroup, hright⟩ := List.cons.inj htail
      obtain rfl := Tree.group.inj hgroup
      exact ⟨inside, [], opener, closer, span, rfl, hright, opens, closes⟩
    | [_, _] => cases (List.cons.inj (List.cons.inj (List.cons.inj hspan).2).2).1
    | first :: second :: third :: left =>
      simp only [List.cons_append, List.cons.injEq] at hspan
      obtain ⟨rfl, rfl, rfl, htail⟩ := hspan
      obtain ⟨hitems, left', opener, closer, right', rfl, hright⟩ := ih htail
      exact ⟨hitems, _ :: _ :: _ :: left', opener, closer, right', rfl, hright⟩

/-- The parentheses around a group match among all tokens. -/
theorem HoldsGroup.matchParens (held : HoldsGroup opener items closer before after span)
    (h : GroupsParens span) :
    MatchParens (leaves span) before opener (leaves items) closer after := by
  induction held with
  | @here before after left right hbefore hafter =>
    have hleft : GroupsParens
        ((left ++ [.token opener]) ++ .group items :: .token closer :: right) := by
      rwa [List.append_assoc]
    obtain ⟨hitems, left', opener', closer', right', hl, hr, ho, hc⟩ := hleft.of_group
    obtain rfl := Tree.token.inj (List.append_inj_right' hl rfl |> List.singleton_inj.mp)
    obtain rfl := Tree.token.inj (List.cons.inj hr).1
    refine ⟨?_, ho, hc, balanceParens_iff.mpr hitems.isPaired_leaves⟩
    rw [leaves_append, leaves, leaves, leaves, hbefore, hafter]
    rfl
  | @within before after before' after' left inner right inside hbefore hafter ih =>
    obtain ⟨hplace, ho, hc, hbalanced⟩ := ih h.of_group.1
    refine ⟨?_, ho, hc, hbalanced⟩
    rw [leaves_append, leaves, Tree.leaves, hplace, ← hbefore, ← hafter]
    simp

theorem HoldsGroup.append_left (held : HoldsGroup opener items closer before after span)
    (left : List Tree) :
    HoldsGroup opener items closer (leaves left ++ before) after (left ++ span) := by
  cases held with
  | here hbefore hafter =>
    rw [← List.append_assoc]
    exact .here (by rw [leaves_append, hbefore]) hafter
  | within inside hbefore hafter =>
    rw [← List.append_assoc]
    exact .within inside (by rw [leaves_append, List.append_assoc, hbefore]) hafter

/-- Two parentheses that close the same one are the same. -/
theorem eq_of_match {inside' after' : List Token} {closer' : Token}
    (h : IsPaired (inside.map .token)) (h' : IsPaired (inside'.map .token))
    (hc : closer.kind = .closeParen) (hc' : closer'.kind = .closeParen)
    (he : inside ++ closer :: after = inside' ++ closer' :: after') :
    inside = inside' ∧ closer = closer' ∧ after = after' := by
  have hfirst := h.isMatched.closerIndex?_eq hc (after.map .token)
  have hsecond := h'.isMatched.closerIndex?_eq hc' (after'.map .token)
  have htrees := congrArg (List.map Tree.token) he
  simp only [List.map_append, List.map_cons] at htrees
  rw [htrees, hsecond, List.length_map, List.length_map] at hfirst
  obtain ⟨hinside, hrest⟩ := List.append_inj he (Option.some.inj hfirst).symm
  exact ⟨hinside, List.cons.inj hrest⟩

/-- What closes the parentheses open before it is no beginning of paired tokens. -/
theorem not_isPaired_append {left inner rest : List Token}
    (h : IsPaired ((left ++ opener :: inner).map .token)) (ho : opener.kind = .openParen) :
    ¬IsPaired ((inner ++ rest).map .token) := by
  intro hin
  rw [IsPaired, List.map_append, List.map_cons, openAfter?_append] at h
  rw [IsPaired, List.map_append, openAfter?_append] at hin
  obtain ⟨n, -, hn⟩ := Option.bind_eq_some_iff.mp h
  obtain ⟨m, hm, -⟩ := Option.bind_eq_some_iff.mp hin
  have hadd := openAfter?_add hm (n + 1)
  rw [openAfter?_open ho] at hn
  rw [Nat.zero_add, hn] at hadd
  cases hadd

/-- The parenthesis that closes one among paired tokens is among them. -/
theorem exists_of_match {more left inner : List Token}
    (h : IsPaired ((left ++ opener :: inner).map .token)) (ho : opener.kind = .openParen)
    (hin : IsPaired (inside.map .token)) (he : inner ++ more = inside ++ closer :: after) :
    ∃ rest, inner = inside ++ closer :: rest ∧ after = rest ++ more := by
  have hno := fun rest => @not_isPaired_append opener left inner rest h ho
  rcases List.append_eq_append_iff.mp he with ⟨rest, rfl, -⟩ | ⟨rest, rfl, hrest⟩
  · exact absurd hin (hno rest)
  · cases rest with
    | nil =>
      rw [List.append_nil] at hno
      exact absurd (by rwa [List.append_nil]) (hno [])
    | cons c rest =>
      obtain ⟨rfl, rfl⟩ := List.cons.inj hrest
      exact ⟨rest, rfl, rfl⟩

/-- Between two parentheses that match among the tokens of a span stands a group. -/
theorem GroupsParens.exists_holdsGroup (h : GroupsParens span)
    (matched : MatchParens (leaves span) before opener inside closer after) :
    ∃ items, HoldsGroup opener items closer before after span ∧ leaves items = inside := by
  obtain ⟨hplace, ho, hc, hbalanced⟩ := matched
  have hin := balanceParens_iff.mp hbalanced
  induction h generalizing before after with
  | nil => simp [leaves] at hplace
  | @token t span notOpener notCloser rest ih =>
    rw [leaves, Tree.leaves, List.singleton_append] at hplace
    cases before with
    | nil =>
      obtain ⟨rfl, -⟩ := List.cons.inj hplace
      exact absurd ho notOpener
    | cons first before =>
      obtain ⟨rfl, hbehind⟩ := List.cons.inj hplace
      obtain ⟨items, held, hitems⟩ := ih hbehind
      exact ⟨items, held.append_left [.token t], hitems⟩
  | @parens o c items span opens closes inside' rest ihin ih =>
    rw [leaves, leaves, leaves, Tree.leaves, Tree.leaves, Tree.leaves, List.singleton_append,
      List.singleton_append] at hplace
    have hitems := inside'.isPaired_leaves
    cases before with
    | nil =>
      obtain ⟨rfl, hbehind⟩ := List.cons.inj hplace
      obtain ⟨hinside, rfl, hafter⟩ := eq_of_match hitems hin closes hc hbehind
      exact ⟨items, @HoldsGroup.here o items c [] after [] span rfl hafter, hinside⟩
    | cons first before =>
      obtain ⟨rfl, hfirst⟩ := List.cons.inj hplace
      rcases List.append_eq_append_iff.mp hfirst with
        ⟨behind, rfl, hbehind⟩ | ⟨inner, hinner, hmore⟩
      · cases behind with
        | nil =>
          obtain ⟨rfl, -⟩ := List.cons.inj hbehind
          exact absurd (closes.symm.trans ho) (by decide)
        | cons d behind =>
          obtain ⟨rfl, hlast⟩ := List.cons.inj hbehind
          obtain ⟨found, held, hfound⟩ := ih hlast
          refine ⟨found, ?_, hfound⟩
          have held := held.append_left [.token o, .group items, .token c]
          simpa [leaves, Tree.leaves] using held
      · cases inner with
        | nil =>
          obtain ⟨rfl, -⟩ := List.cons.inj hmore
          exact absurd (closes.symm.trans ho) (by decide)
        | cons d inner =>
          obtain ⟨rfl, hclosed⟩ := List.cons.inj hmore
          rw [hinner] at hitems
          obtain ⟨more, rfl, rfl⟩ := exists_of_match hitems ho hin hclosed.symm
          obtain ⟨found, held, hfound⟩ := ihin hinner
          refine ⟨found, ?_, hfound⟩
          exact @HoldsGroup.within _ _ _ _ _ _ _ [.token o] _ _ held rfl rfl

end

/-- Grouping the parentheses of a span loses none of its tokens. If the span is flat and holds no
block, and if its parentheses balance, then at every depth each opening parenthesis has one group
behind it and then its closing one, and nothing else is grouped; and the groups are exactly what
stands between two parentheses that match. -/
theorem regroup_groups_matching_parens :
    (∀ span, leaves (regroup span) = leaves span) ∧
    ∀ tokens : List Token, (∀ t ∈ tokens, BlockForm.introducedBy? t = none) →
      BalanceParens tokens →
        GroupsParens (regroup (tokens.map .token)) ∧
        ∀ before opener inside closer after,
          (∃ items, HoldsGroup opener items closer before after (regroup (tokens.map .token)) ∧
            leaves items = inside) ↔
          MatchParens tokens before opener inside closer after := by
  refine ⟨leaves_regroup, fun tokens plain balanced => ?_⟩
  have hgroups := groupsParens_regroup plain (balanceParens_iff.mp balanced)
  have hleaves : leaves (regroup (tokens.map .token)) = tokens := by
    rw [leaves_regroup, leaves_map_token]
  refine ⟨hgroups, fun before opener inside closer after => ⟨?_, fun h => ?_⟩⟩
  · rintro ⟨items, held, rfl⟩
    have h := held.matchParens hgroups
    rwa [hleaves] at h
  · rw [← hleaves] at h
    exact hgroups.exists_holdsGroup h

/-- The group of a pair of parentheses with another pair inside it, and a pair behind it. -/
theorem regroup_groups_nested_parens :
    let token (kind : Kind) (text : String) : Token := ⟨kind, text, ⟨.unknown, .unknown⟩⟩
    let opener := token .openParen "("
    let closer := token .closeParen ")"
    let inside := [token .name "a", opener, token .name "b", closer]
    let tokens := token .name "f" :: opener :: (inside ++ [closer, opener, closer])
    (∀ t ∈ tokens, BlockForm.introducedBy? t = none) ∧ BalanceParens tokens ∧
      leaves (regroup (tokens.map .token)) = tokens ∧ GroupsParens (regroup (tokens.map .token)) ∧
      ∃ items, HoldsGroup opener items closer [token .name "f"] [opener, closer]
        (regroup (tokens.map .token)) ∧ leaves items = inside := by
  intro token opener closer inside tokens
  have plain : ∀ t ∈ tokens, BlockForm.introducedBy? t = none := by decide
  have balanced : BalanceParens tokens := balanceParens_iff.mpr rfl
  have inner : BalanceParens inside := balanceParens_iff.mpr rfl
  obtain ⟨hleaves, hgroups⟩ := regroup_groups_matching_parens
  obtain ⟨hshape, hmatch⟩ := hgroups tokens plain balanced
  refine ⟨plain, balanced, ?_, hshape, (hmatch _ _ _ _ _).mpr ⟨rfl, rfl, rfl, inner⟩⟩
  rw [hleaves, leaves_map_token]

end Offside
