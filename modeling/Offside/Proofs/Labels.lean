import Offside.Proofs.BlockOperands

namespace Offside

section

variable {name colon : Token} {rest : List Tree}

theorem leafCount_refined_le (span : List Tree) :
    leafCount (refined (joinLines span)) ≤ leafCount span := by
  rw [refined, leafCount_regroup]
  exact (leafCount_spread_le _).trans (leafCount_le_of_sublist (joinLines_sublist span))

/-- A span that begins with a label is read as a composite expression. -/
theorem readValue_label (hn : name.kind = .name) (hc : colon.kind = .colon) (rest : List Tree) :
    readValue (.token name :: .token colon :: rest) =
      readConstruct readers (.token name :: .token colon :: refined (joinLines rest)) := by
  have hjoin : joinLines (.token name :: .token colon :: rest) =
      .token name :: .token colon :: joinLines rest := by
    rw [joinLines_token (by simp [hn]), joinLines_token (by simp [hc])]
  have hnone : BlockForm.introducedBy? name = none := introducedBy?_eq_none (by simp [hn])
  have hnone' : BlockForm.introducedBy? colon = none := introducedBy?_eq_none (by simp [hc])
  have hplain : ∀ tree ∈ .token name :: .token colon :: joinLines rest,
      tree.hasKind .newline = false := by
    rw [← hjoin]
    exact fun tree hm => hasKind_newline_of_mem_joinLines hm
  rw [← readValue_joinLines, hjoin]
  refine readValue_eq_readConstruct hplain (by simp) ?_ (inParens?_of_tokens _ _ _) ?_ (by simp)
    (inParens?_of_tokens _ _ _)
  · simpa using not_opensBlock_of_introducedBy? hnone
  · rw [refined_token (by simp [hn]) (by simp [hn]) hnone,
      refined_token (by simp [hc]) (by simp [hc]) hnone']

theorem cut_label (hn : name.kind = .name) (hc : colon.kind = .colon) (rest : List Tree) :
    cut [.operator] (.token name :: .token colon :: rest) =
      (.token name :: .token colon :: (cut [.operator] rest).1, (cut [.operator] rest).2) := by
  have hbalanced : IsBalanced [.token name, .token colon] := by
    simp [IsBalanced, Depth.after, hn, hc]
  have hundivided : IsUndivided [.operator] .top [.token name, .token colon] :=
    isUndivided_of_not_mem fun t ht => by
      simp only [List.mem_cons, Tree.token.injEq, List.not_mem_nil, or_false] at ht
      rcases ht with rfl | rfl <;> simp [hn, hc]
  exact cut_append hbalanced hundivided

/-- No value begins with a label: what stands first in a composite expression is a value, or names
in parentheses. -/
theorem readValue_refuses_label (hn : name.kind = .name) (hc : colon.kind = .colon)
    (rest : List Tree) (v : Value) :
    readValue (.token name :: .token colon :: rest) ≠ .ok v := by
  induction hlen : leafCount rest using Nat.strong_induction_on generalizing rest v with
  | _ n ih =>
    intro h
    have hle := leafCount_refined_le rest
    rw [readValue_label hn hc] at h
    generalize refined (joinLines rest) = span at h hle
    have hfirst : ∀ {left right : List Tree} {t : Token},
        .token name :: .token colon :: span = left ++ .token t :: right →
        t.kind ∉ [.name, .colon] → ∃ more, left = .token name :: .token colon :: more ∧
          ∀ w, readValue left ≠ .ok w := by
      intro left right t hspan hk
      rcases eq_append_cons_cases hspan with ⟨-, ht⟩ | ⟨-, ht⟩ | ⟨more, rfl⟩
      · obtain rfl := Tree.token.inj ht
        simp [hn] at hk
      · obtain rfl := Tree.token.inj ht
        simp [hc] at hk
      · refine ⟨more, rfl, fun w => ih (leafCount more) ?_ more w rfl⟩
        simp only [List.cons_append, List.cons.injEq, true_and] at hspan
        rw [hspan, leafCount_append, leafCount_token_cons] at hle
        omega
    obtain ⟨shape, c, hs, hread, -⟩ := readConstruct_eq_ok h
    have hbelow := (divides_of_shape? hs).isBelow
    obtain ⟨form, -, hform⟩ := List.exists_of_findSome?_eq_some hs
    cases form with
    | returning =>
      have hform : returning? (.token name :: .token colon :: span) = some shape := hform
      obtain ⟨keyword, value, hspan, hk, -⟩ := returning?_eq_some hform
      obtain rfl := Tree.token.inj (List.cons.inj hspan).1
      cases hk.symm.trans hn
    | call =>
      obtain ⟨callee, opener, arguments, closer, hspan, ho, -, -, -, rfl⟩ := call?_eq_some hform
      obtain ⟨-, -, hcallee⟩ := hfirst hspan (by simp [ho])
      obtain ⟨_, -, hread⟩ := bind_eq_ok.mp hread
      obtain ⟨w, hw, -⟩ := bind_eq_ok.mp hread
      exact hcallee w hw
    | access =>
      obtain ⟨subject, opener, key, closer, hspan, ho, -, -, -, -, rfl⟩ := access?_eq_some hform
      obtain ⟨-, -, hsubject⟩ := hfirst hspan (by simp [ho])
      obtain ⟨_, -, hread⟩ := bind_eq_ok.mp hread
      obtain ⟨w, hw, -⟩ := bind_eq_ok.mp hread
      exact hsubject w hw
    | chain =>
      obtain ⟨subject, dot, others, accessors, hd, -, -, -, -, rfl⟩ := chain?_eq_some hform
      have hdot := List.mem_singleton.mp (kind_of_divide? hd)
      obtain ⟨-, -, hsubject⟩ := hfirst (eq_of_divide? hd) (by simp [hdot])
      obtain ⟨w, hw, -⟩ := bind_eq_ok.mp hread
      exact hsubject w hw
    | lambda =>
      obtain ⟨head, arrow, body, parameters, hd, hp, -⟩ := lambda?_eq_some hform
      have harrow := List.mem_singleton.mp (kind_of_divide? hd)
      obtain ⟨more, rfl, -⟩ := hfirst (eq_of_divide? hd) (by simp [harrow])
      simp [parameters?, leaves, Tree.leaves, hn] at hp
    | dictionary =>
      have hform : dictionary? (.token name :: .token colon :: span) = some shape := hform
      obtain ⟨opener, entries, closer, hspan, ho, -⟩ := dictionary?_eq_some hform
      obtain rfl := Tree.token.inj (List.cons.inj hspan).1
      cases ho.symm.trans hn
    | operation =>
      obtain ⟨-, -, -, -, -, rfl⟩ := operation?_eq_some hform
      have hcut := cut_label hn hc span
      have hsmall : leafCount (cut [.operator] span).1 < n := by
        have hlt := hbelow.1
        rw [hcut, leafCount_token_cons, leafCount_token_cons, leafCount_token_cons,
          leafCount_token_cons] at hlt
        omega
      obtain ⟨items, hitems, -⟩ := bind_eq_ok.mp hread
      obtain ⟨parts, hparts, -⟩ := bind_eq_ok.mp hitems
      rcases readParts_eq_ok hparts with ⟨hempty, -⟩ | ⟨-, w, -, hw, -⟩
      · rw [hcut] at hempty
        cases hempty
      · rw [hcut] at hw
        exact ih _ hsmall _ w rfl (readers.value_of_valueAt hw)
    | assignment =>
      obtain ⟨left, t, right, hd, hk, rfl⟩ := assignment?_eq_some hform
      obtain ⟨-, -, hleft⟩ := hfirst (eq_of_divide? hd) (by simp [hk])
      obtain ⟨w, hw, -⟩ := bind_eq_ok.mp hread
      exact hleft w (readers.value_of_valueAt hw)

end

end Offside
