import Mathlib
import Offside.Proofs.JoinedReading

namespace Offside

section

variable {span xs items : List Tree} {t opener closer : Token} {tree : Tree}

/-- What stands after `return` is read refined. -/
theorem readValue_return_refined (ht : t.kind = .returnWord) (span : List Tree) :
    readValue (.token t :: span) = (readers.valueAt (refined (joinLines span)) t.span.start).map
      fun v => .construct (.returning v) := by
  have hnone : BlockForm.introducedBy? t = none := introducedBy?_eq_none (by simp [ht])
  have hjoin := joinLines_token (t := t) (by simp [ht]) span
  have hplain : ∀ tree ∈ .token t :: joinLines span, tree.hasKind .newline = false := by
    rw [← hjoin]
    exact fun tree hm => hasKind_newline_of_mem_joinLines hm
  have hcompound : ∀ (rest : List Tree) (compound : List Tree → Outcome Value),
      readSimple readers (.token t :: rest) compound = compound (.token t :: rest) := by
    intro rest compound
    cases rest with
    | nil => simp [readSimple, literal?, inParens?, ht, Kind.isValue]
    | cons next rest => exact readSimple_eq_compound (by simp [Tree.hasKind, ht])
  have hrefined : regroup (spread (.token t :: joinLines span)).1 =
      .token t :: refined (joinLines span) := by
    rw [spread_cons_of_none (by simp [ht]) hnone, regroup_cons_of_none (by simp [ht]) hnone]
    rfl
  rw [← readValue_joinLines, hjoin, readValue_of_token hplain hnone, hcompound, readFlat, hrefined,
    hcompound, readConstruct, shape?_of_returnWord ht]
  show (readers.valueAt (refined (joinLines span)) t.span.start >>= fun v =>
    pure (Construct.returning v)) >>= (fun c => pure (Value.construct c)) = _
  cases readers.valueAt (refined (joinLines span)) t.span.start <;> rfl

end

/-- Whether a block is all that a span holds. -/
inductive HoldsBlock : List Tree → Prop where
  | block {span rest : List Tree} {tree : Tree} (lines : joinLines span = tree :: rest)
    (opens : tree.opensBlock = true) : HoldsBlock span
  | group {span items : List Tree} (lines : joinLines span = [.group items])
    (inside : HoldsBlock items) : HoldsBlock span

/-- Whether an expression taken out of its groups is read in the same way when its parentheses are
grouped twice: what comes behind the parentheses around its first block is tidy, its lines end where
they may, and a call of what holds a block has a single argument without a label. -/
structure IsSettled (span : List Tree) : Prop where
  tidy : IsTidyBehindParens span
  lines : BreaksFreely (outsideParens span)
  sole : ∀ callee opener arguments closer,
    span = callee ++ .token opener :: (arguments ++ [.token closer]) →
    opener.kind = .openParen → closer.kind = .closeParen → IsPaired arguments →
    ¬IsBlockless callee → (∀ tree ∈ outsideParens callee, tree.opensBlock = false) →
    IsUndivided [.operator, .assignment, .arrow] .top (outsideParens callee) →
    IsSoleArgument (outsideParens arguments)

/-- What a value has to be like to be read in the same way when it is refined first: what is left
without the groups and the parentheses around the whole of it is a token, a block, or an expression
that is settled. -/
inductive IsSteady : List Tree → Prop where
  | empty {span : List Tree} (lines : joinLines span = []) : IsSteady span
  | token {span : List Tree} {t : Token} (lines : joinLines span = [.token t]) : IsSteady span
  | block {span : List Tree} (holds : HoldsBlock span) : IsSteady span
  | group {span items : List Tree} (lines : joinLines span = [.group items])
    (breaks : BreaksOutside items) (inside : IsSteady items) : IsSteady span
  | parens {span items : List Tree} {opener closer : Token}
    (lines : joinLines span = [.token opener, .group items, .token closer])
    (opens : opener.kind = .openParen) (closes : closer.kind = .closeParen)
    (paired : IsPaired (unnested items)) (breaks : BreaksOutside items ∨ HoldsBlock items)
    (inside : IsSteady items) : IsSteady span
  | compound {span : List Tree} (long : 2 ≤ (joinLines span).length)
    (notParens : inParens? (joinLines span) = none)
    (begins : aheadOfBlock (joinLines span) ≠ [])
    (settled : IsSettled (unnested (joinLines span))) : IsSteady span

section

variable {span xs items : List Tree} {t opener closer : Token} {tree : Tree}

theorem unwrap_of_joinLines {rest : List Tree} (h : joinLines span = .token t :: rest) :
    unwrap span = .token t :: rest := by
  have plain : ∀ tree ∈ .token t :: rest, tree.hasKind .newline = false := by
    rw [← h]
    exact fun tree hm => hasKind_newline_of_mem_joinLines hm
  rw [← unwrap_joinLines, h, unwrap_of_token plain]

theorem HoldsBlock.unwrap_eq (h : HoldsBlock span) :
    ∃ tree rest, unwrap span = tree :: rest ∧ tree.opensBlock = true := by
  induction h with
  | @block span rest tree lines opens =>
    cases tree with
    | group items => cases opens
    | token t => exact ⟨.token t, rest, unwrap_of_joinLines lines, opens⟩
  | @group span items lines inside ih =>
    rwa [← unwrap_joinLines, lines, unwrap_group]

theorem HoldsBlock.joinLines (h : HoldsBlock span) : HoldsBlock (joinLines span) := by
  cases h with
  | block lines opens => exact .block (by rw [joinLines_joinLines, lines]) opens
  | group lines inside => exact .group (by rw [joinLines_joinLines, lines]) inside

mutual

theorem Tree.spread_of_unwrap (tree : Tree) {first : Tree} {rest : List Tree}
    (h : tree.unwrap = first :: rest) (opens : first.opensBlock = true) :
    ∃ raw, tree.spread = (first :: raw, true) ∧ joinLines raw = rest := by
  match tree with
  | .group items => exact Offside.spread_of_unwrap items h opens
  | .token t =>
    obtain ⟨rfl, rfl⟩ := List.cons.inj h
    exact ⟨[], Tree.spread_of_opensBlock opens, rfl⟩

/-- When a block is all that a span holds, spreading the span out gives the block. -/
theorem spread_of_unwrap (span : List Tree) {first : Tree} {rest : List Tree}
    (h : unwrap span = first :: rest) (opens : first.opensBlock = true) :
    ∃ raw, spread span = (first :: raw, true) ∧ joinLines raw = rest := by
  match span with
  | [] => cases h
  | tree :: span =>
    rw [unwrap] at h
    split at h
    next hk =>
      obtain ⟨t, rfl, ht⟩ := token_of_hasKind hk
      obtain ⟨raw, hs, hraw⟩ := spread_of_unwrap span h opens
      refine ⟨raw, ?_, hraw⟩
      rw [spread, Tree.spread, if_pos ht, hs]
      rfl
    next hk =>
      split at h
      next hj =>
        obtain ⟨raw, hs, hraw⟩ := Tree.spread_of_unwrap tree h opens
        refine ⟨raw ++ span, ?_, ?_⟩
        · rw [spread, hs]
          rfl
        · rw [joinLines_append, hraw, hj, List.append_nil]
      next next more hj =>
        obtain ⟨rfl, rfl⟩ := List.cons.inj h
        exact ⟨span, spread_of_opensBlock opens span, hj⟩

end

theorem HoldsBlock.readValue_refined (h : HoldsBlock span) :
    readValue (refined span) = readValue span := by
  obtain ⟨tree, rest, unwrapped, opens⟩ := h.unwrap_eq
  obtain ⟨raw, hs, rfl⟩ := spread_of_unwrap span unwrapped opens
  rw [refined, hs, regroup, if_pos opens]
  refine readValue_congr ?_
  cases tree with
  | group items => cases opens
  | token t =>
    rw [unwrapped]
    exact unwrap_of_joinLines (joinLines_cons (not_newline_of_opensBlock opens) raw)

end

section

variable {span items xs callee arguments : List Tree} {t opener closer : Token} {tree : Tree}

theorem labelled?_eq_none_iff (next : Tree) (rest : List Tree) :
    labelled? (tree :: next :: rest) = none ↔ tree.name? = none ∨ next.hasKind .colon = false := by
  rw [labelled?]
  cases tree.name? <;> simp

theorem labelled?_regroup (span : List Tree) :
    labelled? (regroup span) = none ↔ labelled? (outsideParens span) = none := by
  cases span with
  | nil => simp [regroup, outsideParens, outsideFrom]
  | cons tree span =>
    cases hopens : tree.opensBlock with
    | true => rw [outsideParens_of_opensBlock hopens, regroup, if_pos hopens]
    | false =>
      cases ho : tree.hasKind .openParen with
      | true =>
        -- a parenthesis is no label
        obtain ⟨t, rfl, ht⟩ := token_of_hasKind ho
        obtain ⟨rest, hr⟩ := regroup_cons_eq (.token t) span
        obtain ⟨outside, hout⟩ := outsideParens_cons_eq (.token t) span
        have hname : Tree.name? (.token t) = none := by rw [Tree.name?, if_neg (by simp [ht])]
        rw [hr, hout]
        cases rest <;> cases outside <;> simp [labelled?, hname]
      | false =>
        rw [outsideParens_cons ho hopens, regroup_cons_of_not_opener hopens ho]
        cases span with
        | nil => simp [regroup, outsideParens, outsideFrom]
        | cons next span =>
          obtain ⟨rest, hr⟩ := regroup_cons_eq next span
          obtain ⟨outside, hout⟩ := outsideParens_cons_eq next span
          rw [hr, hout, labelled?_eq_none_iff, labelled?_eq_none_iff]

theorem IsSoleArgument.regroup (h : IsSoleArgument (outsideParens span)) :
    IsSoleArgument (regroup span) where
  nonempty := by
    intro hs
    rw [regroup_eq_nil_iff.mp hs] at h
    exact h.nonempty rfl
  undivided := isUndivided_regroup_iff.mpr h.undivided
  unlabelled := (labelled?_regroup span).mpr h.unlabelled

end

section

variable {span callee arguments : List Tree} {opener closer : Token}

/-- The last block of a call without a block before its arguments is not followed by parentheses
that open. -/
theorem quiet_of_call {before rest items : List Tree} (hc : closer.kind = .closeParen)
    (hcallee : IsBlockless callee) (hspan : callee ++ [.token opener, .group arguments, .token closer] =
      before ++ .group items :: rest)
    (hmet : (spread items).2 = true) : ∀ tree ∈ rest, tree.hasKind .openParen = false := by
  rcases List.append_eq_append_iff.mp hspan with ⟨more, rfl, htail⟩ | ⟨more, rfl, htail⟩
  · match more with
    | [] => cases (List.cons.inj htail).1
    | [_] =>
      simp only [List.cons_append, List.nil_append, List.cons.injEq] at htail
      rw [← htail.2.2]
      simp [Tree.hasKind, hc]
    | [_, _] =>
      simp only [List.cons_append, List.nil_append, List.cons.injEq] at htail
      cases htail.2.2.1
    | _ :: _ :: _ :: more => simp at htail
  · cases more with
    | nil => cases (List.cons.inj htail).1
    | cons first more =>
      obtain ⟨rfl, -⟩ := List.cons.inj htail
      have hitems : IsBlockless items := by
        refine hcallee.of_sublist ?_
        rw [leaves_append, leaves, Tree.leaves]
        exact (List.sublist_append_left _ _).trans (List.sublist_append_right _ _)
      rw [isBlockless_iff, hmet] at hitems
      cases hitems

theorem canBeSubject_of_shape? {opener : Tree}
    (h : shape? span = some (.call callee opener arguments)) : canBeSubject callee = true := by
  obtain ⟨form, -, hf⟩ := List.exists_of_findSome?_eq_some h
  cases form with
  | returning =>
    obtain ⟨_, _, -, -, hshape⟩ := returning?_eq_some hf
    cases hshape
  | call =>
    obtain ⟨_, _, _, _, -, -, -, -, hsubject, hshape⟩ := call?_eq_some hf
    cases hshape
    exact hsubject
  | access =>
    obtain ⟨_, _, _, _, -, -, -, -, -, -, hshape⟩ := access?_eq_some hf
    cases hshape
  | chain =>
    obtain ⟨_, _, _, _, -, -, -, -, -, hshape⟩ := chain?_eq_some hf
    cases hshape
  | lambda =>
    obtain ⟨_, _, _, _, -, -, hshape⟩ := lambda?_eq_some hf
    cases hshape
  | dictionary =>
    obtain ⟨_, _, _, -, -, -, -, hshape⟩ := dictionary?_eq_some hf
    cases hshape
  | operation =>
    obtain ⟨_, _, _, -, -, hshape⟩ := operation?_eq_some hf
    cases hshape
  | assignment =>
    obtain ⟨_, _, _, -, -, hshape⟩ := assignment?_eq_some hf
    cases hshape

/-- A call of what holds a block in parentheses has a single argument without a label. -/
theorem IsSettled.isSoleArgument {opener : Tree} (h : IsSettled span)
    (first : ∀ tree ∈ (regroup span).head?, tree.hasKind .newline = false)
    (hcall : ∀ callee opener arguments closer,
      regroup span = callee ++ [.token opener, .group arguments, .token closer] →
        closer.kind = .closeParen → ¬IsBlockless callee)
    (hs : shape? (joinLines (regroup span)) = some (.call callee opener arguments))
    (plain : ∀ tree ∈ callee, tree.opensBlock = false) : IsSoleArgument arguments := by
  have hsubject := canBeSubject_of_shape? hs
  have hdivides := divides_of_shape? hs
  generalize hjoin : joinLines (regroup span) = joined at hdivides
  cases hdivides with
  | @call _ _ _ closer opens closes =>
    obtain ⟨opener, rfl, ho⟩ := token_of_hasKind opens
    obtain ⟨closer, rfl, hc⟩ := token_of_hasKind closes
    obtain ⟨front, opener', items, closer', hspan, ho', hc'⟩ :=
      (breaksFreely_regroup h.lines).endsWithParens first ⟨callee, opener, arguments, closer, hjoin, ho, hc⟩
    rw [hspan, joinLines_append_parens ho' hc'] at hjoin
    obtain ⟨rfl, hparens⟩ := List.append_inj' hjoin rfl
    obtain rfl : items = arguments := by simpa using (List.cons.inj (List.cons.inj hparens).2).1
    have hplain : ∀ tree ∈ front, tree.opensBlock = false := by
      intro tree hm
      by_contra hopens
      have hopens : tree.opensBlock = true := by simpa using hopens
      have hm : tree ∈ joinLines front :=
        List.mem_filter.mpr ⟨hm, by simp [not_newline_of_opensBlock hopens]⟩
      cases hopens.symm.trans (plain tree hm)
    obtain ⟨before, inner, hbefore, rfl, -, hinner, rfl⟩ := exists_of_regroup_eq ho' hplain hspan
    have hblock := hcall _ _ _ _ hspan hc'
    refine (h.sole before opener' inner closer' hbefore ho' hc' hinner ?_ ?_ ?_).regroup
    · rwa [isBlockless_regroup] at hblock
    · exact fun tree hm => hplain tree (outsideParens_subset_regroup hm)
    · rw [← isUndivided_regroup_iff, ← isUndivided_joinLines (by decide)]
      exact (canBeSubject_iff.mp hsubject).2

/-- Refining once more makes no difference to a settled expression with its lines joined. -/
theorem IsSettled.readFlat_eq (h : IsSettled span) (hreach : ReachesBlock span)
    (first : ∀ tree ∈ (regroup span).head?, tree.hasKind .newline = false) :
    readSimple readers (joinLines (regroup span)) (readFlat readers) =
      readSimple readers (joinLines (regroup span)) (readConstruct readers) := by
  have alike : AreReadAlike (leafCount (joinLines (regroup span))) := fun _ _ h _ => h.readValue_eq
  have renested : ∀ {even : Bool}, Renested even (regroup span) (refined (regroup span)) →
      Renested even (joinLines (regroup span)) (refined (joinLines (regroup span))) := by
    intro even hr
    rw [← hreach.joinLines_refined]
    exact hr.joinLines
  have hconstruct : ∃ even,
      Renested even (joinLines (regroup span)) (refined (joinLines (regroup span))) ∧
        readConstruct readers (joinLines (regroup span)) =
          readConstruct readers (refined (joinLines (regroup span))) := by
    by_cases hcall : ∃ callee opener arguments closer,
        regroup span = callee ++ [.token opener, .group arguments, .token closer] ∧
          closer.kind = .closeParen ∧ IsBlockless callee
    · -- nothing is grouped behind the parentheses that end a call
      obtain ⟨callee, opener, arguments, closer, hs, hc, hcallee⟩ := hcall
      have hr := renested (@ReachesBlock.renested _ true hreach h.tidy fun _ _ _ _ hspan hmet =>
        quiet_of_call hc hcallee (hs.symm.trans hspan) hmet)
      exact ⟨true, hr, hr.readConstruct_eq alike fun he => by cases he⟩
    · have hr := renested (@ReachesBlock.renested _ false hreach h.tidy fun he => by cases he)
      refine ⟨false, hr, hr.readConstruct_eq alike fun _ callee opener arguments hs hplain => ?_⟩
      exact h.isSoleArgument first (fun callee opener arguments closer hspan hc hblock =>
        hcall ⟨callee, opener, arguments, closer, hspan, hc, hblock⟩) hs hplain
  obtain ⟨even, hrenested, hconstruct⟩ := hconstruct
  refine (readSimple_of_eq ?_).trans (readSimple_self _)
  exact (hrenested.readSimple_eq alike hconstruct).symm

theorem refined_enclosed (ho : opener.kind = .openParen) (hc : closer.kind = .closeParen)
    (hp : IsPaired (unnested items)) : refined [.token opener, .group items, .token closer] =
      [.token opener, .group (refined items), .token closer] := by
  rw [← spread_eq_unnested] at hp
  cases hmet : (spread items).2 with
  | true =>
    have h := refined_parens_of_block ho hc hp hmet 0 []
    rwa [regroup] at h
  | false =>
    have hnil : refined [] = [] := by rw [refined, spread, regroup]
    have h := refined_parens ho hc hp hmet 0 []
    rwa [hnil] at h

theorem BreaksOutside.readValue_refined (h : BreaksOutside items) :
    readValue (refined items) = readValue (refined (joinLines items)) := by
  have hjoin := h.joinLines_eq
  rw [← spread_eq_unnested, ← spread_eq_unnested] at hjoin
  rw [← readValue_joinLines (refined items), refined, hjoin, ← refined, readValue_joinLines]

/-- Refining a settled expression does not change how it is read. -/
theorem IsSettled.readValue_refined (h : IsSettled (unnested span))
    (plain : ∀ tree ∈ span, tree.hasKind .newline = false) (long : 2 ≤ span.length)
    (notParens : inParens? span = none) (begins : aheadOfBlock span ≠ []) :
    (readValue (refined span)).placeless = (readValue span).placeless := by
  have halone : readValue span = readSimple readers (refined span) (readConstruct readers) := by
    rw [readValue_of_long plain long (not_opensBlock_of_aheadOfBlock_ne_nil begins), readSimple,
      literal?_of_long long, notParens]
    rfl
  obtain ⟨t, rest, hspan, hk, ht⟩ := exists_of_aheadOfBlock_ne_nil begins
  rcases spread_reaches span with ⟨-, hreach⟩ | ⟨-, hflat⟩
  · rw [spread_eq_unnested] at hreach
    obtain ⟨more, hr⟩ := regroup_cons_eq (.token t) rest
    have hrefined : refined span = .token t :: more := by
      rw [refined, spread_eq_unnested, hspan, hr]
    have first : ∀ tree ∈ (refined span).head?, tree.hasKind .newline = false := by
      rw [hrefined]
      simpa [Tree.hasKind] using hk
    have hjoin := joinLines_token hk more
    have hflat := h.readFlat_eq hreach
    have hfree := breaksFreely_regroup h.lines
    rw [← spread_eq_unnested, ← refined] at hflat hfree
    have plain : ∀ tree ∈ .token t :: joinLines more, tree.hasKind .newline = false := by
      rw [← hjoin]
      exact fun tree hm => hasKind_newline_of_mem_joinLines hm
    rw [halone, ← hfree.readSimple_eq first, ← hflat first, ← readValue_joinLines, hrefined, hjoin,
      readValue_of_token plain ht]
  · have hne : (spread span).1 ≠ [] := by
      rw [spread_eq_unnested, hspan]
      exact List.cons_ne_nil _ _
    rw [halone, refined, hflat.readValue_regroup hne]

/-- An expression without a block is settled. -/
theorem IsBlockless.isSettled (h : IsBlockless span) : IsSettled (unnested span) := by
  have hunnested : unnested span =
      ((leaves span).filter (·.kind != .newline)).map Tree.token := by
    rw [← spread_eq_unnested, h.spread_eq]
  have hblockless : IsBlockless (unnested span) := by
    rw [hunnested, IsBlockless, leaves_map_token]
    exact fun t ht => h t (List.mem_of_mem_filter ht)
  refine ⟨?_, ?_, ?_⟩
  · rintro left opener inner closer after hs _ _ _ _ ⟨tree, hm, hopens⟩
    have hm : tree ∈ unnested span := by simp [hs, hm]
    rw [hunnested] at hm
    obtain ⟨t, ht, rfl⟩ := List.mem_map.mp hm
    rw [not_opensBlock_of_introducedBy? (h t (List.mem_of_mem_filter ht))] at hopens
    cases hopens
  · intro front last t after hs ht
    have hm : .token t ∈ regroup (unnested span) := outsideParens_subset_regroup (by simp [hs])
    have hm := mem_leaves_of_token_mem hm
    rw [leaves_regroup, hunnested, leaves_map_token, List.mem_filter] at hm
    simp [ht] at hm
  · intro callee opener arguments closer hs _ _ _ hblock
    rw [hs] at hblockless
    exact absurd hblockless.of_append hblock

/-- So it is steady, if there is a token in it and no parentheses are around it. -/
theorem IsBlockless.isSteady (h : IsBlockless span) (long : 2 ≤ (Offside.joinLines span).length)
    (notParens : inParens? (Offside.joinLines span) = none)
    (begins : ∃ t ∈ leaves (Offside.joinLines span), t.kind ≠ .newline) : IsSteady span := by
  obtain ⟨t, ht, hk⟩ := begins
  refine .compound long notParens (List.ne_nil_of_mem (a := t) ?_) h.joinLines.isSettled
  rw [h.joinLines.aheadOfBlock_eq]
  exact List.mem_filter.mpr ⟨ht, by simpa using hk⟩

/-- Refining a steady span does not change how it is read. -/
theorem IsSteady.readValue_refined (h : IsSteady span) :
    (readValue (refined (joinLines span))).placeless = (readValue span).placeless := by
  induction h with
  | @empty span lines =>
    rw [← readValue_joinLines span, lines, refined, spread, regroup]
  | @token span t lines =>
    have hk : t.kind ≠ .newline := by
      have hm : Tree.token t ∈ joinLines span := by simp [lines]
      simpa [Tree.hasKind] using hasKind_newline_of_mem_joinLines hm
    cases ht : BlockForm.introducedBy? t with
    | some form =>
      have holds : HoldsBlock span := .block lines (opensBlock_of_introducedBy? ht)
      rw [holds.joinLines.readValue_refined, readValue_joinLines]
    | none =>
      rw [← readValue_joinLines span, lines, refined, spread_cons_of_none hk ht, spread,
        regroup_single]
  | block holds => rw [holds.joinLines.readValue_refined, readValue_joinLines]
  | @group span items lines breaks inside ih =>
    have hsingle : readValue [.group items] = readValue items := readValue_congr (unwrap_group items)
    have hrefined : refined [.group items] = refined items := by rw [refined, spread_group, refined]
    rw [← readValue_joinLines span, lines, hrefined, breaks.readValue_refined, ih, hsingle]
  | @parens span items opener closer lines opens closes paired breaks inside ih =>
    have hinside : (readValue (refined items)).placeless = (readValue items).placeless := by
      rcases breaks with breaks | holds
      · rw [breaks.readValue_refined, ih]
      · rw [holds.readValue_refined]
    rw [← readValue_joinLines span, lines, refined_enclosed opens closes paired,
      readValue_parens opens closes, readValue_parens opens closes, hinside]
  | @compound span long notParens begins settled =>
    rw [← readValue_joinLines span]
    exact settled.readValue_refined (fun tree hm => hasKind_newline_of_mem_joinLines hm) long
      notParens begins

/-- A steady value means the same after `return` as alone, and is refused for the same reason. -/
theorem readValue_return {word : Token} (hw : word.kind = .returnWord) (h : IsSteady span) :
    (∀ v, readValue span = .ok v →
      readValue (.token word :: span) = .ok (.construct (.returning v))) ∧
      ∀ d, readValue span = .error d →
        ∃ d', readValue (.token word :: span) = .error d' ∧ d'.cause = d.cause := by
  obtain ⟨hok, herror⟩ := placeless_eq_iff.mp h.readValue_refined.symm
  have hreturn := readValue_return_refined hw span
  rw [Readers.valueAt] at hreturn
  rw [hreturn]
  refine ⟨fun v hv => ?_, fun d hd => ?_⟩
  · rw [show readers.value (refined (joinLines span)) = .ok v from hok v hv]
    rfl
  · obtain ⟨d', hd', hcause⟩ := herror d hd
    rw [show readers.value (refined (joinLines span)) = .error d' from hd']
    exact ⟨d'.orAt word.span.start, rfl, hcause⟩

/-- The value `a + f(do x) + b` with the operators at the beginning of lines of their own. -/
theorem readValue_return_inline_block :
    let word (kind : Kind) (text : String) : Token := ⟨kind, text, default⟩
    let returnWord : Token := word .returnWord "return"
    let lines : List Token := [word .newline "\n", word .operator "+", word .name "f",
      word .openParen "(", word .keyword "do", word .name "x", word .closeParen ")",
      word .newline "\n", word .operator "+", word .name "b"]
    let span : List Tree := [.token (word .name "a"), .group (lines.map .token)]
    let call : Value := .construct (.call (.literal (word .name "f"))
      [("0", .block (.sequence ⟨[], default⟩ [.literal (word .name "x")]))])
    let sum : Value := .construct (.operation [.operand (.literal (word .name "a")), .operand call,
      .operator (word .operator "+"), .operand (.literal (word .name "b")),
      .operator (word .operator "+")])
    IsSteady span ∧ readValue span = .ok sum ∧
      readValue (.token returnWord :: span) = .ok (.construct (.returning sum)) := by
  intro word returnWord lines span call sum
  have hunnested : unnested (joinLines span) = (word .name "a" :: lines.tail).map .token := by cbv
  have houtside : outsideParens ((word .name "a" :: lines.tail).map .token) =
      [word .name "a", word .operator "+", word .name "f", word .openParen "(",
        word .closeParen ")", word .newline "\n", word .operator "+", word .name "b"].map .token := by
    cbv
  have hsteady : IsSteady span := by
    refine .compound (by decide) rfl (by decide) ?_
    rw [hunnested]
    refine ⟨?_, ?_, ?_⟩
    · exact isTidyBehindParens_of_countP (by decide)
    · rw [houtside]
      have last : BreaksFreely [.token (word .operator "+"), .token (word .name "b")] :=
        .cons (breaksFreely_cons.mpr ⟨fun t after hs => (by cases hs), breaksFreely_nil⟩) rfl
      exact .cons (.cons (.cons (.cons (last.line (.ahead (by decide) rfl rfl)) rfl) rfl) rfl) rfl
    · intro callee opener arguments closer hs _ hc
      have hlast : some (Tree.token (word .name "b")) = some (.token closer) := by
        have h := congrArg List.getLast? hs
        rw [← List.cons_append, ← List.append_assoc, List.getLast?_concat] at h
        exact h
      rw [← Tree.token.inj (Option.some.inj hlast)] at hc
      cases hc
  have halone : readValue span = .ok sum := by cbv
  exact ⟨hsteady, halone, (readValue_return rfl hsteady).1 sum halone⟩

/-- The value `f(do x)()`: alone it is a call of what `f` gives, and behind `return` the second call
has a group for its argument. -/
theorem not_readValue_return :
    ¬∀ (word : Token) (span : List Tree), word.kind = .returnWord →
      (∀ v, readValue span = .ok v →
        readValue (.token word :: span) = .ok (.construct (.returning v))) ∧
      ∀ d, readValue span = .error d →
        ∃ d', readValue (.token word :: span) = .error d' ∧ d'.cause = d.cause := by
  intro h
  let word (kind : Kind) (text : String) : Token := ⟨kind, text, default⟩
  let returnWord : Token := word .returnWord "return"
  let span : List Tree := [word .name "f", word .openParen "(", word .keyword "do", word .name "x",
    word .closeParen ")", word .openParen "(", word .closeParen ")"].map .token
  have halone : readValue span = .ok (.construct (.call (.construct (.call
      (.literal (word .name "f")) [("0", .block (.sequence ⟨[], default⟩
        [.literal (word .name "x")]))])) [])) := by cbv
  have hreturned : readValue (.token returnWord :: span) = .error ⟨.noExpression, .unknown⟩ := by cbv
  cases hreturned.symm.trans ((h returnWord span rfl).1 _ halone)

end

end Offside
