import Offside.Proofs.Unnesting
import Offside.Proofs.Subjects

namespace Offside

/-- Whether a line may end with an item and the next one begin with what follows: next to an operator
or a bracket, ahead of a dot behind brackets, or behind a comma ahead of a label. -/
inductive MayBreak : Tree → List Tree → Prop where
  | ahead {last next : Tree} {span : List Tree} (held : last.leaves ≠ [])
    (ends : last.hasKindIn [.newline, .operator, .comma, .openCurly] = false)
    (begins : next.hasKindIn
      [.operator, .assignment, .openBracket, .closeBracket, .closeCurly] = true) :
    MayBreak last (next :: span)
  | behind {last next : Tree} {span : List Tree}
    (ends : last.hasKindIn [.operator, .assignment, .arrow, .colon, .openBracket] = true)
    (begins : next.hasKindIn [.newline, .operator] = false) : MayBreak last (next :: span)
  | link {last next : Tree} {span : List Tree}
    (ends : last.hasKindIn [.closeParen, .closeBracket, .closeCurly] = true)
    (begins : next.hasKind .dot = true) : MayBreak last (next :: span)
  | label {last colon : Tree} {label : Token} {span : List Tree} (ends : last.hasKind .comma = true)
    (value : label.kind.isValue = true) (labels : colon.hasKind .colon = true) :
    MayBreak last (.token label :: colon :: span)

/-- Whether each line of a span may end where it does. -/
def BreaksFreely (span : List Tree) : Prop :=
  ∀ front last t after, span = front ++ last :: .token t :: after → t.kind = .newline →
    MayBreak last after

section

variable {span left right part front after : List Tree} {tree last next : Tree} {t : Token}
  {kinds : List Kind}

theorem hasKind_eq_false_of_hasKindIn {kind : Kind} (hk : kind ∈ kinds)
    (h : tree.hasKindIn kinds = false) : tree.hasKind kind = false := by
  cases tree with
  | group items => rfl
  | token t =>
    have ht : t.kind ∉ kinds := by simpa [Tree.hasKindIn, Token.hasKindIn] using h
    exact beq_false_of_ne fun he => ht (he ▸ hk)

theorem MayBreak.not_newline (h : MayBreak last (next :: span)) :
    next.hasKind .newline = false := by
  cases h with
  | ahead held ends begins =>
    cases next with
    | group items => rfl
    | token t =>
      by_contra hk
      simp_all [Tree.hasKind, Tree.hasKindIn, Token.hasKindIn]
  | behind ends begins => exact hasKind_eq_false_of_hasKindIn (by decide) begins
  | link ends begins => exact hasKind_eq_false (by decide) begins
  | label ends value labels =>
    refine beq_false_of_ne fun hk => ?_
    rw [hk] at value
    cases value

theorem MayBreak.leaves_ne_nil (h : MayBreak last span) : last.leaves ≠ [] := by
  have token : ∀ {kinds : List Kind} {tree : Tree}, tree.hasKindIn kinds = true →
      tree.leaves ≠ [] := by
    intro kinds tree hk
    cases tree with
    | group items => cases hk
    | token t => exact List.cons_ne_nil _ _
  cases h with
  | ahead held ends begins => exact held
  | behind ends begins => exact token ends
  | link ends begins => exact token ends
  | label ends value labels =>
    obtain ⟨t, rfl, -⟩ := token_of_hasKind ends
    exact List.cons_ne_nil _ _

theorem breaksFreely_nil : BreaksFreely [] := by
  intro front last t after hs
  cases front <;> cases hs

theorem breaksFreely_cons : BreaksFreely (tree :: span) ↔
    (∀ t after, span = .token t :: after → t.kind = .newline → MayBreak tree after) ∧
      BreaksFreely span := by
  constructor
  · intro h
    refine ⟨fun t after hs => h [] tree t after (by rw [hs]; rfl), ?_⟩
    intro front last t after hs
    exact h (tree :: front) last t after (by rw [hs]; rfl)
  · rintro ⟨hfirst, hrest⟩ front last t after hs ht
    cases front with
    | nil =>
      obtain ⟨rfl, hspan⟩ := List.cons.inj hs
      exact hfirst t after hspan ht
    | cons first front => exact hrest front last t after (List.cons.inj hs).2 ht

theorem BreaksFreely.cons (h : BreaksFreely (next :: span)) (hk : next.hasKind .newline = false) :
    BreaksFreely (tree :: next :: span) := by
  refine breaksFreely_cons.mpr ⟨fun t after hs ht => ?_, h⟩
  rw [(List.cons.inj hs).1] at hk
  simp [Tree.hasKind, ht] at hk

theorem BreaksFreely.line (h : BreaksFreely span) (hbreak : MayBreak tree span) :
    BreaksFreely (tree :: .token t :: span) := by
  refine breaksFreely_cons.mpr ⟨fun u after hs _ => (List.cons.inj hs).2 ▸ hbreak,
    breaksFreely_cons.mpr ⟨fun u after hs hu => ?_, h⟩⟩
  have hk := (hs ▸ hbreak).not_newline
  simp [Tree.hasKind, hu] at hk

theorem BreaksFreely.leaves_ne_nil (h : BreaksFreely (left ++ part ++ right)) :
    ∀ front last t after, part = front ++ last :: .token t :: after → t.kind = .newline →
      last.leaves ≠ [] := by
  intro front last t after hs ht
  refine (h (left ++ front) last t (after ++ right) ?_ ht).leaves_ne_nil
  rw [hs]
  simp

/-- What is in a span once its lines are joined stands in it. -/
theorem exists_of_joinLines_eq {xs ys : List Tree} (h : joinLines span = xs ++ tree :: ys) :
    ∃ front back, span = front ++ tree :: back ∧ joinLines front = xs ∧ joinLines back = ys := by
  obtain ⟨front, back, rfl, hfront, hback⟩ := List.filter_eq_append_iff.mp h
  obtain ⟨lines, rest, rfl, hlines, -, hrest⟩ := List.filter_eq_cons_iff.mp hback
  refine ⟨front ++ lines, rest, by simp, ?_, hrest⟩
  rw [joinLines, List.filter_append, hfront, List.filter_eq_nil_iff.mpr hlines, List.append_nil]

/-- Where no line may end, none does. -/
theorem BreaksFreely.eq_nil {lines : List Tree}
    (h : BreaksFreely (front ++ tree :: (lines ++ after))) (hlines : joinLines lines = [])
    (hbreak : ¬MayBreak tree after) : lines = [] := by
  cases lines with
  | nil => rfl
  | cons first lines =>
    obtain ⟨hfirst, hothers⟩ : first.hasKind .newline = true ∧
        ∀ tree ∈ lines, tree.hasKind .newline = true := by
      simpa [joinLines, List.filter_eq_nil_iff] using hlines
    obtain ⟨t, rfl, ht⟩ := token_of_hasKind hfirst
    have hmay := h front tree t (lines ++ after) rfl ht
    cases lines with
    | nil => exact absurd hmay hbreak
    | cons next lines => cases (hothers next List.mem_cons_self).symm.trans hmay.not_newline

theorem firstLeaf?_joinLines
    (held : ∀ front last t after, span = front ++ last :: .token t :: after → t.kind = .newline →
      last.leaves ≠ [])
    (first : ∀ tree ∈ span.head?, tree.hasKind .newline = false) :
    firstLeaf? (joinLines span) = firstLeaf? span := by
  induction span with
  | nil => rfl
  | cons tree span ih =>
    rw [joinLines_cons (first tree rfl), firstLeaf?, firstLeaf?, leaves, leaves,
      List.head?_append, List.head?_append]
    cases hleaves : tree.leaves with
    | cons t rest => rfl
    | nil =>
      refine ih (fun front last t after hs => held (tree :: front) last t after (by rw [hs]; rfl)) ?_
      intro next hnext
      obtain ⟨rest, rfl⟩ := List.head?_eq_some_iff.mp hnext
      by_contra hk
      obtain ⟨t, rfl, ht⟩ := token_of_hasKind (by simpa using hk)
      exact held [] tree t rest rfl ht hleaves

theorem origin_joinLines
    (held : ∀ front last t after, span = front ++ last :: .token t :: after → t.kind = .newline →
      last.leaves ≠ [])
    (first : ∀ tree ∈ span.head?, tree.hasKind .newline = false) :
    origin (joinLines span) = origin span := by
  rw [origin, origin, firstLeaf?_joinLines held first]

theorem isEmpty_joinLines (first : ∀ tree ∈ span.head?, tree.hasKind .newline = false) :
    (joinLines span).isEmpty = span.isEmpty := by
  cases span with
  | nil => rfl
  | cons tree span => rw [joinLines_cons (first tree rfl)]; rfl

/-- Where a part stands that follows a separator. -/
theorem exists_of_mem_cut {c : Token × List Tree} (h : c ∈ (cut kinds span).2) :
    ∃ before after, span = before ++ .token c.1 :: (c.2 ++ after) ∧
      ∀ next ∈ after.head?, next.hasKindIn kinds = true := by
  obtain ⟨earlier, later, hclauses⟩ := List.append_of_mem h
  refine ⟨(cut kinds span).1 ++ earlier.flatMap fun c => .token c.1 :: c.2,
    later.flatMap fun c => .token c.1 :: c.2, ?_, ?_⟩
  · have hspan := append_cut kinds span
    rw [hclauses] at hspan
    simpa using hspan.symm
  · intro next hnext
    cases later with
    | nil => cases hnext
    | cons d later =>
      obtain rfl := Option.some.inj hnext
      have hd : d.1.kind ∈ kinds := kind_of_mem_cut (by rw [hclauses]; simp)
      simpa [Tree.hasKindIn, Token.hasKindIn] using hd

theorem MayBreak.of_operator (h : MayBreak (.token t) span) (ht : t.kind = .operator) :
    ∃ next rest, span = next :: rest ∧ next.hasKindIn [.newline, .operator] = false := by
  cases h with
  | ahead held ends => simp [Tree.hasKindIn, Token.hasKindIn, ht] at ends
  | behind ends begins => exact ⟨_, _, rfl, begins⟩
  | link ends => simp [Tree.hasKindIn, Token.hasKindIn, ht] at ends
  | label ends => simp [Tree.hasKind, ht] at ends

theorem MayBreak.of_comma (h : MayBreak (.token t) span) (ht : t.kind = .comma) :
    ∃ label colon rest, span = .token label :: colon :: rest ∧ label.kind.isValue = true ∧
      colon.hasKind .colon = true := by
  cases h with
  | ahead held ends => simp [Tree.hasKindIn, Token.hasKindIn, ht] at ends
  | behind ends => simp [Tree.hasKindIn, Token.hasKindIn, ht] at ends
  | link ends => simp [Tree.hasKindIn, Token.hasKindIn, ht] at ends
  | label ends value labels => exact ⟨_, _, _, rfl, value, labels⟩

theorem not_mayBreak_of_openCurly (ht : t.kind = .openCurly) : ¬MayBreak (.token t) span := by
  intro h
  cases h with
  | ahead held ends => simp [Tree.hasKindIn, Token.hasKindIn, ht] at ends
  | behind ends => simp [Tree.hasKindIn, Token.hasKindIn, ht] at ends
  | link ends => simp [Tree.hasKindIn, Token.hasKindIn, ht] at ends
  | label ends => simp [Tree.hasKind, ht] at ends

end

section

variable {span : List Tree}

/-- An operand that joins to nothing is empty. -/
theorem BreaksFreely.isEmpty_operand (h : BreaksFreely span) {c : Token × List Tree}
    (hc : c ∈ (cut [.operator] span).2) : (joinLines c.2).isEmpty = c.2.isEmpty := by
  obtain ⟨before, after, hspan, hafter⟩ := exists_of_mem_cut hc
  obtain ⟨t, operand⟩ := c
  dsimp only at hspan ⊢
  cases operand with
  | nil => rfl
  | cons tree operand =>
    cases hk : tree.hasKind .newline with
    | false => rw [joinLines_cons hk]; rfl
    | true =>
      obtain ⟨u, rfl, hu⟩ := token_of_hasKind hk
      obtain ⟨next, rest, hrest, hnext⟩ := (h before (.token t) u (operand ++ after) hspan hu).of_operator
        (List.mem_singleton.mp (kind_of_mem_cut hc))
      cases operand with
      | nil =>
        have hoperator := hafter next (by rw [← List.nil_append after, hrest]; rfl)
        cases next with
        | group items => cases hoperator
        | token u => simp_all [Tree.hasKindIn, Token.hasKindIn]
      | cons first operand =>
        obtain rfl := (List.cons.inj hrest).1
        have hfirst : first.hasKind .newline = false :=
          hasKind_eq_false_of_hasKindIn (by decide) hnext
        rw [joinLines_cons_of_newline hk, joinLines_cons hfirst]
        rfl

/-- A label and its colon come ahead of what ends the entry. -/
theorem exists_of_append_label {rest after more : List Tree} {label colon : Token}
    (h : rest ++ after = .token label :: .token colon :: more) (hvalue : label.kind.isValue = true)
    (hk : colon.kind = .colon)
    (hafter : ∀ next ∈ after.head?, next.hasKindIn [.comma, .closeCurly] = true) :
    ∃ tail, rest = .token label :: .token colon :: tail := by
  match rest with
  | [] =>
    have hspan : after = .token label :: .token colon :: more := h
    have hlabel := hafter (.token label) (by rw [hspan]; rfl)
    have hlabel : label.kind = .comma ∨ label.kind = .closeCurly := by
      simpa [Tree.hasKindIn, Token.hasKindIn] using hlabel
    rcases hlabel with he | he <;> rw [he] at hvalue <;> cases hvalue
  | [_] =>
    have hspan : after = .token colon :: more := (List.cons.inj h).2
    have hcolon := hafter (.token colon) (by rw [hspan]; rfl)
    simp [Tree.hasKindIn, Token.hasKindIn, hk] at hcolon
  | _ :: _ :: tail =>
    obtain ⟨rfl, htail⟩ := List.cons.inj h
    obtain ⟨rfl, -⟩ := List.cons.inj htail
    exact ⟨tail, rfl⟩

/-- An entry keeps its key when its lines are joined: it has a label if it begins on a line of its
own. -/
theorem BreaksFreely.origin_entry {opener closer : Token} {c : Token × List Tree}
    (h : BreaksFreely (.token opener :: (span ++ [.token closer]))) (hc : closer.kind = .closeCurly)
    (hm : c ∈ (cut [.comma] span).2) :
    origin (joinLines c.2) = origin c.2 ∨ divide? [.colon] c.2 ≠ none := by
  obtain ⟨before, after, hspan, hafter⟩ := exists_of_mem_cut hm
  obtain ⟨t, part⟩ := c
  dsimp only at hspan ⊢
  rw [hspan] at h
  have held := @BreaksFreely.leaves_ne_nil (.token opener :: before ++ [.token t])
    (after ++ [.token closer]) part (by simpa using h)
  by_cases hfirst : ∀ tree ∈ part.head?, tree.hasKind .newline = false
  · exact .inl (origin_joinLines held hfirst)
  · obtain ⟨u, rest, rfl, hu⟩ : ∃ u rest, part = .token u :: rest ∧ u.kind = .newline := by
      simp only [not_forall, Bool.not_eq_false] at hfirst
      obtain ⟨tree, htree, hk⟩ := hfirst
      obtain ⟨rest, rfl⟩ := List.head?_eq_some_iff.mp htree
      obtain ⟨u, rfl, hu⟩ := token_of_hasKind hk
      exact ⟨u, rest, rfl, hu⟩
    obtain ⟨label, colon, more, hrest, hvalue, hcolon⟩ :=
      (h (.token opener :: before) (.token t) u (rest ++ (after ++ [.token closer])) (by simp) hu).of_comma
        (List.mem_singleton.mp (kind_of_mem_cut hm))
    obtain ⟨colon, rfl, hk⟩ := token_of_hasKind hcolon
    obtain ⟨tail, rfl⟩ := exists_of_append_label hrest hvalue hk fun next hnext => by
      cases after with
      | nil =>
        obtain rfl := Option.some.inj hnext
        simp [Tree.hasKindIn, Token.hasKindIn, hc]
      | cons first after =>
        obtain rfl := Option.some.inj hnext
        have hcomma := hafter first rfl
        cases first with
        | group items => cases hcomma
        | token v => simp_all [Tree.hasKindIn, Token.hasKindIn]
    right
    intro hnone
    have hjoin := @divide?_joinLines [.colon] (by decide)
      (.token u :: .token label :: .token colon :: tail)
    have hlabel : label.kind ≠ .newline := fun he => by rw [he] at hvalue; cases hvalue
    rw [hnone, joinLines_cons_of_newline (by simp [Tree.hasKind, hu]), joinLines_token hlabel,
      joinLines_token (by simp [hk]), divide?_behind_value hvalue (by decide) (by simp [hk])
        (by simp [Depth.after, hk])] at hjoin
    cases hjoin

end

section

variable {span left right : List Tree} {last : Tree} {arrow : Token}

theorem kind_of_hasKindIn {tree : Tree} {kinds : List Kind} (h : tree.hasKindIn kinds = true) :
    ∃ t, tree = .token t ∧ t.kind ∈ kinds := by
  cases tree with
  | group items => cases h
  | token t => exact ⟨t, rfl, by simpa [Tree.hasKindIn, Token.hasKindIn] using h⟩

theorem not_newline_of_append
    (h : ∀ tree ∈ (left ++ right).head?, tree.hasKind .newline = false) :
    ∀ tree ∈ left.head?, tree.hasKind .newline = false := by
  intro tree htree
  obtain ⟨rest, rfl⟩ := List.head?_eq_some_iff.mp htree
  exact h tree rfl

/-- No line ends between the names and dots of a chain. -/
theorem MayBreak.exists_not_accessor (h : MayBreak last span) : ∃ t,
    (last = .token t ∨ .token t ∈ span) ∧ t.kind.isValue = false ∧ t.kind ∉ [.dot, .newline] := by
  cases h with
  | ahead held ends begins =>
    obtain ⟨t, rfl, ht⟩ := kind_of_hasKindIn begins
    refine ⟨t, .inr List.mem_cons_self, ?_⟩
    revert ht
    cases t.kind <;> decide
  | behind ends begins =>
    obtain ⟨t, rfl, ht⟩ := kind_of_hasKindIn ends
    refine ⟨t, .inl rfl, ?_⟩
    revert ht
    cases t.kind <;> decide
  | link ends begins =>
    obtain ⟨t, rfl, ht⟩ := kind_of_hasKindIn ends
    refine ⟨t, .inl rfl, ?_⟩
    revert ht
    cases t.kind <;> decide
  | label ends value labels =>
    obtain ⟨t, rfl, ht⟩ := token_of_hasKind labels
    exact ⟨t, .inr (List.mem_cons_of_mem _ List.mem_cons_self), by simp [ht, Kind.isValue], by simp [ht]⟩

/-- Nor between the parameters of a lambda. -/
theorem MayBreak.exists_not_parameter (h : MayBreak last (left ++ .token arrow :: right))
    (ha : arrow.kind = .arrow) : ∃ t, (last = .token t ∨ .token t ∈ left) ∧
      t.kind ∉ [.name, .comma, .openParen, .closeParen] ∧ t.kind ≠ .newline := by
  generalize hspan : left ++ Tree.token arrow :: right = span at h
  cases h with
  | ahead held ends begins =>
    obtain ⟨t, rfl, ht⟩ := kind_of_hasKindIn begins
    cases left with
    | nil =>
      rw [← Tree.token.inj (List.cons.inj hspan).1, ha] at ht
      simp at ht
    | cons next left =>
      obtain ⟨rfl, -⟩ := List.cons.inj hspan
      refine ⟨t, .inr List.mem_cons_self, ?_⟩
      revert ht
      cases t.kind <;> decide
  | behind ends begins =>
    obtain ⟨t, rfl, ht⟩ := kind_of_hasKindIn ends
    refine ⟨t, .inl rfl, ?_⟩
    revert ht
    cases t.kind <;> decide
  | link ends begins =>
    obtain ⟨t, rfl, ht⟩ := token_of_hasKind begins
    cases left with
    | nil =>
      rw [← Tree.token.inj (List.cons.inj hspan).1, ha] at ht
      cases ht
    | cons next left =>
      obtain ⟨rfl, -⟩ := List.cons.inj hspan
      exact ⟨t, .inr List.mem_cons_self, by simp [ht], by simp [ht]⟩
  | label ends value labels =>
    obtain ⟨t, rfl, ht⟩ := token_of_hasKind labels
    match left with
    | [] =>
      rw [← Tree.token.inj (List.cons.inj hspan).1, ha] at value
      cases value
    | [_] =>
      rw [← Tree.token.inj (List.cons.inj (List.cons.inj hspan).2).1, ha] at ht
      cases ht
    | _ :: next :: left =>
      obtain ⟨rfl, -⟩ := List.cons.inj (List.cons.inj hspan).2
      exact ⟨t, .inr (List.mem_cons_of_mem _ List.mem_cons_self), by simp [ht], by simp [ht]⟩

theorem not_mayBreak_of_openParen {opener : Token} {items : List Tree}
    (ho : opener.kind = .openParen) : ¬MayBreak (.token opener) (.group items :: span) := by
  intro h
  cases h with
  | ahead held ends begins => cases begins
  | behind ends => simp [Tree.hasKindIn, Token.hasKindIn, ho] at ends
  | link ends begins => cases begins

theorem not_mayBreak_of_closeParen {closer : Token} {items : List Tree}
    (hc : closer.kind = .closeParen) : ¬MayBreak (.group items) (.token closer :: span) := by
  intro h
  cases h with
  | ahead held ends begins => simp [Tree.hasKindIn, Token.hasKindIn, hc] at begins
  | behind ends => cases ends
  | link ends => cases ends
  | label ends => cases ends

theorem exists_newline (h : ¬∀ tree ∈ span, tree.hasKind .newline = false) :
    ∃ t left right, span = left ++ .token t :: right ∧ t.kind = .newline := by
  simp only [not_forall, Bool.not_eq_false] at h
  obtain ⟨tree, hm, hk⟩ := h
  obtain ⟨t, rfl, ht⟩ := token_of_hasKind hk
  obtain ⟨left, right, rfl⟩ := List.append_of_mem hm
  exact ⟨t, left, right, rfl, ht⟩

theorem not_mayBreak_nil : ¬MayBreak last [] := by
  intro h
  cases h

end

section

variable {span : List Tree} {tree : Tree}

theorem MayBreak.regroup (h : MayBreak tree (outsideParens span)) : MayBreak tree (regroup span) := by
  cases span with
  | nil => cases h
  | cons next span =>
    obtain ⟨outside, houtside⟩ := outsideParens_cons_eq next span
    obtain ⟨rest, hrest⟩ := regroup_cons_eq next span
    rw [houtside] at h
    rw [hrest]
    cases h with
    | ahead held ends begins => exact .ahead held ends begins
    | behind ends begins => exact .behind ends begins
    | link ends begins => exact .link ends begins
    | @label colon label _ ends value labels =>
      obtain ⟨ho, hk⟩ : label.kind ≠ .openParen ∧ label.kind ≠ .keyword := by
        constructor <;> intro he <;> rw [he] at value <;> cases value
      have hopens : BlockForm.introducedBy? label = none := introducedBy?_eq_none hk
      rw [outsideParens_cons (by simpa [Tree.hasKind] using ho)
        (not_opensBlock_of_introducedBy? hopens)] at houtside
      rw [regroup_cons_of_none ho hopens] at hrest
      cases span with
      | nil => cases (List.cons.inj houtside).2
      | cons first span =>
        obtain ⟨outside, hfirst⟩ := outsideParens_cons_eq first span
        obtain ⟨more, hmore⟩ := regroup_cons_eq first span
        obtain rfl := (List.cons.inj (hfirst.symm.trans (List.cons.inj houtside).2)).1
        rw [← (List.cons.inj hrest).2, hmore]
        exact .label ends value labels

/-- Grouping the parentheses puts no line break where there was none outside of them. -/
theorem breaksFreely_regroup (h : BreaksFreely (outsideParens span)) :
    BreaksFreely (regroup span) := by
  fun_induction regroup span with
  | case1 => exact breaksFreely_nil
  | case2 tree span opens => rwa [outsideParens_of_opensBlock opens] at h
  | case3 tree span _ ho i hi ihinner ih =>
    obtain ⟨inner, closer, rest, rfl, rfl, hc, hinner⟩ := isPaired_of_closerIndex? hi
    rw [List.take_left, List.drop_left] at *
    rw [outsideParens_enclosed ho hc hinner] at h
    have ih := ih (breaksFreely_cons.mp h).2
    rw [regroup_cons_of_none (by simp [hc]) (introducedBy?_eq_none (by simp [hc]))] at ih ⊢
    refine breaksFreely_cons.mpr ⟨fun t after hs => (by cases hs),
      breaksFreely_cons.mpr ⟨fun t after hs ht => ?_, ih⟩⟩
    obtain rfl := Tree.token.inj (List.cons.inj hs).1
    simp [hc] at ht
  | case4 tree span _ _ _ _ =>
    exact breaksFreely_cons.mpr ⟨fun t after hs => (by cases hs), breaksFreely_nil⟩
  | case5 tree span _ _ _ _ ih =>
    refine breaksFreely_cons.mpr ⟨fun t after hs => (by cases hs), ?_⟩
    exact breaksFreely_cons.mpr ⟨fun t after hs => (by cases hs), breaksFreely_nil⟩
  | case6 tree span opens ho ih =>
    rw [outsideParens_cons (by simpa using ho) (by simpa using opens)] at h
    obtain ⟨hfirst, hrest⟩ := breaksFreely_cons.mp h
    refine breaksFreely_cons.mpr ⟨fun t after hs ht => ?_, ih hrest⟩
    cases span with
    | nil => simp [Offside.regroup] at hs
    | cons next span =>
      obtain ⟨rest, hr⟩ := regroup_cons_eq next span
      obtain rfl : next = .token t := by
        rw [hr] at hs
        exact (List.cons.inj hs).1
      have hopens : BlockForm.introducedBy? t = none := introducedBy?_eq_none (by simp [ht])
      rw [regroup_cons_of_none (by simp [ht]) hopens] at hs
      rw [← (List.cons.inj hs).2]
      refine (hfirst t (outsideParens span) ?_ ht).regroup
      exact outsideParens_cons (by simp [Tree.hasKind, ht]) (not_opensBlock_of_introducedBy? hopens) span

end

end Offside
