import Offside.Proofs.Descent

namespace Offside

/-- Whether no sort of bracket has been closed more often than opened. -/
def Depth.IsNonneg (depth : Depth) : Prop :=
  0 ≤ depth.parens ∧ 0 ≤ depth.brackets ∧ 0 ≤ depth.braces

instance (depth : Depth) : Decidable depth.IsNonneg :=
  inferInstanceAs (Decidable (_ ∧ _ ∧ _))

/-- Whether no bracket of a span closes one that is not open, sort by sort. -/
def NeverNegative (span : List Tree) : Prop :=
  ∀ item ∈ depths .top span, item.2.IsNonneg

instance (span : List Tree) : Decidable (NeverNegative span) :=
  inferInstanceAs (Decidable (∀ item ∈ depths .top span, item.2.IsNonneg))

/-- A count of a depth, with the brackets that change it. -/
structure Counts (level : Depth → Int) (opening closing : Kind) : Prop where
  top : level .top = 0
  after : ∀ depth tree, level (depth.after tree) = level depth +
    (if tree.hasKind opening then 1 else 0) - if tree.hasKind closing then 1 else 0

section

variable {level : Depth → Int} {opening closing : Kind} {kinds : List Kind} {span : List Tree}
  {depth : Depth}

theorem counts_brackets : Counts Depth.brackets .openBracket .closeBracket := by
  refine ⟨rfl, fun depth tree => ?_⟩
  cases tree with
  | group items => simp [Depth.after, Tree.hasKind]
  | token t => cases hk : t.kind <;> simp [Depth.after, Tree.hasKind, hk]

theorem counts_braces : Counts Depth.braces .openCurly .closeCurly := by
  refine ⟨rfl, fun depth tree => ?_⟩
  cases tree with
  | group items => simp [Depth.after, Tree.hasKind]
  | token t => cases hk : t.kind <;> simp [Depth.after, Tree.hasKind, hk]

theorem Counts.foldl (h : Counts level opening closing) (depth : Depth) (span : List Tree) :
    level (span.foldl Depth.after depth) = level depth + span.countP (·.hasKind opening) -
      span.countP (·.hasKind closing) := by
  induction span generalizing depth with
  | nil => simp
  | cons tree span ih =>
    rw [List.foldl_cons, ih, h.after, List.countP_cons, List.countP_cons]
    push_cast
    split <;> split <;> omega

theorem exists_of_mem_depths {item : Tree × Depth} (h : item ∈ depths depth span) :
    ∃ left right, span = left ++ item.1 :: right ∧
      item.2 = (left ++ [item.1]).foldl Depth.after depth := by
  induction span generalizing depth with
  | nil => cases h
  | cons tree span ih =>
    rcases List.mem_cons.mp h with rfl | h
    · exact ⟨[], span, rfl, rfl⟩
    · obtain ⟨left, right, rfl, hd⟩ := ih h
      exact ⟨tree :: left, right, rfl, hd⟩

/-- Where some bracket stays open nothing divides a span. -/
theorem Counts.isUndivided (h : Counts level opening closing)
    (open_ : ∀ left, left <+: span → left ≠ [] →
      left.countP (·.hasKind closing) < level depth + left.countP (·.hasKind opening)) :
    IsUndivided kinds depth span := by
  intro item hm
  obtain ⟨left, right, hspan, hd⟩ := exists_of_mem_depths hm
  cases hs : separator? kinds item with
  | none => rfl
  | some t =>
    have htop := (kind_of_separator? hs).2
    have hlevel := h.foldl depth (left ++ [item.1])
    rw [← hd, htop, h.top] at hlevel
    have hpositive := open_ (left ++ [item.1]) ⟨right, by simp [hspan]⟩ (by simp)
    omega

/-- A search from the right is one from the left with the brackets exchanged. -/
theorem Closes.of_reverse (h : Closes closing opening 0 span.reverse) :
    Closes opening closing 0 span := by
  have htotal := h.total
  rw [List.countP_reverse, List.countP_reverse] at htotal
  refine ⟨by omega, ?_⟩
  rintro left ⟨right, rfl⟩
  have hright := h.before right.reverse ⟨left.reverse, by simp⟩
  rw [List.countP_reverse, List.countP_reverse] at hright
  rw [List.countP_append, List.countP_append] at htotal
  omega

theorem Closes.isUndivided (h : Closes opening closing 0 span) (hl : Counts level opening closing)
    (hd : 0 < level depth) : IsUndivided kinds depth span := by
  refine hl.isUndivided fun left hleft _ => ?_
  have hle := h.before left hleft
  omega

theorem NeverNegative.foldl {left right : List Tree} (h : NeverNegative (left ++ right)) :
    (left.foldl Depth.after .top).IsNonneg := by
  obtain rfl | ⟨init, tree, rfl⟩ := List.eq_nil_or_concat left
  · decide
  · rw [List.concat_eq_append] at h ⊢
    refine h (tree, (init ++ [tree]).foldl Depth.after .top) ?_
    rw [depths_append, depths_append, List.foldl_append]
    exact List.mem_append_left _ (List.mem_append_right _ List.mem_cons_self)

end

end Offside
