import Offside.Proofs.Separation
import Offside.Proofs.TokenUse

namespace Offside

/-- The separators of a span in order. -/
def separators (kinds : List Kind) (span : List Tree) : List Token :=
  (depths .top span).filterMap (separator? kinds)

/-- Parts put together, with a token between each two of them. -/
def rejoin : List (List Tree) → List Token → List Tree
  | part :: parts, t :: tokens => part ++ .token t :: rejoin parts tokens
  | parts, _ => parts.flatten

section

variable {kinds : List Kind} {span left right part : List Tree} {t : Token}

theorem separators_eq (kinds : List Kind) (span : List Tree) :
    separators kinds span = (cut kinds span).2.map Prod.fst := by
  rw [separators, ← map_fst_sections, cut, List.map_map]
  rfl

/-- Behind a separator a span is cut as if it began there. -/
theorem cut_append_separator (hleft : IsUndivided kinds .top left)
    (ht : separator? kinds (.token t, (left.foldl Depth.after .top).after (.token t)) = some t) :
    cut kinds (left ++ .token t :: right) =
      (left, (t, (cut kinds right).1) :: (cut kinds right).2) := by
  have htop := (separator?_eq_some_iff.mp ht).2
  have hd : depths .top (left ++ .token t :: right) =
      depths .top left ++ (.token t, .top) :: depths .top right := by
    rw [depths_append, depths, htop]
  rw [htop] at ht
  rw [cut, hd, sections_append_plain hleft, sections, ht]
  simp [cut, map_fst_depths]

/-- Either nothing divides a span, or its first separator does. -/
theorem undivided_or_divided (kinds : List Kind) (span : List Tree) :
    IsUndivided kinds .top span ∨ ∃ left t right, span = left ++ .token t :: right ∧
      IsUndivided kinds .top left ∧
      separator? kinds (.token t, (left.foldl Depth.after .top).after (.token t)) = some t := by
  cases h : divide? kinds span with
  | none => exact .inl (divide?_eq_none_iff.mp h)
  | some parts =>
    obtain ⟨left, t, right⟩ := parts
    exact .inr ⟨left, t, right, divide?_eq_some_iff.mp h⟩

/-- Nothing divides the parts between separators when they are taken by themselves. -/
theorem isUndivided_of_mem_partsBetween (h : part ∈ partsBetween kinds span) :
    IsUndivided kinds .top part := by
  -- Every part but the first is one of the rest's, for the brackets are counted anew behind a
  -- separator.
  induction hn : span.length using Nat.strong_induction_on generalizing span with
  | _ n ih =>
    rcases undivided_or_divided kinds span with hspan | ⟨left, t, right, rfl, hleft, ht⟩
    · rw [partsBetween_of_plain hspan] at h
      rwa [List.mem_singleton.mp h]
    · rw [partsBetween, cut_append_separator hleft ht] at h
      rcases List.mem_cons.mp h with rfl | h
      · exact hleft
      · refine ih right.length ?_ h rfl
        rw [← hn, List.length_append, List.length_cons]
        omega

/-- A search for a separator ends where the first of several parts does. -/
theorem topIndex?_eq_some_iff {i : Nat} : topIndex? kinds span = some i ↔
    ∃ first second others, split kinds false span = first :: second :: others ∧
      first.length = i := by
  rcases undivided_or_divided kinds span with hspan | ⟨left, t, right, rfl, hleft, ht⟩
  · rw [topIndex?_eq_none_iff.mpr hspan, split, cut_of_isUndivided hspan]
    cases span with
    | nil => simp
    | cons tree span => simp
  · rw [topIndex?_append hleft ht, split_of_ne_nil (by simp), cut_append_separator hleft ht]
    simp

theorem rejoin_clauses (first : List Tree) (clauses : List (Token × List Tree)) :
    rejoin (first :: clauses.map Prod.snd) (clauses.map Prod.fst) =
      first ++ clauses.flatMap fun c => .token c.1 :: c.2 := by
  induction clauses generalizing first with
  | nil => simp [rejoin]
  | cons clause clauses ih =>
    rw [List.map_cons, List.map_cons, rejoin, ih, List.flatMap_cons, List.cons_append]

theorem split_keeping (h : span ≠ []) : split kinds true span =
    (cut kinds span).1 :: (cut kinds span).2.map fun c => .token c.1 :: c.2 := by
  rw [split, List.isEmpty_eq_false_iff.mpr h]
  rfl

/-- Searching a span for a separator and splitting it agree, and splitting can be undone, whether or
not the brackets of the span are balanced. -/
theorem split_agrees_with_search (kinds : List Kind) (span : List Tree) :
    (∀ i, topIndex? kinds span = some i ↔ ∃ first second others,
      split kinds false span = first :: second :: others ∧ first.length = i) ∧
    (∀ part ∈ split kinds false span, topIndex? kinds part = none) ∧
    (separators kinds span).length = (split kinds false span).length - 1 ∧
    rejoin (split kinds false span) (separators kinds span) = span ∧
    (split kinds true span).flatten = span ∧
    (∀ part ∈ (split kinds true span).tail, ∃ t rest, part = .token t :: rest ∧
      t.kind ∈ kinds) ∧
    split kinds false span =
      (split kinds true span).take 1 ++ (split kinds true span).tail.map List.tail := by
  refine ⟨fun i => topIndex?_eq_some_iff, fun part hm => topIndex?_eq_none_iff.mpr
    (isUndivided_of_mem_partsBetween (mem_partsBetween_of_mem_split hm)), ?_⟩
  by_cases he : span = []
  · subst he
    simp [separators, depths, split, rejoin]
  · rw [split_keeping he, split_of_ne_nil he, separators_eq]
    have hwhole := append_cut kinds span
    refine ⟨by simp, ?_, ?_, fun part hm => ?_, by simp⟩
    · rw [rejoin_clauses, hwhole]
    · rw [List.flatten_cons, ← List.flatMap_def, hwhole]
    · obtain ⟨c, hc, rfl⟩ := List.mem_map.mp hm
      exact ⟨c.1, c.2, rfl, kind_of_mem_cut hc⟩

/-- The span `( [ ) ] , a ) , ( , b`. -/
theorem split_agrees_with_search_interleaved :
    let mark (kind : Kind) (text : String) : Tree := .token ⟨kind, text, default⟩
    let comma : Tree := mark .comma ","
    let first : List Tree := [mark .openParen "(", mark .openBracket "[", mark .closeParen ")",
      mark .closeBracket "]"]
    let second : List Tree := [mark .name "a", mark .closeParen ")", comma, mark .openParen "("]
    let third : List Tree := [mark .name "b"]
    let span : List Tree := first ++ comma :: (second ++ comma :: third)
    split [.comma] false span = [first, second, third] ∧ topIndex? [.comma] span = some 4 ∧
      topIndex? [.comma] second = none ∧
      rejoin [first, second, third] (separators [.comma] span) = span ∧
      (split [.comma] true span).flatten = span := by
  intro mark comma first second third span
  obtain ⟨hindex, hparts, -, hrejoin, hkept, -⟩ := split_agrees_with_search [.comma] span
  have hsplit : split [.comma] false span = [first, second, third] := rfl
  refine ⟨hsplit, (hindex 4).mpr ⟨first, second, [third], hsplit, rfl⟩, ?_, ?_, hkept⟩
  · exact hparts second (by rw [hsplit]; simp)
  · rwa [hsplit] at hrejoin

end

end Offside
