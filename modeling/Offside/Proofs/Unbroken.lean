import Mathlib
import Offside.Proofs.ByteLexing
import Offside.Proofs.QueryDescent
import Offside.Proofs.TreeShape

namespace Offside

namespace Stepwise

/-- Reads a source step by step, with slices, indices, divisions and counters that can fail. -/
def readProgram (strategy : Strategy) (source : Source) : Run Block := do
  let tokens ← tokensOf strategy source
  let indented ← indent tokens
  programOf source (nest (lines indented))

end Stepwise

theorem length_place_le (source : Source) {kindOf? : List Char → Option Kind}
    (accepts : ∀ piece kind, kindOf? piece = some kind → IsPiece piece) (offset : Nat)
    (pieces : List (List Char)) :
    (place source kindOf? offset pieces).length ≤ byteLength pieces.flatten := by
  induction pieces generalizing offset with
  | nil => exact Nat.le_refl _
  | cons piece pieces ih =>
    have hrest := ih (offset + byteLength piece)
    rw [place, List.flatten_cons, byteLength_append]
    split
    next kind hk =>
      obtain ⟨c, text, rfl⟩ := List.exists_cons_of_ne_nil (accepts _ _ hk).ne_nil
      have hc := c.utf8Size_pos
      rw [byteLength_cons] at hrest ⊢
      rw [List.length_cons]
      omega
    next => omega

/-- A source has as many bytes as tokens, at least. -/
theorem length_tokensOf_le {strategy : Strategy} {source : Source} {tokens : List Token}
    (h : tokensOf strategy source = .ok tokens) :
    tokens.length ≤ byteLength source.text.toList := by
  obtain ⟨kindOf?, pieces, accepts, ⟨rest, hflat⟩, rfl⟩ := exists_pieces_of_tokensOf h
  have hplaced := length_place_le source accepts 0 pieces
  have hkept : (dropComments (place source kindOf? 0 pieces)).length ≤ _ :=
    List.length_filter_le _ _
  rw [← hflat, byteLength_append]
  omega

theorem text_length_pos_of_tokensOf {strategy : Strategy} {source : Source} {tokens : List Token}
    (h : tokensOf strategy source = .ok tokens) : ∀ t ∈ tokens, 0 < t.text.length := by
  intro t ht
  obtain ⟨k, -, -, -, hne⟩ := span_of_mem_tokensOf h ht
  rw [← String.length_toList]
  exact List.length_pos_iff.mpr hne

/-- The brackets of a tree are tokens of the source. -/
theorem bracketCount_nest_le {tokens indented : List Token} (hi : indent tokens = .ok indented) :
    bracketCount (nest (lines indented)) ≤ tokens.length := by
  have hmark : ∀ t : Token, t.kind.isBracket = true → (t.kind != .newline) = true := by
    intro t hb
    cases hk : t.kind
    case newline =>
      rw [hk] at hb
      cases hb
    all_goals rfl
  have hbrackets : bracketCount (nest (lines indented)) =
      ((leaves (nest (lines indented))).filter (·.kind != .newline)).countP (·.kind.isBracket) := by
    rw [List.countP_filter, bracketCount]
    refine List.countP_congr fun t _ => ?_
    rw [Bool.and_eq_true]
    exact ⟨fun hb => ⟨hb, hmark t hb⟩, And.left⟩
  rw [hbrackets, filter_leaves_nest, filter_indentFrom hi]
  exact List.countP_le_length.trans (List.length_filter_le _ _)

/-- A program that is not too long is read without a step that fails. Every slice and every index
is in range, no offset is inside a character, no indentation is divided by zero, and no counter
runs over, up to the program or the refusal that the reading ends with. -/
theorem readProgram_never_breaks_off {strategy : Strategy} {source : Source}
    (h : byteLength source.text.toList < 2 ^ 31) (outcome : Option (Outcome Block)) :
    Ends (some (2 ^ 31 - 1)) (Stepwise.readProgram strategy source) outcome ↔
      outcome = some (readProgram strategy source) := by
  suffices hends : Ends (some (2 ^ 31 - 1)) (Stepwise.readProgram strategy source)
      (some (readProgram strategy source)) from
    ⟨fun h' => h'.unique hends, fun he => he ▸ hends⟩
  rw [Stepwise.readProgram, Stepwise.tokensOf_eq, readProgram, treeOf]
  cases ht : tokensOf strategy source with
  | error d => exact .refused d
  | ok tokens =>
    rw [Run.ofOutcome, Run.bind_done, Stepwise.indent_eq (text_length_pos_of_tokensOf ht)]
    cases hi : indent tokens with
    | error d =>
      simp only [bind, Except.bind, hi]
      exact .refused d
    | ok indented =>
      have hcount := (bracketCount_nest_le hi).trans (length_tokensOf_le ht)
      simp only [bind, Except.bind, hi]
      exact Stepwise.ends_programOf source fun m hm => by
        obtain rfl := Option.mem_some.mp hm
        omega

/-- Brackets that are closed by no bracket or by one of another sort do no harm. -/
theorem readProgram_never_breaks_off_at_brackets :
    let source : Source := ⟨"", "do [k]\n  f((a, x: ]b)[0].c += \x7b(1, :\x7d =>\n )) - g(", 0⟩
    byteLength source.text.toList < 2 ^ 31 ∧
      ¬Ends (some (2 ^ 31 - 1)) (Stepwise.readProgram .classic source) none := by
  intro source
  have hsize : byteLength source.text.toList < 2 ^ 31 := by decide
  refine ⟨hsize, fun hends => ?_⟩
  cases (readProgram_never_breaks_off hsize none).mp hends

end Offside
