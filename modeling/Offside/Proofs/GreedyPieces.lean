import Offside.Proofs.LongestMatch

namespace Offside

/-- Pieces that make up a text without gaps. Each is of some kind or a single character of none, and
is of no kind together with the character behind it. -/
structure IsScan (text : List Char) (pieces : List (List Char)) : Prop where
  gapless : pieces.flatten = text
  sorts : ∀ piece ∈ pieces, IsPiece piece ∨ ∃ c, piece = [c] ∧ ¬IsPiece piece
  maximal : ∀ before piece after c, pieces = before ++ piece :: after →
    after.flatten.head? = some c → ¬IsPiece (piece ++ [c])

/-- Each of consecutive pieces with the text before it. -/
def piecesAfter (before : List Char) : List (List Char) → List (List Char × List Char)
  | [] => []
  | piece :: pieces => (before, piece) :: piecesAfter (before ++ piece) pieces

/-- Whether a piece yields a token: it is of some kind and no comment. -/
def isKept (piece : List Char) : Bool :=
  (firstKind? piece).any (· != .comment)

/-- The token has the text and the first kind of a piece, and the place that the piece has after the
text before it. -/
structure Token.StandsFor (source : Source) (t : Token) (place : List Char × List Char) : Prop where
  kind : firstKind? place.2 = some t.kind
  text : t.text.toList = place.2
  span : t.span =
    ⟨.within source (byteLength place.1), .within source (byteLength (place.1 ++ place.2))⟩

section

variable {source : Source} {before piece text : List Char} {pieces : List (List Char)} {c : Char}

/-- A scan begins with any piece that cannot be extended by the first character behind it. -/
theorem IsScan.cons (h : IsScan text pieces) (hp : IsPiece piece ∨ ∃ c, piece = [c] ∧ ¬IsPiece piece)
    (hmax : ∀ c, text.head? = some c → ¬IsPiece (piece ++ [c])) :
    IsScan (piece ++ text) (piece :: pieces) := by
  refine ⟨?_, List.forall_mem_cons.mpr ⟨hp, h.sorts⟩, ?_⟩
  · have hflat := h.gapless
    simp [hflat]
  · intro before other after c hsplit hc
    cases before with
    | nil =>
      obtain ⟨rfl, rfl⟩ := List.cons.inj hsplit
      have hflat := h.gapless
      exact hmax c (hflat ▸ hc)
    | cons first before =>
      have hrest := (List.cons.inj hsplit).2
      exact h.maximal before other after c hrest hc

theorem isPiece_or_single (c : Char) : IsPiece [c] ∨ ∃ d, [c] = [d] ∧ ¬IsPiece [c] := by
  by_cases h : IsPiece [c]
  · exact Or.inl h
  · exact Or.inr ⟨c, rfl, h⟩

/-- What is at hand while scanning goes on as a scan, if it could be a piece of it. -/
theorem greedyFrom_isScan (piece text : List Char)
    (hp : IsPiece piece ∨ ∃ c, piece = [c] ∧ ¬IsPiece piece) :
    IsScan (piece ++ text) (greedyFrom piece text) := by
  fun_induction greedyFrom piece text with
  | case1 piece =>
    have hend : IsScan [] [] := ⟨rfl, by simp, by simp⟩
    exact hend.cons hp (by simp)
  | case2 piece c text hc ih =>
    have hpiece : IsPiece (piece ++ [c]) := firstKind?_isSome_iff.mp hc
    have hscan := ih (Or.inl hpiece)
    simpa using hscan
  | case3 piece c text hc ih =>
    have hscan := ih (isPiece_or_single c)
    apply hscan.cons hp
    intro d hd
    obtain rfl : c = d := by simpa using hd
    exact fun hpiece => hc (firstKind?_isSome_iff.mpr hpiece)

theorem greedy_isScan (text : List Char) : IsScan text (greedy text) := by
  cases text with
  | nil => exact ⟨rfl, by simp [greedy], by simp [greedy]⟩
  | cons c text => exact greedyFrom_isScan [c] text (isPiece_or_single c)

/-- The tokens of placed pieces, comments left out, stand for the pieces that are kept. -/
theorem standsFor_place (source : Source) (before : List Char) (pieces : List (List Char)) :
    List.Forall₂ (Token.StandsFor source)
      (dropComments (place source firstKind? (byteLength before) pieces))
      ((piecesAfter before pieces).filter (isKept ·.2)) := by
  induction pieces generalizing before with
  | nil => exact .nil
  | cons piece pieces ih =>
    have ih := ih (before ++ piece)
    rw [byteLength_append] at ih
    unfold place piecesAfter
    cases hk : firstKind? piece with
    | none =>
      have hskip : isKept piece = false := by simp [isKept, hk]
      simpa [List.filter_cons, hskip] using ih
    | some kind =>
      by_cases hc : kind = .comment
      · have hskip : isKept piece = false := by simp [isKept, hk, hc]
        simpa [List.filter_cons, dropComments, hskip, hc] using ih
      · have hkeep : isKept piece = true := by simp [isKept, hk, hc]
        have htoken : Token.StandsFor source
            ⟨kind, String.ofList piece, ⟨.within source (byteLength before),
              .within source (byteLength before + byteLength piece)⟩⟩ (before, piece) := by
          refine ⟨hk, String.toList_ofList, ?_⟩
          rw [byteLength_append]
        simpa [List.filter_cons, dropComments, hkeep, hc] using ⟨htoken, ih⟩

theorem exists_of_forall₂_of_mem {α β : Type} {r : α → β → Prop} {xs : List α} {ys : List β} {x : α}
    (h : List.Forall₂ r xs ys) (hx : x ∈ xs) : ∃ y ∈ ys, r x y := by
  induction h with
  | nil => cases hx
  | @cons x' y xs ys hr _ ih =>
    rcases List.mem_cons.mp hx with rfl | hx
    · exact ⟨y, by simp, hr⟩
    · obtain ⟨z, hz, hxz⟩ := ih hx
      exact ⟨z, by simp [hz], hxz⟩

theorem exists_of_mem_piecesAfter {place : List Char × List Char}
    (h : place ∈ piecesAfter before pieces) :
    ∃ after, before ++ pieces.flatten = place.1 ++ place.2 ++ after := by
  induction pieces generalizing before with
  | nil => cases h
  | cons piece pieces ih =>
    rcases List.mem_cons.mp h with rfl | h
    · exact ⟨pieces.flatten, by simp⟩
    · obtain ⟨after, hafter⟩ := ih h
      exact ⟨after, by simpa using hafter⟩

theorem Token.StandsFor.isSliceOf {t : Token} {place : List Char × List Char}
    (h : t.StandsFor source place) (hp : place ∈ piecesAfter [] pieces)
    (hs : pieces.flatten = source.text.toList) : t.IsSliceOf source := by
  obtain ⟨after, hafter⟩ := exists_of_mem_piecesAfter hp
  have hplace : source.text.toList = place.1 ++ place.2 ++ after := by
    rw [← hs]
    simpa using hafter
  refine ⟨_, _, h.span, ?_⟩
  rw [Source.slice_byteLength hplace]
  exact h.text

end

/-- Fast lexing drops comments and single characters of no kind, and nothing else. The text falls into
pieces of some kind and such characters, each of which ends where the next character would make it a
text of no kind; the tokens are those of the pieces that are no comments, in order, each with the first
kind that accepts it and with the text at its place. -/
theorem fastTokens_isScan (source : Source) :
    ∃ pieces, IsScan source.text.toList pieces ∧
      List.Forall₂ (Token.StandsFor source) (fastTokens source)
        ((piecesAfter [] pieces).filter (isKept ·.2)) ∧
      ∀ t ∈ fastTokens source, t.IsSliceOf source := by
  have hscan := greedy_isScan source.text.toList
  have htokens := standsFor_place source [] (greedy source.text.toList)
  refine ⟨greedy source.text.toList, hscan, htokens, ?_⟩
  intro t ht
  obtain ⟨place, hp, hstands⟩ := exists_of_forall₂_of_mem htokens ht
  exact hstands.isSliceOf (List.mem_filter.mp hp).1 hscan.gapless

end Offside
