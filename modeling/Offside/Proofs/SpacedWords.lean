import Offside.Proofs.IdleLines

namespace Offside

/-- The text of some words with a blank between neighbours. -/
def spacedText (words : List (Kind × String)) : String :=
  " ".intercalate (words.map Prod.snd)

/-- The token of a word that is printed behind a text. -/
def tokenBehind (source : Source) (before : List Char) (word : Kind × String) : Token :=
  ⟨word.1, word.2, ⟨.within source (byteLength before),
    .within source (byteLength (before ++ word.2.toList))⟩⟩

/-- The tokens of words that are printed behind a text with a blank between neighbours, and of
those blanks. -/
def spacedTokens (source : Source) (before : List Char) : List (Kind × String) → List Token
  | [] => []
  | [word] => [tokenBehind source before word]
  | word :: next :: words =>
    tokenBehind source before word ::
      tokenBehind source (before ++ word.2.toList) (.whitespace, " ") ::
      spacedTokens source (before ++ word.2.toList ++ [' ']) (next :: words)

/-- Whether a word is lexed as the kind it has, and is seen: neither whitespace nor a comment. -/
structure IsSeen (word : Kind × String) : Prop where
  kind : firstKind? word.2.toList = some word.1
  notWhitespace : word.1 ≠ .whitespace
  notComment : word.1 ≠ .comment

/-- The mark that ends a quotation ends it for good. -/
theorem not_closesQuote_append {mark : Char} {text more : List Char} (hm : mark ≠ '\\')
    (h : closesQuote mark text = true) (hne : more ≠ []) :
    closesQuote mark (text ++ more) = false := by
  fun_induction closesQuote mark text with
  | case1 => cases h
  | case2 c =>
    obtain rfl : c = mark := by simpa using h
    obtain ⟨d, more, rfl⟩ := List.exists_cons_of_ne_nil hne
    simp [closesQuote, hm]
  | case3 c text ih =>
    have hrest := (Bool.and_eq_true_iff.mp h).2
    simp [closesQuote, ih hrest]
  | case4 c text hone hescape ih =>
    simp only [Bool.and_eq_true] at h
    obtain ⟨⟨⟨hmark, hback⟩, hbreak⟩, hrest⟩ := h
    obtain ⟨d, text, rfl⟩ := List.exists_cons_of_ne_nil hone
    have hback : c ≠ '\\' := by simpa using hback
    rw [List.cons_append, List.cons_append, closesQuote, ← List.cons_append, ih hrest,
      Bool.and_false]
    · exact List.cons_ne_nil _ _
    · exact fun _ _ hc => absurd hc hback

section

variable {word : Kind × String} {rest : List Char}

theorem IsSeen.accepts (h : IsSeen word) : word.1.accepts word.2.toList = true :=
  accepts_of_firstKind? h.kind

theorem IsSeen.isPiece (h : IsSeen word) : IsPiece word.2.toList :=
  ⟨_, h.accepts⟩

theorem IsSeen.head_not_spacing (h : IsSeen word) :
    ∀ c ∈ word.2.toList.head?, isSpacing c = false := by
  intro c hc
  obtain ⟨text, ht⟩ := List.head?_eq_some_iff.mp hc
  have ha := h.accepts
  rw [ht] at ha
  by_contra hs
  exact h.notWhitespace (kind_of_head_spacing (by simpa using hs) ha)

/-- A text with a blank in it is a quotation, if it begins with a word that is seen. -/
theorem IsSeen.string_of_blank (h : IsSeen word) {kind : Kind} {more : List Char}
    (ha : kind.accepts (word.2.toList ++ ' ' :: more) = true) : kind = .string := by
  obtain ⟨c, text, ht⟩ := List.exists_cons_of_ne_nil h.isPiece.ne_nil
  have hword := h.accepts
  rw [ht] at hword
  rw [ht, List.cons_append] at ha
  rcases Kind.accepts_of_mem_foreign ha (by simp) (by decide : Kind.isForeign ' ' = true) with
    rfl | rfl | rfl | rfl
  · have hblank := (isRun_iff.mp ha).2 ' ' (by simp)
    exact absurd hblank (by decide)
  · rfl
  · obtain ⟨more, hc, -⟩ := Kind.accepts_comment_iff.mp ha
    obtain rfl := (List.cons.inj hc).1
    rcases Kind.kind_of_head_foreign hword (by decide) with ⟨-, hc⟩ | ⟨-, hc | hc⟩ | ⟨hk, -⟩ | ⟨-, hc⟩
    · exact absurd hc (by decide)
    · exact absurd hc (by decide)
    · exact absurd hc (by decide)
    · exact absurd hk h.notComment
    · exact absurd hc (by decide)
  · have hspacing := (isRun_iff.mp ha).2 c List.mem_cons_self
    exact absurd (kind_of_head_spacing hspacing hword) h.notWhitespace

/-- No piece goes on from a word over the blank behind it. -/
theorem IsSeen.not_isPiece_blank (h : IsSeen word) (more : List Char) :
    ¬IsPiece (word.2.toList ++ ' ' :: more) := by
  rintro ⟨kind, ha⟩
  obtain rfl := h.string_of_blank ha
  obtain ⟨mark, quoted, hq, hmark, hcloses⟩ := isQuoted_iff.mp ha
  obtain ⟨c, text, ht⟩ := List.exists_cons_of_ne_nil h.isPiece.ne_nil
  rw [ht, List.cons_append] at hq
  obtain ⟨rfl, rfl⟩ := List.cons.inj hq
  have hescape : c ≠ '\\' := by
    rcases hmark with rfl | rfl <;> decide
  -- the word begins with a mark, so it is a quotation itself
  have hword := h.accepts
  rw [ht] at hword
  have hstring : word.1 = .string := by
    have hforeign : Kind.isForeign c = true := by
      rcases hmark with rfl | rfl <;> decide
    rcases Kind.kind_of_head_foreign hword hforeign with ⟨-, rfl⟩ | ⟨hk, -⟩ | ⟨-, rfl⟩ | ⟨-, hs⟩
    · exact absurd hmark (by decide)
    · exact hk
    · exact absurd hmark (by decide)
    · rcases hmark with rfl | rfl <;> exact absurd hs (by decide)
  rw [hstring] at hword
  obtain ⟨d, inner, hd, -, hends⟩ := isQuoted_iff.mp hword
  obtain ⟨rfl, rfl⟩ := List.cons.inj hd
  rw [not_closesQuote_append hescape hends (List.cons_ne_nil _ _)] at hcloses
  cases hcloses

/-- So a word that is seen is cut off at the blank behind it, or at the end. -/
theorem IsSeen.isLongestPiece (h : IsSeen word) (hrest : ∀ c ∈ rest.head?, c = ' ') :
    IsLongestPiece word.2.toList (word.2.toList ++ rest) := by
  refine ⟨List.prefix_append _ _, h.isPiece, ?_⟩
  intro other hfront hother
  rcases List.prefix_or_prefix_of_prefix hfront (List.prefix_append _ rest) with
    hin | ⟨more, rfl⟩
  · exact hin.length_le
  · cases more with
    | nil => simp
    | cons c more =>
      obtain ⟨below, rfl⟩ := (List.prefix_append_right_inj _).mp hfront
      obtain rfl := hrest c rfl
      exact absurd hother (h.not_isPiece_blank more)

end

/-- Words with blanks between them are cut where they were put together. -/
theorem cutsInto_spaced {words : List (Kind × String)} (h : ∀ word ∈ words, IsSeen word) :
    CutsInto [] (List.intercalate [' '] (words.map (·.2.toList)))
      ((words.map (·.2.toList)).intersperse [' ']) := by
  induction words with
  | nil => exact .done
  | cons word words ih =>
    have hword := h word List.mem_cons_self
    have hrest := ih fun w hw => h w (List.mem_cons_of_mem _ hw)
    cases words with
    | nil =>
      have hlongest : IsLongestPiece word.2.toList (word.2.toList ++ []) :=
        hword.isLongestPiece (by simp)
      have hcut := CutsInto.piece hword.isPiece.ne_nil hlongest .done
      simpa using hcut
    | cons next words =>
      have hnext := h next (List.mem_cons_of_mem _ List.mem_cons_self)
      rw [List.map_cons, List.map_cons, List.intercalate_cons_cons, List.intersperse_cons_cons,
        List.append_assoc]
      refine .piece hword.isPiece.ne_nil (hword.isLongestPiece ?_) (.piece ?_ ?_ hrest)
      · intro c hc
        exact (Option.some.inj hc).symm
      · exact List.cons_ne_nil _ _
      · refine isLongestPiece_blank (List.cons_ne_nil _ _) ?_ ?_
        · intro c hc
          obtain rfl := List.mem_singleton.mp hc
          rfl
        · -- what stands behind the blank begins with the next word
          intro c hc
          refine hnext.head_not_spacing c ?_
          obtain ⟨d, text, ht⟩ := List.exists_cons_of_ne_nil hnext.isPiece.ne_nil
          cases words with
          | nil => simpa using hc
          | cons other words =>
            rw [List.map_cons, List.intercalate_cons_cons, ht] at hc
            rw [ht]
            exact hc

/-- A piece that is no comment gives its token behind what comes before. -/
theorem dropComments_place_cons (source : Source) (before : List Char) {piece : List Char}
    {kind : Kind} (hk : firstKind? piece = some kind) (hc : kind ≠ .comment)
    (pieces : List (List Char)) :
    dropComments (place source firstKind? (byteLength before) (piece :: pieces)) =
      tokenBehind source before (kind, String.ofList piece) ::
        dropComments (place source firstKind? (byteLength (before ++ piece)) pieces) := by
  simp [place, hk, dropComments, hc, tokenBehind, byteLength_append]

/-- Each word gives its token where it was printed, and each blank gives one behind it. -/
theorem place_spaced (source : Source) (before : List Char) {words : List (Kind × String)}
    (h : ∀ word ∈ words, IsSeen word) :
    dropComments (place source firstKind? (byteLength before)
      ((words.map (·.2.toList)).intersperse [' '])) = spacedTokens source before words := by
  have hblank : firstKind? [' '] = some .whitespace := by decide
  induction words generalizing before with
  | nil => rfl
  | cons word words ih =>
    obtain ⟨hkind, -, hcomment⟩ := h word List.mem_cons_self
    have hrest := fun before => ih before fun w hw => h w (List.mem_cons_of_mem _ hw)
    cases words with
    | nil =>
      rw [List.map_singleton, List.intersperse_singleton,
        dropComments_place_cons source before hkind hcomment, String.ofList_toList]
      rfl
    | cons next words =>
      have hbelow := hrest (before ++ word.2.toList ++ [' '])
      rw [List.map_cons] at hbelow
      rw [List.map_cons, List.map_cons, List.intersperse_cons_cons,
        dropComments_place_cons source before hkind hcomment,
        dropComments_place_cons source _ hblank Kind.noConfusion, hbelow, spacedTokens,
        String.ofList_toList]

/-- Classic lexing undoes printing with blanks: words that are seen come back as tokens, each where
it was printed, with one token of whitespace between neighbours. -/
theorem classicTokens_spacedText (name : String) (tag : Nat) {words : List (Kind × String)}
    (h : ∀ word ∈ words, IsSeen word) :
    classicTokens ⟨name, spacedText words, tag⟩ =
      .ok (spacedTokens ⟨name, spacedText words, tag⟩ [] words) := by
  have hcut : CutsInto [] (spacedText words).toList
      ((words.map (·.2.toList)).intersperse [' ']) := by
    have hcut := cutsInto_spaced h
    rw [spacedText, String.toList_intercalate, List.map_map]
    exact hcut
  rw [classicTokens_of_cutsInto hcut]
  exact congrArg Except.ok (place_spaced _ [] h)

/-- A quotation with blanks, a mark and a number sign in it, two signs that would be one without the
blank, a line feed and a number with its own sign. -/
theorem classicTokens_spaced_quotation :
    let words : List (Kind × String) := [(.string, "'é # \\' b'"), (.assignment, "="),
      (.operator, ">"), (.newline, "\n"), (.decimal, "-1")]
    (∀ word ∈ words, IsSeen word) ∧ (spacedTokens default [] words).length = 9 ∧
      classicTokens ⟨"main.ark", "'é # \\' b' = > \n -1", 0⟩ =
        .ok (spacedTokens ⟨"main.ark", "'é # \\' b' = > \n -1", 0⟩ [] words) := by
  intro words
  have hseen : ∀ word ∈ words, IsSeen word := by
    intro word hm
    simp only [words, List.mem_cons, List.not_mem_nil, or_false] at hm
    rcases hm with rfl | rfl | rfl | rfl | rfl <;> exact ⟨by decide, by decide, by decide⟩
  have htext : spacedText words = "'é # \\' b' = > \n -1" := by decide
  have htokens := classicTokens_spacedText "main.ark" 0 hseen
  rw [htext] at htokens
  exact ⟨hseen, rfl, htokens⟩

end Offside
