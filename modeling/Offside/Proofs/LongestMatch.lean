import Offside.Lexing
import Offside.Proofs.TokenGrammar

namespace Offside

/-- The piece is the longest beginning of a text that any kind accepts. -/
structure IsLongestPiece (piece text : List Char) : Prop where
  isPrefix : piece <+: text
  isPiece : IsPiece piece
  longest : ∀ other, other <+: text → IsPiece other → other.length ≤ piece.length

/-- No text that begins this one, and has at least one character, is of any kind. -/
def IsStuck (text : List Char) : Prop :=
  ∀ piece, piece <+: text → piece ≠ [] → ¬IsPiece piece

/-- The pieces stand one after the other at the front of a text, each of them not empty and the
longest at its place, and leave the rest of the text. -/
inductive CutsInto (rest : List Char) : List Char → List (List Char) → Prop
  | done : CutsInto rest rest []
  | piece {piece text : List Char} {pieces : List (List Char)} :
    piece ≠ [] → IsLongestPiece piece (piece ++ text) → CutsInto rest text pieces →
    CutsInto rest (piece ++ text) (piece :: pieces)

/-- The tokens are those of the pieces, comments left out, when the pieces come after a text. -/
inductive TokensOf (source : Source) : List Char → List (List Char) → List Token → Prop
  | done {before : List Char} : TokensOf source before [] []
  | comment {before piece : List Char} {pieces : List (List Char)} {tokens : List Token} :
    firstKind? piece = some .comment → TokensOf source (before ++ piece) pieces tokens →
    TokensOf source before (piece :: pieces) tokens
  | token {before piece : List Char} {pieces : List (List Char)} {tokens : List Token}
      {kind : Kind} :
    firstKind? piece = some kind → kind ≠ .comment →
    TokensOf source (before ++ piece) pieces tokens →
    TokensOf source before (piece :: pieces)
      (⟨kind, String.ofList piece,
        ⟨.within source (byteLength before), .within source (byteLength (before ++ piece))⟩⟩ ::
        tokens)

theorem find?_reverse_range_eq_some {p : Nat → Bool} {k n : Nat} :
    (List.range k).reverse.find? p = some n ↔
      n < k ∧ p n = true ∧ ∀ m, n < m → m < k → p m = false := by
  induction k with
  | zero => simp
  | succ k ih =>
    rw [List.range_succ, List.reverse_append, List.reverse_singleton, List.singleton_append]
    by_cases hp : p k = true
    · rw [List.find?_cons_of_pos hp]
      constructor
      · intro h
        cases Option.some.inj h
        exact ⟨by omega, hp, fun m h₁ h₂ => by omega⟩
      · rintro ⟨h₁, _, h₃⟩
        by_contra hne
        have := h₃ k (by have : k ≠ n := fun h => hne (by rw [h]); omega) (by omega)
        simp [hp] at this
    · rw [List.find?_cons_of_neg hp, ih]
      constructor
      · rintro ⟨h₁, h₂, h₃⟩
        refine ⟨by omega, h₂, fun m hm hk => ?_⟩
        rcases Nat.lt_succ_iff_lt_or_eq.mp hk with hk | rfl
        · exact h₃ m hm hk
        · simpa using hp
      · rintro ⟨h₁, h₂, h₃⟩
        have : n ≠ k := fun h => hp (h ▸ h₂)
        exact ⟨by omega, h₂, fun m hm hk => h₃ m hm (by omega)⟩

theorem horizon_isPrefix (text : List Char) : horizon text <+: text := by
  have h := List.takeWhile_append_dropWhile (p := fun c => c != '\n') (l := text)
  conv_rhs => rw [← h]
  exact (List.prefix_append_right_inj _).mpr (List.takeWhile_prefix _)

theorem isPrefix_takeWhile {α : Type} {p : α → Bool} {xs ys : List α} (h : xs <+: ys)
    (hp : ∀ x ∈ xs, p x = true) : xs <+: ys.takeWhile p := by
  obtain ⟨rest, rfl⟩ := h
  rw [List.takeWhile_append_of_pos hp]
  exact List.prefix_append _ _

/-- Nothing beyond the horizon belongs to a piece: only line feeds come together with line
feeds. -/
theorem IsPiece.isPrefix_horizon {piece text : List Char} (h : IsPiece piece)
    (hp : piece <+: text) : piece <+: horizon text := by
  by_cases hn : '\n' ∈ piece
  · obtain ⟨kind, hk⟩ := h
    cases Kind.newline_of_accepts hk hn
    obtain ⟨hne, hall⟩ := isRun_iff.mp hk
    have first : text.takeWhile (fun c => c != '\n') = [] := by
      cases piece with
      | nil => exact absurd rfl hne
      | cons c piece =>
        obtain ⟨rest, rfl⟩ := hp
        have hc := hall c (List.mem_cons_self ..)
        simp only [beq_iff_eq] at hc
        simp [hc]
    have rest : text.dropWhile (fun c => c != '\n') = text := by
      have hs := List.takeWhile_append_dropWhile (p := fun c => c != '\n') (l := text)
      rwa [first, List.nil_append] at hs
    unfold horizon
    rw [first, rest, List.nil_append]
    exact isPrefix_takeWhile hp hall
  · have hall : ∀ c ∈ piece, (c != '\n') = true := by
      intro c hc
      have : c ≠ '\n' := fun he => hn (he ▸ hc)
      simpa using this
    exact (isPrefix_takeWhile hp hall).trans (List.prefix_append _ _)

theorem not_isPiece_nil : ¬IsPiece [] := by
  rintro ⟨kind, h⟩
  revert h
  cases kind <;> decide

theorem IsPiece.ne_nil {piece : List Char} (h : IsPiece piece) : piece ≠ [] := by
  rintro rfl
  exact not_isPiece_nil h

theorem IsPiece.eq_cons_take {piece text : List Char} {c : Char} (h : IsPiece piece)
    (hp : piece <+: c :: text) : piece = c :: text.take (piece.length - 1) := by
  cases piece with
  | nil => exact absurd rfl h.ne_nil
  | cons d piece =>
    obtain ⟨rfl, ht⟩ := List.cons_prefix_cons.mp hp
    exact congrArg (d :: ·) (List.prefix_iff_eq_take.mp ht)

theorem longestTail?_of_isPiece {c : Char} {text piece : List Char} (h : IsPiece piece)
    (hp : piece <+: c :: text) : ∃ n, longestTail? c text = some n ∧ piece.length ≤ n + 1 := by
  have hb := (h.isPrefix_horizon hp).length_le
  have hpos := List.length_pos_iff.mpr h.ne_nil
  cases hl : longestTail? c text with
  | none =>
    have := List.find?_eq_none.mp hl (piece.length - 1) (by simp; omega)
    rw [← h.eq_cons_take hp] at this
    exact absurd (preferredKind?_isSome_iff.mpr h) this
  | some n =>
    obtain ⟨_, _, hmax⟩ := find?_reverse_range_eq_some.mp hl
    refine ⟨n, rfl, ?_⟩
    by_contra hlt
    have := hmax (piece.length - 1) (by omega) (by omega)
    rw [← h.eq_cons_take hp, preferredKind?_isSome_iff.mpr h] at this
    simp at this

theorem isLongestPiece_of_longestTail? {c : Char} {text : List Char} {n : Nat}
    (h : longestTail? c text = some n) : IsLongestPiece (c :: text.take n) (c :: text) := by
  obtain ⟨hn, hp, _⟩ := find?_reverse_range_eq_some.mp h
  have hb := (horizon_isPrefix (c :: text)).length_le
  refine ⟨List.cons_prefix_cons.mpr ⟨rfl, List.take_prefix _ _⟩,
    preferredKind?_isSome_iff.mp hp, fun other ho hother => ?_⟩
  obtain ⟨m, hm, hle⟩ := longestTail?_of_isPiece hother ho
  cases Option.some.inj (h.symm.trans hm)
  simp only [List.length_cons, List.length_take] at hb ⊢
  omega

theorem IsLongestPiece.unique {a b text : List Char} (ha : IsLongestPiece a text)
    (hb : IsLongestPiece b text) : a = b := by
  have h₁ := ha.longest b hb.isPrefix hb.isPiece
  have h₂ := hb.longest a ha.isPrefix ha.isPiece
  exact (List.prefix_of_prefix_length_le ha.isPrefix hb.isPrefix h₂).eq_of_length
    (Nat.le_antisymm h₂ h₁)

theorem isStuck_of_longestTail? {c : Char} {text : List Char}
    (h : longestTail? c text = none) : IsStuck (c :: text) := by
  intro piece hp _ hpiece
  obtain ⟨n, hn, _⟩ := longestTail?_of_isPiece hpiece hp
  simp [h] at hn

theorem munch_cutsInto (text : List Char) :
    CutsInto (munch text).2 text (munch text).1 ∧ IsStuck (munch text).2 := by
  fun_induction munch text with
  | case1 => exact ⟨.done, fun piece hp hne => absurd (List.prefix_nil.mp hp) hne⟩
  | case2 c text h => exact ⟨.done, isStuck_of_longestTail? h⟩
  | case3 c text n h pieces rest he ih =>
    rw [he] at ih
    have hl := isLongestPiece_of_longestTail? h
    have hs : (c :: text.take n) ++ text.drop n = c :: text := by simp
    rw [← hs] at hl
    have := CutsInto.piece (by simp) hl ih.1
    rw [hs] at this
    exact ⟨this, ih.2⟩

theorem exists_cutsInto (text : List Char) : (∃ pieces, CutsInto [] text pieces) ∨
    ∃ pieces c rest, CutsInto (c :: rest) text pieces ∧ IsStuck (c :: rest) := by
  obtain ⟨hcut, hstuck⟩ := munch_cutsInto text
  generalize (munch text).1 = pieces, (munch text).2 = rest at hcut hstuck
  cases rest with
  | nil => exact .inl ⟨pieces, hcut⟩
  | cons c rest => exact .inr ⟨pieces, c, rest, hcut, hstuck⟩

theorem CutsInto.munch_eq {rest text : List Char} {pieces : List (List Char)}
    (h : CutsInto rest text pieces) (hs : IsStuck rest) : munch text = (pieces, rest) := by
  induction h with
  | done =>
    cases rest with
    | nil => rw [munch]
    | cons c text =>
      rw [munch]
      split
      next => rfl
      next n hn =>
        have hl := isLongestPiece_of_longestTail? hn
        exact absurd hl.isPiece (hs _ hl.isPrefix (by simp))
  | @piece piece text pieces hne hl _ ih =>
    cases piece with
    | nil => exact absurd rfl hne
    | cons c piece =>
      rw [List.cons_append] at hl ⊢
      obtain ⟨n, hn, _⟩ := longestTail?_of_isPiece hl.isPiece hl.isPrefix
      have he := (isLongestPiece_of_longestTail? hn).unique hl
      obtain ⟨_, he⟩ := List.cons.inj he
      have hd : (piece ++ text).drop n = text := by
        have := List.take_append_drop n (piece ++ text)
        rw [he] at this
        exact List.append_cancel_left this
      rw [munch, hn]
      simp only [he, hd, ih]

theorem mem_place {source : Source} {kindOf? : List Char → Option Kind} {offset : Nat}
    {pieces : List (List Char)} {t : Token} (h : t ∈ place source kindOf? offset pieces) :
    t.text.toList ∈ pieces ∧ kindOf? t.text.toList = some t.kind := by
  induction pieces generalizing offset with
  | nil => simp [place] at h
  | cons piece pieces ih =>
    simp only [place] at h
    split at h
    next kind hk =>
      rcases List.mem_cons.mp h with rfl | h
      · simp [hk]
      · exact ⟨List.mem_cons_of_mem _ (ih h).1, (ih h).2⟩
    next => exact ⟨List.mem_cons_of_mem _ (ih h).1, (ih h).2⟩

theorem CutsInto.isPiece {rest text : List Char} {pieces : List (List Char)}
    (h : CutsInto rest text pieces) : ∀ piece ∈ pieces, IsPiece piece := by
  induction h with
  | done => simp
  | piece _ hl _ ih => exact List.forall_mem_cons.mpr ⟨hl.isPiece, ih⟩

theorem CutsInto.flatten {rest text : List Char} {pieces : List (List Char)}
    (h : CutsInto rest text pieces) : text = pieces.flatten ++ rest := by
  induction h with
  | done => rfl
  | piece _ _ _ ih => rw [List.flatten_cons, List.append_assoc, ← ih]

/-- The text between two byte offsets. -/
def Source.slice (source : Source) (start stop : Nat) : List Char :=
  (takeBytes stop source.text.toList).drop (takeBytes start source.text.toList).length

/-- The token has the text that stands in the source at its place. -/
def Token.IsSliceOf (t : Token) (source : Source) : Prop :=
  ∃ start stop, t.span = ⟨.within source start, .within source stop⟩ ∧
    t.text.toList = source.slice start stop

theorem Source.slice_byteLength {source : Source} {before piece after : List Char}
    (h : source.text.toList = before ++ piece ++ after) :
    source.slice (byteLength before) (byteLength (before ++ piece)) = piece := by
  unfold slice
  rw [h, takeBytes_byteLength, List.append_assoc, takeBytes_byteLength, List.drop_left]

theorem TokensOf.isSliceOf {source : Source} {before rest : List Char}
    {pieces : List (List Char)} {tokens : List Token} (h : TokensOf source before pieces tokens)
    (hs : source.text.toList = before ++ pieces.flatten ++ rest) :
    ∀ t ∈ tokens, t.IsSliceOf source := by
  induction h with
  | done => simp
  | comment _ _ ih => exact ih (by simpa using hs)
  | @token before piece pieces tokens kind _ _ _ ih =>
    refine List.forall_mem_cons.mpr ⟨⟨_, _, rfl, ?_⟩, ih (by simpa using hs)⟩
    have hs' : source.text.toList = before ++ piece ++ (pieces.flatten ++ rest) := by
      simpa using hs
    rw [String.toList_ofList, Source.slice_byteLength hs']

theorem tokensOf_iff {source : Source} {before : List Char} {pieces : List (List Char)}
    {tokens : List Token} (h : ∀ piece ∈ pieces, IsPiece piece) :
    TokensOf source before pieces tokens ↔
      dropComments (place source firstKind? (byteLength before) pieces) = tokens := by
  induction pieces generalizing before tokens with
  | nil =>
    constructor
    · rintro ⟨⟩
      rfl
    · rintro rfl
      exact .done
  | cons piece pieces ih =>
    obtain ⟨hp, hps⟩ := List.forall_mem_cons.mp h
    obtain ⟨kind, hk⟩ := Option.isSome_iff_exists.mp (firstKind?_isSome_iff.mpr hp)
    have ih := fun tokens => @ih (before ++ piece) tokens hps
    simp only [place, hk, dropComments, List.filter_cons, ← byteLength_append]
    constructor
    · intro ht
      cases ht with
      | comment hc ht =>
        cases Option.some.inj (hk.symm.trans hc)
        exact (ih _).mp ht
      | token hc hne ht =>
        cases Option.some.inj (hk.symm.trans hc)
        rw [if_pos (by simpa using hne)]
        exact congrArg _ ((ih _).mp ht)
    · rintro rfl
      by_cases hc : kind = .comment
      · subst kind
        exact .comment hk ((ih _).mpr rfl)
      · rw [if_pos (by simpa using hc)]
        exact .token hk hc ((ih _).mpr rfl)

theorem classicTokens_of_cutsInto {source : Source} {pieces : List (List Char)}
    (h : CutsInto [] source.text.toList pieces) :
    classicTokens source = .ok (dropComments (place source firstKind? 0 pieces)) := by
  have hs : IsStuck [] := fun piece hp hne => absurd (List.prefix_nil.mp hp) hne
  have hk : preferredKind? = firstKind? := funext preferredKind?_eq_firstKind?
  rw [classicTokens, h.munch_eq hs, hk]

theorem classicTokens_of_isStuck {source : Source} {pieces : List (List Char)} {c : Char}
    {rest : List Char} (h : CutsInto (c :: rest) source.text.toList pieces)
    (hs : IsStuck (c :: rest)) :
    classicTokens source = .error ⟨.unexpectedToken (String.singleton c),
      .within source (byteLength pieces.flatten)⟩ := by
  rw [classicTokens, h.munch_eq hs]
  rfl

theorem classicTokens_eq_ok_iff {source : Source} {tokens : List Token} :
    classicTokens source = .ok tokens ↔ ∃ pieces, CutsInto [] source.text.toList pieces ∧
      dropComments (place source firstKind? 0 pieces) = tokens := by
  constructor
  · intro h
    rcases exists_cutsInto source.text.toList with ⟨pieces, hcut⟩ | ⟨pieces, c, rest, hcut, hstuck⟩
    · exact ⟨pieces, hcut, Except.ok.inj ((classicTokens_of_cutsInto hcut).symm.trans h)⟩
    · cases (classicTokens_of_isStuck hcut hstuck).symm.trans h
  · rintro ⟨pieces, hcut, rfl⟩
    exact classicTokens_of_cutsInto hcut

theorem classicTokens_eq_error_iff {source : Source} {diagnostic : Diagnostic} :
    classicTokens source = .error diagnostic ↔
      ∃ pieces c rest, CutsInto (c :: rest) source.text.toList pieces ∧ IsStuck (c :: rest) ∧
        diagnostic = ⟨.unexpectedToken (String.singleton c),
          .within source (byteLength pieces.flatten)⟩ := by
  constructor
  · intro h
    rcases exists_cutsInto source.text.toList with ⟨pieces, hcut⟩ | ⟨pieces, c, rest, hcut, hstuck⟩
    · cases (classicTokens_of_cutsInto hcut).symm.trans h
    · have he := (classicTokens_of_isStuck hcut hstuck).symm.trans h
      exact ⟨pieces, c, rest, hcut, hstuck, (Except.error.inj he).symm⟩
  · rintro ⟨pieces, c, rest, hcut, hstuck, rfl⟩
    exact classicTokens_of_isStuck hcut hstuck

/-- Classic lexing is maximal munch. It succeeds exactly when the text falls into longest pieces,
and then yields them, comments left out, each with the first kind that accepts it and with the
text at its place. Otherwise it complains about the first character of the first remainder that
no piece begins. -/
theorem classicTokens_maximal_munch (source : Source) :
    (∀ tokens, classicTokens source = .ok tokens ↔
      ∃ pieces, CutsInto [] source.text.toList pieces ∧ TokensOf source [] pieces tokens ∧
        ∀ t ∈ tokens, t.IsSliceOf source) ∧
    (∀ diagnostic, classicTokens source = .error diagnostic ↔
      ∃ pieces c rest, CutsInto (c :: rest) source.text.toList pieces ∧ IsStuck (c :: rest) ∧
        diagnostic = ⟨.unexpectedToken (String.singleton c),
          .within source (byteLength pieces.flatten)⟩) := by
  refine ⟨fun tokens => ?_, fun diagnostic => classicTokens_eq_error_iff⟩
  rw [classicTokens_eq_ok_iff]
  constructor
  · rintro ⟨pieces, hcut, hp⟩
    have ht : TokensOf source [] pieces tokens := (tokensOf_iff hcut.isPiece).mpr hp
    exact ⟨pieces, hcut, ht, ht.isSliceOf hcut.flatten⟩
  · rintro ⟨pieces, hcut, ht, _⟩
    exact ⟨pieces, hcut, (tokensOf_iff hcut.isPiece).mp ht⟩

end Offside
