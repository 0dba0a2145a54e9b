import Offside.Indentation
import Offside.LineTree
import Offside.Proofs.GreedyAgreement
import Offside.Proofs.Provenance

namespace Offside

/-- What a token says, wherever it stands. -/
def Token.word (t : Token) : Kind × String :=
  (t.kind, t.text)

/-- Whether one of the comments of a text is left out in the other. -/
structure DropsComment (text text' : List Char) (pieces : List (List Char))
    (comment after : List Char) : Prop where
  before : CutsInto (comment ++ after) text pieces
  longest : IsLongestPiece comment (comment ++ after)
  kind : firstKind? comment = some .comment
  left : text' = pieces.flatten ++ after

/-- Tokens that differ only in where they stand and in how line breaks next to each other are put
together. -/
inductive Rebroken : List Token → List Token → Prop where
  | nil : Rebroken [] []
  | same {t u : Token} {ts us : List Token} (word : t.word = u.word) (rest : Rebroken ts us) :
    Rebroken (t :: ts) (u :: us)
  | merged {t t' u : Token} {ts us : List Token} (first : t.kind = .newline)
    (second : t'.kind = .newline) (one : u.kind = .newline) (rest : Rebroken ts us) :
    Rebroken (t :: t' :: ts) (u :: us)

/-- Whether two outcomes are results that are related, or refusals for the same cause. -/
def Outcome.Alike {α β : Type} (related : α → β → Prop) : Outcome α → Outcome β → Prop
  | .ok a, .ok b => related a b
  | .error d, .error e => d.cause = e.cause
  | _, _ => False

theorem Outcome.Alike.bind {α β γ δ : Type} {related : α → β → Prop} {related' : γ → δ → Prop}
    {x : Outcome α} {y : Outcome β} {f : α → Outcome γ} {g : β → Outcome δ}
    (h : x.Alike related y) (hf : ∀ a b, related a b → (f a).Alike related' (g b)) :
    Outcome.Alike related' (x >>= f) (y >>= g) := by
  cases x with
  | ok a =>
    cases y with
    | ok b => exact hf a b h
    | error e => exact h.elim
  | error d =>
    cases y with
    | ok b => exact h.elim
    | error e => exact h

section

variable {piece text after comment : List Char}

theorem firstKind?_newline {kind : Kind} (h : firstKind? piece = some kind) (hn : '\n' ∈ piece) :
    kind = .newline ∧ ∀ c ∈ piece, c = '\n' := by
  have ha := accepts_of_firstKind? h
  obtain rfl := Kind.newline_of_accepts ha hn
  refine ⟨rfl, fun c hc => ?_⟩
  have hall := (isRun_iff.mp ha).2 c hc
  simpa using hall

theorem IsPiece.eq_newlines (h : IsPiece piece) (hn : '\n' ∈ piece) : ∀ c ∈ piece, c = '\n' := by
  obtain ⟨kind, hk, -⟩ := h.exists_kind
  exact (firstKind?_newline hk hn).2

theorem isPiece_newlines (hne : piece ≠ []) (h : ∀ c ∈ piece, c = '\n') : IsPiece piece :=
  ⟨.newline, isRun_iff.mpr ⟨hne, fun c hc => by simpa using h c hc⟩⟩

/-- A comment takes the whole line, so only a line feed can come after it. -/
theorem head_after_comment (h : IsLongestPiece comment (comment ++ after))
    (hk : firstKind? comment = some .comment) : ∀ c ∈ after.head?, c = '\n' := by
  intro c hc
  obtain ⟨rest, rfl⟩ : ∃ rest, after = c :: rest := by
    cases after with
    | nil => cases hc
    | cons d rest => exact ⟨rest, by rw [Option.some.inj hc]⟩
  by_contra hne
  have ha := accepts_of_firstKind? hk
  obtain ⟨body, rfl, hbody⟩ := Kind.accepts_comment_iff.mp ha
  have hlonger : IsPiece (('#' :: body) ++ [c]) := by
    refine ⟨.comment, Kind.accepts_comment_iff.mpr ⟨body ++ [c], rfl, ?_⟩⟩
    intro hm
    rcases List.mem_append.mp hm with hm | hm
    · exact hbody hm
    · exact hne (List.mem_singleton.mp hm).symm
  have hle := h.longest _ (by simp) hlonger
  simp at hle

/-- A longest piece stays the longest when the text behind is cut short before a line feed. -/
theorem IsLongestPiece.cut_short {between more : List Char}
    (h : IsLongestPiece piece (piece ++ (between ++ more)))
    (hafter : ∀ c ∈ after.head?, c = '\n') (apart : between = [] → '\n' ∉ piece) :
    IsLongestPiece piece (piece ++ (between ++ after)) := by
  refine ⟨List.prefix_append _ _, h.isPiece, ?_⟩
  intro other hprefix hother
  by_contra hlt
  rw [← List.append_assoc] at hprefix
  have within : other <+: piece ++ between → False := by
    intro hin
    refine hlt (h.longest other ?_ hother)
    rw [← List.append_assoc]
    exact hin.trans (List.prefix_append _ _)
  rcases List.prefix_or_prefix_of_prefix hprefix (List.prefix_append _ after) with hin | ⟨x, rfl⟩
  · exact within hin
  · -- a piece that reaches the line feed consists of line feeds only
    rw [List.append_assoc] at hprefix
    obtain ⟨c, x, rfl⟩ : ∃ c x', x = c :: x' := by
      cases x with
      | nil => exact (within (by simp)).elim
      | cons c x => exact ⟨c, x, rfl⟩
    have hx : c :: x <+: after := by
      rw [List.append_assoc] at hprefix
      exact (List.prefix_append_right_inj _).mp ((List.prefix_append_right_inj _).mp hprefix)
    have hc : c = '\n' := by
      obtain ⟨rest, rfl⟩ := hx
      exact hafter c rfl
    have hall := hother.eq_newlines (List.mem_append_right _ (hc ▸ List.mem_cons_self))
    have hboth : ∀ d ∈ piece ++ between, d = '\n' := fun d hd => hall d (List.mem_append_left _ hd)
    cases between with
    | nil =>
      obtain ⟨d, hd⟩ := List.exists_mem_of_ne_nil _ h.isPiece.ne_nil
      have hd' := hboth d (List.mem_append_left _ hd)
      exact apart rfl (hd' ▸ hd)
    | cons d between =>
      have hlonger := isPiece_newlines (by simp) hboth
      have hle := h.longest _ (by rw [← List.append_assoc]; exact List.prefix_append _ _) hlonger
      simp at hle

/-- Whether pieces are those of two lists one after the other, where line feeds that come together
may be put into one piece. -/
def AreJoined (before after joined : List (List Char)) : Prop :=
  joined = before ++ after ∨
    ∃ start a b rest, before = start ++ [a] ∧ after = b :: rest ∧
      joined = start ++ (a ++ b) :: rest ∧ firstKind? a = some .newline ∧
        firstKind? b = some .newline ∧ firstKind? (a ++ b) = some .newline

theorem firstKind?_newlines (hne : piece ≠ []) (h : ∀ c ∈ piece, c = '\n') :
    firstKind? piece = some .newline := by
  obtain ⟨kind, hk, -⟩ := (isPiece_newlines hne h).exists_kind
  obtain ⟨c, hc⟩ := List.exists_mem_of_ne_nil _ hne
  obtain ⟨rfl, -⟩ := firstKind?_newline hk (h c hc ▸ hc)
  exact hk

/-- Line feeds in front of a longest piece of line feeds make that piece longer. -/
theorem IsLongestPiece.newlines_append {front : List Char} (hne : front ≠ [])
    (hfront : ∀ c ∈ front, c = '\n') (h : IsLongestPiece piece (piece ++ text))
    (hpiece : ∀ c ∈ piece, c = '\n') :
    IsLongestPiece (front ++ piece) (front ++ piece ++ text) := by
  have hall : ∀ c ∈ front ++ piece, c = '\n' := by
    intro c hc
    exact (List.mem_append.mp hc).elim (hfront c) (hpiece c)
  refine ⟨List.prefix_append _ _, isPiece_newlines (by simp [hne]) hall, ?_⟩
  intro other hprefix hother
  by_contra hlt
  rcases List.prefix_or_prefix_of_prefix hprefix (List.prefix_append _ text) with hin | hout
  · exact hlt hin.length_le
  · obtain ⟨x, rfl⟩ := hout
    have hx : piece ++ x <+: piece ++ text := by
      rw [List.append_assoc, List.append_assoc] at hprefix
      exact (List.prefix_append_right_inj _).mp hprefix
    obtain ⟨c, hc⟩ := List.exists_mem_of_ne_nil _ hne
    have hnewlines := hother.eq_newlines
      (hfront c hc ▸ List.mem_append_left _ (List.mem_append_left _ hc))
    have hlonger : IsPiece (piece ++ x) := by
      refine isPiece_newlines (by simp [h.isPiece.ne_nil]) fun d hd => hnewlines d ?_
      rw [List.append_assoc]
      exact List.mem_append_right _ hd
    have hle := h.longest _ hx hlonger
    simp only [List.length_append] at hle hlt
    omega

/-- Leaving out a comment leaves the pieces around it as they are, but for line feeds on both of
its sides. -/
theorem CutsInto.without_comment {rest : List Char} {pieces behind : List (List Char)}
    (h : CutsInto (comment ++ after) text pieces) (hafter : ∀ c ∈ after.head?, c = '\n')
    (hbehind : CutsInto rest after behind) (hstuck : IsStuck rest) :
    ∃ joined, CutsInto rest (pieces.flatten ++ after) joined ∧ AreJoined pieces behind joined := by
  induction h with
  | done => exact ⟨behind, hbehind, .inl rfl⟩
  | @piece piece text pieces hne hl hcut ih =>
    obtain ⟨joined, hj, hjoined⟩ := ih
    rw [hcut.flatten] at hl
    by_cases hlast : pieces = [] ∧ '\n' ∈ piece
    · obtain ⟨rfl, hn⟩ := hlast
      have hpiece := hl.isPiece.eq_newlines hn
      have htext : [piece].flatten ++ after = piece ++ after := by simp
      rw [htext]
      cases hbehind with
      | done =>
        cases after with
        | nil =>
          refine ⟨[piece], .piece hne ⟨List.prefix_append _ _, hl.isPiece, ?_⟩ .done, .inl rfl⟩
          intro other hother _
          rw [List.append_nil] at hother
          exact hother.length_le
        | cons c after =>
          have hc : IsPiece [c] :=
            isPiece_newlines (by simp) fun d hd => (List.mem_singleton.mp hd).trans (hafter c rfl)
          exact absurd hc (hstuck [c] ⟨after, rfl⟩ (by simp))
      | @piece next text behind hne' hl' hcut' =>
        have hnext : ∀ c ∈ next, c = '\n' := by
          cases next with
          | nil => exact absurd rfl hne'
          | cons c next =>
            exact hl'.isPiece.eq_newlines (hafter c rfl ▸ List.mem_cons_self)
        refine ⟨(piece ++ next) :: behind, ?_, .inr ⟨[], piece, next, behind, rfl, rfl, rfl,
          firstKind?_newlines hne hpiece, firstKind?_newlines hne' hnext, ?_⟩⟩
        · rw [← List.append_assoc]
          exact .piece (by simp [hne]) (hl'.newlines_append hne hpiece hnext) hcut'
        · refine firstKind?_newlines (by simp [hne]) fun c hc => ?_
          exact (List.mem_append.mp hc).elim (hpiece c) (hnext c)
    · have apart : pieces.flatten = [] → '\n' ∉ piece := by
        intro hnil hn
        refine hlast ⟨?_, hn⟩
        cases hcut with
        | done => rfl
        | piece hne' _ _ =>
          rw [List.flatten_cons] at hnil
          exact absurd (List.append_eq_nil_iff.mp hnil).1 hne'
      refine ⟨piece :: joined, ?_, ?_⟩
      · rw [List.flatten_cons, List.append_assoc]
        exact .piece hne (hl.cut_short hafter apart) hj
      · rcases hjoined with rfl | ⟨start, a, b, more, rfl, rfl, rfl, ha, hb, hab⟩
        · exact .inl rfl
        · exact .inr ⟨piece :: start, a, b, more, rfl, rfl, rfl, ha, hb, hab⟩

end

section

variable {source source' : Source} {pieces : List (List Char)} {ts us : List Token}

theorem place_append (kindOf? : List Char → Option Kind) (offset : Nat)
    (xs ys : List (List Char)) : place source kindOf? offset (xs ++ ys) =
      place source kindOf? offset xs ++
        place source kindOf? (offset + byteLength xs.flatten) ys := by
  induction xs generalizing offset with
  | nil => rfl
  | cons piece xs ih =>
    rw [List.cons_append, place, place, ih, List.flatten_cons, byteLength_append, Nat.add_assoc]
    cases kindOf? piece <;> rfl

theorem CutsInto.append {rest middle text : List Char} {pieces' : List (List Char)}
    (h : CutsInto middle text pieces) (h' : CutsInto rest middle pieces') :
    CutsInto rest text (pieces ++ pieces') := by
  induction h with
  | done => exact h'
  | piece hne hl _ ih => exact .piece hne hl ih

theorem Rebroken.append {ts' us' : List Token} (h : Rebroken ts us) (h' : Rebroken ts' us') :
    Rebroken (ts ++ ts') (us ++ us') := by
  induction h with
  | nil => exact h'
  | same word _ ih => exact .same word ih
  | merged first second one _ ih => exact .merged first second one ih

theorem rebroken_place (offset offset' : Nat) (pieces : List (List Char)) :
    Rebroken (dropComments (place source firstKind? offset pieces))
      (dropComments (place source' firstKind? offset' pieces)) := by
  induction pieces generalizing offset offset' with
  | nil => exact .nil
  | cons piece pieces ih =>
    rw [place, place]
    cases firstKind? piece with
    | none => exact ih _ _
    | some kind =>
      by_cases hk : kind = .comment
      · subst hk
        exact ih _ _
      · have hk' : (kind != .comment) = true := by simpa using hk
        simp only [dropComments, List.filter_cons, hk', if_true]
        exact .same rfl (ih _ _)

theorem rebroken_place_joined {before behind joined : List (List Char)} {comment : List Char}
    (hk : firstKind? comment = some .comment) (h : AreJoined before behind joined) :
    Rebroken (dropComments (place source firstKind? 0 (before ++ comment :: behind)))
      (dropComments (place source' firstKind? 0 joined)) := by
  have hcomment : ∀ offset, dropComments (place source firstKind? offset (comment :: behind)) =
      dropComments (place source firstKind? (offset + byteLength comment) behind) := by
    intro offset
    simp only [place, hk]
    rfl
  have hdrop : ∀ xs ys, dropComments (xs ++ ys) = dropComments xs ++ dropComments ys :=
    fun xs ys => List.filter_append xs ys
  rw [place_append, hdrop, hcomment]
  rcases h with rfl | ⟨start, a, b, rest, rfl, rfl, rfl, ha, hb, hab⟩
  · rw [place_append, hdrop]
    exact (rebroken_place _ _ _).append (rebroken_place _ _ _)
  · rw [place_append, place_append, hdrop, hdrop, List.append_assoc]
    refine (rebroken_place _ _ _).append ?_
    simp only [place, ha, hb, hab]
    exact .merged rfl rfl rfl (rebroken_place _ _ _)

/-- Classic lexing of a text without one of its comments. -/
theorem classicTokens_without_comment {comment after : List Char}
    (h : DropsComment source.text.toList source'.text.toList pieces comment after) :
    (classicTokens source).Alike Rebroken (classicTokens source') := by
  have hafter := head_after_comment h.longest h.kind
  obtain ⟨hcut, hstuck⟩ := munch_cutsInto after
  generalize (munch after).1 = behind, (munch after).2 = rest at hcut hstuck
  obtain ⟨joined, hj, hjoined⟩ := h.before.without_comment hafter hcut hstuck
  rw [← h.left] at hj
  have hwhole : CutsInto rest source.text.toList (pieces ++ comment :: behind) :=
    h.before.append (.piece h.longest.isPiece.ne_nil h.longest hcut)
  cases rest with
  | nil =>
    rw [classicTokens_of_cutsInto hwhole, classicTokens_of_cutsInto hj]
    exact rebroken_place_joined h.kind hjoined
  | cons c rest =>
    rw [classicTokens_of_isStuck hwhole hstuck, classicTokens_of_isStuck hj hstuck]
    rfl

theorem endsLine_rebroken (h : Rebroken ts us) : endsLine ts = endsLine us := by
  cases h with
  | nil => rfl
  | same word _ => rw [endsLine, endsLine, (Prod.mk.inj word).1]
  | merged first _ one _ => rw [endsLine, endsLine, first, one]

/-- Normalising indentation looks at what the tokens say only, and not at how often a line is
broken. -/
theorem indentFrom_rebroken (h : Rebroken ts us) (unit? : Option String) (fresh : Bool) :
    (indentFrom unit? fresh ts).Alike Rebroken (indentFrom unit? fresh us) := by
  induction h generalizing unit? fresh with
  | nil => exact .nil
  | @same t u ts us word rest ih =>
    obtain ⟨hk, ht⟩ := Prod.mk.inj word
    rw [indentFrom.eq_def, indentFrom.eq_def]
    dsimp only
    rw [← hk, ← ht, ← endsLine_rebroken rest]
    split
    next =>
      split
      next =>
        split
        next => exact (ih _ _).bind fun _ _ hr => .same rfl hr
        next => rfl
      next => exact ih _ _
    next => exact (ih _ _).bind fun _ _ hr => .same rfl hr
    next => exact (ih _ _).bind fun _ _ hr => .same word hr
  | @merged t t' u ts us first second one rest ih =>
    simp only [indentFrom, first, second, one, bind_assoc, pure_bind]
    exact (ih _ _).bind fun _ _ hr => .merged rfl rfl rfl hr

theorem map_word_filter {first first' : List Token} {others others' : List (List Token)}
    (hfirst : first.map Token.word = first'.map Token.word)
    (hothers : (others.filter (!·.isEmpty)).map (List.map Token.word) =
      (others'.filter (!·.isEmpty)).map (List.map Token.word)) :
    ((first :: others).filter (!·.isEmpty)).map (List.map Token.word) =
      ((first' :: others').filter (!·.isEmpty)).map (List.map Token.word) := by
  cases first with
  | nil =>
    obtain rfl : first' = [] := List.map_eq_nil_iff.mp hfirst.symm
    exact hothers
  | cons t first =>
    cases first' with
    | nil => cases hfirst
    | cons u first' =>
      simp only [List.filter_cons, List.isEmpty_cons, Bool.not_false, if_true, List.map_cons]
      rw [hothers]
      exact congrArg (· :: _) hfirst

/-- So the lines say the same. -/
theorem lines_rebroken (h : Rebroken ts us) :
    (lines ts).map (List.map Token.word) = (lines us).map (List.map Token.word) := by
  have key : ((splitWhere (·.kind == .newline) ts).headD []).map Token.word =
        ((splitWhere (·.kind == .newline) us).headD []).map Token.word ∧
      ((splitWhere (·.kind == .newline) ts).tail.filter (!·.isEmpty)).map (List.map Token.word) =
        ((splitWhere (·.kind == .newline) us).tail.filter (!·.isEmpty)).map
          (List.map Token.word) := by
    induction h with
    | nil => exact ⟨rfl, rfl⟩
    | @same t u ts us word rest ih =>
      rw [splitWhere_cons, splitWhere_cons, (Prod.mk.inj word).1]
      split
      next => exact ⟨rfl, map_word_filter ih.1 ih.2⟩
      next =>
        refine ⟨?_, ih.2⟩
        rw [List.headD_cons, List.headD_cons, List.map_cons, List.map_cons, word, ih.1]
    | @merged t t' u ts us first second one rest ih =>
      have hwhole := map_word_filter ih.1 ih.2
      simp only [splitWhere_cons, first, second, one, beq_self_eq_true, if_true]
      exact ⟨rfl, hwhole⟩
  exact map_word_filter key.1 key.2

end

end Offside
