import Offside.Proofs.CommentDeletion

namespace Offside

/-- The lines of a text, without the line feeds between them. -/
def textLines (text : List Char) : List (List Char) :=
  splitWhere (· == '\n') text

/-- Whether a text consists of tokens and comments. -/
def IsLexed (text : List Char) : Prop :=
  (munch text).2 = []

/-- What a piece says, unless it is a comment. -/
def wordOf? (piece : List Char) : Option (Kind × String) :=
  (firstKind? piece).bind fun kind =>
    if kind = .comment then none else some (kind, String.ofList piece)

def wordsOf (pieces : List (List Char)) : List (Kind × String) :=
  pieces.filterMap wordOf?

/-- What a line says when it is read by itself. -/
def lineWords (line : List Char) : List (Kind × String) :=
  wordsOf (munch line).1

def wordLines (words : List (Kind × String)) : List (List (Kind × String)) :=
  splitWhere (·.1 == .newline) words

/-- Whether two lists of lines have the same first line, and below it the same lines but for
empty ones. -/
structure AgreeButEmpty {α : Type} (ls ms : List (List α)) : Prop where
  first : ls.head? = ms.head?
  others : ls.tail.filter (!·.isEmpty) = ms.tail.filter (!·.isEmpty)

section

variable {text line below rest : List Char} {pieces : List (List Char)}

theorem plain_of_not_mem (h : '\n' ∉ line) : ∀ c ∈ line, (c == '\n') = false := by
  intro c hc
  rw [beq_eq_false_iff_ne]
  rintro rfl
  exact h hc

theorem textLines_of_not_mem (h : '\n' ∉ line) : textLines line = [line] :=
  splitWhere_plain (plain_of_not_mem h)

theorem textLines_append_break (h : '\n' ∉ line) :
    textLines (line ++ '\n' :: below) = line :: textLines below :=
  splitWhere_append_cons (plain_of_not_mem h) rfl

theorem isStuck_nil : IsStuck [] :=
  fun _ hp hne => absurd (List.prefix_nil.mp hp) hne

/-- Pieces of a line stay what they are in front of a line feed. -/
theorem CutsInto.before_break (h : CutsInto rest line pieces) (hn : '\n' ∉ line) :
    CutsInto (rest ++ '\n' :: below) (line ++ '\n' :: below) pieces := by
  induction h with
  | done => exact .done
  | @piece piece text pieces hne hl _ ih =>
    obtain ⟨hpiece, htext⟩ := not_or.mp (mt List.mem_append.mpr hn)
    rw [List.append_assoc]
    refine .piece hne ?_ (ih htext)
    rw [← List.append_nil text] at hl
    exact hl.cut_short (fun c hc => (Option.some.inj hc).symm) fun _ => hpiece

/-- Where a line cannot be cut any further, neither can a text that goes on behind it. -/
theorem IsStuck.before_break {c : Char} (h : IsStuck (c :: rest)) (hn : '\n' ∉ c :: rest) :
    IsStuck (c :: rest ++ '\n' :: below) := by
  intro piece hfront hne hpiece
  rcases List.prefix_or_prefix_of_prefix hfront (List.prefix_append _ _) with hin | hout
  · exact h piece hin hne hpiece
  · -- the piece goes past the beginning of the rest, so it has to hold the line feed
    obtain ⟨more, rfl⟩ := hout
    cases more with
    | nil => exact h _ (by simp) (by simp) hpiece
    | cons d more =>
      rw [List.prefix_append_right_inj, List.cons_prefix_cons] at hfront
      obtain ⟨rfl, -⟩ := hfront
      have hc := hpiece.eq_newlines (by simp) c (by simp)
      exact hn (hc ▸ List.mem_cons_self)

theorem isLongestPiece_break (h : ∀ c ∈ text.head?, c ≠ '\n') :
    IsLongestPiece ['\n'] ('\n' :: text) := by
  refine ⟨List.prefix_append ['\n'] text, isPiece_newlines (by simp) (by simp), ?_⟩
  intro other hfront hother
  match other, hfront with
  | [], _ => exact Nat.zero_le _
  | [_], _ => exact Nat.le_refl _
  | c :: d :: other, hfront =>
    obtain ⟨rfl, more, rfl⟩ := List.cons_prefix_cons.mp hfront
    exact absurd (hother.eq_newlines List.mem_cons_self d (by simp)) (h d rfl)

theorem IsStuck.head_ne_newline (h : IsStuck rest) : ∀ c ∈ rest.head?, c ≠ '\n' := by
  rintro c hc rfl
  cases rest with
  | nil => cases hc
  | cons d rest =>
    obtain rfl := Option.some.inj hc
    exact h ['\n'] (List.prefix_append ['\n'] rest) (by simp)
      (isPiece_newlines (by simp) (by simp))

theorem wordsOf_cons_of_newlines (hne : line ≠ []) (h : ∀ c ∈ line, c = '\n') :
    wordsOf (line :: pieces) = (.newline, String.ofList line) :: wordsOf pieces := by
  have hw : wordOf? line = some (.newline, String.ofList line) := by
    rw [wordOf?, firstKind?_newlines hne h]
    rfl
  rw [wordsOf, List.filterMap_cons_some hw]
  rfl

theorem kind_ne_newline_of_mem_wordsOf {w : Kind × String} (hw : w ∈ wordsOf pieces)
    (hn : '\n' ∉ pieces.flatten) : (w.1 == .newline) = false := by
  obtain ⟨piece, hpiece, hw⟩ := List.mem_filterMap.mp hw
  obtain ⟨kind, hk, hw⟩ := Option.bind_eq_some_iff.mp hw
  split at hw
  next => cases hw
  next =>
    obtain rfl := Option.some.inj hw
    have ha := accepts_of_firstKind? hk
    rw [beq_eq_false_iff_ne]
    rintro rfl
    obtain ⟨hne, hall⟩ := isRun_iff.mp ha
    obtain ⟨c, hc⟩ := List.exists_mem_of_ne_nil _ hne
    have hc' : c = '\n' := by simpa using hall c hc
    exact hn (List.mem_flatten.mpr ⟨piece, hpiece, hc' ▸ hc⟩)

/-- A line feed in front of a text is a piece, or belongs to the first one. Either way one more
line begins. -/
theorem CutsInto.after_break (h : CutsInto rest below pieces) (hs : IsStuck rest) :
    ∃ pieces', CutsInto rest ('\n' :: below) pieces' ∧
      AgreeButEmpty (wordLines (wordsOf pieces')) ([] :: wordLines (wordsOf pieces)) := by
  have alone : (∀ c ∈ below.head?, c ≠ '\n') →
      CutsInto rest ('\n' :: below) (['\n'] :: pieces) ∧
        AgreeButEmpty (wordLines (wordsOf (['\n'] :: pieces)))
          ([] :: wordLines (wordsOf pieces)) := by
    intro hhead
    refine ⟨.piece (by simp) (isLongestPiece_break hhead) h, ?_⟩
    rw [wordsOf_cons_of_newlines (by simp) (by simp), wordLines, splitWhere_cons]
    exact ⟨rfl, rfl⟩
  cases h with
  | done => exact ⟨_, alone hs.head_ne_newline⟩
  | @piece piece text pieces hne hl hcut =>
    by_cases hn : '\n' ∈ piece
    · have hpiece := hl.isPiece.eq_newlines hn
      have hpiece' : ∀ c ∈ '\n' :: piece, c = '\n' := by simpa using hpiece
      have hl' : IsLongestPiece (['\n'] ++ piece) (['\n'] ++ piece ++ text) :=
        hl.newlines_append (by simp) (by simp) hpiece
      refine ⟨('\n' :: piece) :: pieces, .piece (by simp) hl' hcut, ?_⟩
      rw [wordsOf_cons_of_newlines hne hpiece, wordsOf_cons_of_newlines (by simp) hpiece',
        wordLines, wordLines, splitWhere_cons, splitWhere_cons]
      exact ⟨rfl, rfl⟩
    · refine ⟨_, alone ?_⟩
      rintro c hc rfl
      cases piece with
      | nil => exact hne rfl
      | cons d piece => exact hn (Option.some.inj hc ▸ List.mem_cons_self)

theorem AgreeButEmpty.filter {α : Type} {ls ms : List (List α)} (h : AgreeButEmpty ls ms) :
    ls.filter (!·.isEmpty) = ms.filter (!·.isEmpty) := by
  have hsplit : ∀ ks : List (List α), ks.filter (!·.isEmpty) =
      ks.head?.toList.filter (!·.isEmpty) ++ ks.tail.filter (!·.isEmpty) := by
    intro ks
    rw [← List.filter_append]
    cases ks <;> rfl
  rw [hsplit ls, hsplit ms, h.first, h.others]

theorem wordLines_of_line (h : CutsInto rest line pieces) (hn : '\n' ∉ line)
    (more : List (Kind × String)) :
    wordLines (wordsOf pieces ++ more) =
      (wordsOf pieces ++ (wordLines more).headD []) :: (wordLines more).tail := by
  refine splitWhere_append_plain fun w hw => kind_ne_newline_of_mem_wordsOf hw fun hm => hn ?_
  rw [h.flatten]
  exact List.mem_append_left _ hm

/-- A text is lexed line by line: it can be cut if each of its lines can, and then says what its
lines say. -/
theorem munch_lines (text : List Char) :
    (IsLexed text ↔ ∀ line ∈ textLines text, IsLexed line) ∧
      (IsLexed text →
        AgreeButEmpty (wordLines (lineWords text)) ((textLines text).map lineWords)) := by
  induction hlength : text.length using Nat.strongRecOn generalizing text with
  | _ n ih =>
  subst hlength
  by_cases hn : '\n' ∈ text
  · obtain ⟨line, below, rfl, hline⟩ := List.eq_append_cons_of_mem hn
    obtain ⟨hlexed, hsaid⟩ := ih below.length (by simp; omega) below rfl
    obtain ⟨hfirst, hstuck⟩ := munch_cutsInto line
    obtain ⟨hothers, hend⟩ := munch_cutsInto below
    rw [textLines_append_break hline, List.forall_mem_cons, List.map_cons, ← hlexed]
    unfold IsLexed at *
    cases hrest : (munch line).2 with
    | nil =>
      rw [hrest] at hfirst
      obtain ⟨pieces, hbreak, hagree⟩ := hothers.after_break hend
      have hmunch := ((hfirst.before_break hline).append hbreak).munch_eq hend
      rw [lineWords, hmunch, wordsOf, List.filterMap_append]
      refine ⟨by simp, fun h => ?_⟩
      rw [← wordsOf, ← wordsOf, wordLines_of_line hfirst hline,
        List.headD_eq_head?_getD, hagree.first]
      refine ⟨congrArg some (List.append_nil _), ?_⟩
      exact hagree.others.trans (hsaid h).filter
    | cons c rest =>
      rw [hrest] at hfirst hstuck
      have hrest' : '\n' ∉ c :: rest := by
        intro hm
        rw [hfirst.flatten] at hline
        exact hline (List.mem_append_right _ hm)
      rw [(hfirst.before_break hline).munch_eq (hstuck.before_break hrest')]
      simp
  · obtain ⟨hcut, -⟩ := munch_cutsInto text
    rw [textLines_of_not_mem hn]
    refine ⟨by simp, fun _ => ?_⟩
    have hlines := wordLines_of_line hcut hn []
    rw [List.append_nil] at hlines
    rw [lineWords, hlines]
    exact ⟨congrArg some (List.append_nil _), rfl⟩

theorem word_place (source : Source) (offset : Nat) (pieces : List (List Char)) :
    (dropComments (place source firstKind? offset pieces)).map Token.word = wordsOf pieces := by
  induction pieces generalizing offset with
  | nil => rfl
  | cons piece pieces ih =>
    rw [place, wordsOf, List.filterMap_cons, wordOf?]
    cases firstKind? piece with
    | none => exact ih _
    | some kind =>
      by_cases hk : kind = .comment
      · subst hk
        exact ih _
      · have hk' : (kind != .comment) = true := by simpa using hk
        simp only [dropComments, List.filter_cons, hk', if_true, Option.bind_some, if_neg hk,
          List.map_cons]
        exact congrArg (_ :: ·) (ih _)

/-- The tokens of a source, broken at its line feeds, say what its lines say one by one. -/
theorem lines_of_classicTokens {source : Source} {tokens : List Token}
    (h : classicTokens source = .ok tokens) :
    AgreeButEmpty ((splitWhere (·.kind == .newline) tokens).map (List.map Token.word))
        ((textLines source.text.toList).map lineWords) ∧
      ∀ line ∈ textLines source.text.toList, IsLexed line := by
  obtain ⟨pieces, hcut, rfl⟩ := classicTokens_eq_ok_iff.mp h
  have hmunch := hcut.munch_eq isStuck_nil
  have hlexed : IsLexed source.text.toList := by rw [IsLexed, hmunch]
  obtain ⟨hlines, hsaid⟩ := munch_lines source.text.toList
  refine ⟨?_, hlines.mp hlexed⟩
  have hagree := hsaid hlexed
  rwa [lineWords, hmunch, ← word_place source 0, wordLines, splitWhere_map] at hagree

theorem classicTokens_of_lines {source : Source}
    (h : ∀ line ∈ textLines source.text.toList, IsLexed line) :
    ∃ tokens, classicTokens source = .ok tokens := by
  have hlexed := (munch_lines source.text.toList).1.mpr h
  obtain ⟨hcut, -⟩ := munch_cutsInto source.text.toList
  rw [hlexed] at hcut
  exact ⟨_, classicTokens_of_cutsInto hcut⟩

end

end Offside
