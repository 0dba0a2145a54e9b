import Offside.Proofs.VisibleLines

namespace Offside

/-- Whether a line is made of whitespace, a comment, or both in this order. -/
def isIdle (line : List Char) : Bool :=
  let rest := line.dropWhile isSpacing
  rest.isEmpty || Kind.comment.accepts rest

/-- The lines of a text that are not idle. -/
def busyLines (text : List Char) : List (List Char) :=
  (textLines text).filter (!isIdle ·)

/-- The lines of a text that are not idle, where the whitespace at its very beginning counts as
nothing. -/
def shownText (text : List Char) : List (List Char) :=
  busyLines (text.dropWhile isSpacing)

/-- Whether a text begins with whitespace in front of a token. -/
def beginsIndented (text : List Char) : Bool :=
  text.head?.any isSpacing && !isIdle ((textLines text).headD [])

/-- Whether one text is the other with one more line, somewhere below its first line. The last line
of a text may end with a line feed or not, before the insertion and after it. -/
inductive InsertsBelow (line : List Char) : List Char → List Char → Prop where
  | between (above below : List Char) :
    InsertsBelow line (above ++ '\n' :: below) (above ++ '\n' :: (line ++ '\n' :: below))
  | last (text : List Char) : InsertsBelow line text (text ++ '\n' :: line)
  | ended (text : List Char) : InsertsBelow line text (text ++ '\n' :: (line ++ ['\n']))
  | unended (above : List Char) : InsertsBelow line (above ++ ['\n']) (above ++ '\n' :: line)

/-- Whether one text is the other with one more line. -/
def InsertsLine (line text text' : List Char) : Prop :=
  text' = line ++ '\n' :: text ∨ InsertsBelow line text text'

section

variable {blank text line rest : List Char} {pieces : List (List Char)}

theorem kind_of_head_spacing {c : Char} {kind : Kind} (hc : isSpacing c = true)
    (h : kind.accepts (c :: text) = true) : kind = .whitespace := by
  rcases Kind.kind_of_head_foreign h (Kind.isForeign_of_isSpacing hc) with
    ⟨-, rfl⟩ | ⟨-, rfl | rfl⟩ | ⟨-, rfl⟩ | ⟨hk, -⟩
  · cases hc
  · cases hc
  · cases hc
  · cases hc
  · exact hk

theorem isPiece_blank (hne : blank ≠ []) (hb : ∀ c ∈ blank, isSpacing c = true) : IsPiece blank :=
  ⟨.whitespace, isRun_iff.mpr ⟨hne, hb⟩⟩

/-- Whitespace is one piece up to the first other character. -/
theorem isLongestPiece_blank (hne : blank ≠ []) (hb : ∀ c ∈ blank, isSpacing c = true)
    (hend : ∀ c ∈ text.head?, isSpacing c = false) : IsLongestPiece blank (blank ++ text) := by
  refine ⟨List.prefix_append _ _, isPiece_blank hne hb, ?_⟩
  intro other hfront hother
  rcases List.prefix_or_prefix_of_prefix hfront (List.prefix_append blank text) with hin | hout
  · exact hin.length_le
  · obtain ⟨more, rfl⟩ := hout
    obtain ⟨b, blank, rfl⟩ := List.exists_cons_of_ne_nil hne
    obtain ⟨kind, hk⟩ := hother
    obtain rfl := kind_of_head_spacing (hb b List.mem_cons_self) hk
    cases more with
    | nil => simp
    | cons c more =>
      obtain ⟨rest, rfl⟩ := (List.prefix_append_right_inj _).mp hfront
      have hc := (isRun_iff.mp hk).2 c (by simp)
      exact absurd hc (by simp [hend c rfl])

theorem wordOf?_blank (hne : blank ≠ []) (hb : ∀ c ∈ blank, isSpacing c = true) :
    wordOf? blank = some (.whitespace, String.ofList blank) := by
  obtain ⟨kind, hk, ha⟩ := (isPiece_blank hne hb).exists_kind
  obtain ⟨b, blank, rfl⟩ := List.exists_cons_of_ne_nil hne
  obtain rfl := kind_of_head_spacing (hb b List.mem_cons_self) ha
  rw [wordOf?, hk]
  rfl

/-- Cutting the whitespace off that a line begins with takes nothing else away. -/
theorem lineWords_spacing (line : List Char) :
    (IsLexed line ↔ IsLexed (line.dropWhile isSpacing)) ∧
      ∃ front, isBlankLine front = true ∧ (∀ w ∈ front, w.1 = .whitespace) ∧
        lineWords line = front ++ lineWords (line.dropWhile isSpacing) := by
  have hline := List.takeWhile_append_dropWhile (p := isSpacing) (l := line)
  by_cases hne : line.takeWhile isSpacing = []
  · rw [hne, List.nil_append] at hline
    rw [hline]
    exact ⟨.rfl, [], rfl, List.forall_mem_nil _, rfl⟩
  · have hb : ∀ c ∈ line.takeWhile isSpacing, isSpacing c = true :=
      fun c hc => List.mem_takeWhile_imp hc
    have hl : IsLongestPiece (line.takeWhile isSpacing)
        (line.takeWhile isSpacing ++ line.dropWhile isSpacing) :=
      isLongestPiece_blank hne hb head_dropWhile_not
    obtain ⟨hcut, hstuck⟩ := munch_cutsInto (line.dropWhile isSpacing)
    have hmunch := (CutsInto.piece hne hl hcut).munch_eq hstuck
    rw [hline] at hmunch
    rw [IsLexed, IsLexed, lineWords, hmunch, wordsOf,
      List.filterMap_cons_some (wordOf?_blank hne hb)]
    exact ⟨.rfl, [(.whitespace, _)], rfl, by simp, rfl⟩

theorem CutsInto.eq_nil (h : CutsInto rest [] pieces) : pieces = [] := by
  cases pieces with
  | nil => rfl
  | cons piece pieces =>
    have hflat := h.flatten
    rw [List.flatten_cons, List.append_assoc] at hflat
    have hne := (h.isPiece piece List.mem_cons_self).ne_nil
    exact absurd (List.append_eq_nil_iff.mp hflat.symm).1 hne

/-- A line that does not begin with whitespace says no whitespace at first. -/
theorem head_lineWords (hn : '\n' ∉ line) (hhead : ∀ c ∈ line.head?, isSpacing c = false) :
    ∀ w ∈ (lineWords line).head?, w.1 ≠ .whitespace := by
  obtain ⟨hcut, -⟩ := munch_cutsInto line
  rw [lineWords]
  generalize (munch line).1 = pieces, (munch line).2 = rest at hcut
  cases hcut with
  | done => simp [wordsOf]
  | @piece piece text pieces hne hl hcut =>
    obtain ⟨kind, hk, ha⟩ := hl.isPiece.exists_kind
    obtain ⟨c, piece, rfl⟩ := List.exists_cons_of_ne_nil hne
    by_cases hcomment : kind = .comment
    · -- nothing can stand behind a comment
      subst hcomment
      have htext : text = [] := by
        cases text with
        | nil => rfl
        | cons d text =>
          have hd := head_after_comment hl hk d rfl
          exact absurd (by simp [hd]) hn
      subst htext
      simp [hcut.eq_nil, wordsOf, wordOf?, hk]
    · have hw : wordOf? (c :: piece) = some (kind, String.ofList (c :: piece)) := by
        rw [wordOf?, hk, Option.bind_some, if_neg hcomment]
      rw [wordsOf, List.filterMap_cons_some hw]
      intro w hw hspace
      obtain rfl := Option.some.inj hw
      obtain rfl : kind = .whitespace := hspace
      have hc := (isRun_iff.mp ha).2 c List.mem_cons_self
      exact absurd hc (by simp [hhead c rfl])

theorem unindented_lineWords (hn : '\n' ∉ line) :
    unindented (lineWords line) = lineWords (line.dropWhile isSpacing) := by
  obtain ⟨-, front, -, hfront, hwords⟩ := lineWords_spacing line
  have hn' : '\n' ∉ line.dropWhile isSpacing :=
    fun hm => hn ((List.dropWhile_suffix _).subset hm)
  have hhead := head_lineWords hn' head_dropWhile_not
  rw [hwords, unindented, List.dropWhile_append_of_pos (by simpa using hfront)]
  cases hrest : lineWords (line.dropWhile isSpacing) with
  | nil => rfl
  | cons w ws =>
    rw [hrest] at hhead
    exact List.dropWhile_cons_of_neg (by simpa using hhead w rfl)

theorem firstKind?_comment (h : Kind.comment.accepts line = true) :
    firstKind? line = some .comment := by
  obtain ⟨kind, hk, ha⟩ := IsPiece.exists_kind ⟨.comment, h⟩
  obtain ⟨body, rfl, -⟩ := Kind.accepts_comment_iff.mp h
  rcases Kind.kind_of_head_foreign ha (by decide) with
    ⟨-, hc⟩ | ⟨-, hc⟩ | ⟨rfl, -⟩ | ⟨-, hc⟩
  · exact absurd hc (by decide)
  · exact absurd hc (by decide)
  · exact hk
  · exact absurd hc (by decide)

theorem lineWords_comment (h : Kind.comment.accepts line = true) :
    IsLexed line ∧ lineWords line = [] := by
  have hpiece : IsPiece line := ⟨.comment, h⟩
  have hl : IsLongestPiece line (line ++ []) := by
    rw [List.append_nil]
    exact ⟨List.prefix_rfl, hpiece, fun other hp _ => hp.length_le⟩
  have hmunch := (CutsInto.piece hpiece.ne_nil hl .done).munch_eq isStuck_nil
  rw [List.append_nil] at hmunch
  rw [IsLexed, lineWords, hmunch]
  simp [wordsOf, wordOf?, firstKind?_comment h]

/-- An idle line is lexed, and shows nothing. -/
theorem isLexed_of_isIdle (h : isIdle line = true) :
    IsLexed line ∧ isBlankLine (lineWords line) = true := by
  obtain ⟨hlexed, front, hblank, -, hwords⟩ := lineWords_spacing line
  have hrest : IsLexed (line.dropWhile isSpacing) ∧
      lineWords (line.dropWhile isSpacing) = [] := by
    rcases Bool.or_eq_true_iff.mp h with hnil | hnote
    · rw [List.isEmpty_iff.mp hnil]
      exact ⟨by rw [IsLexed, munch], by rw [lineWords, munch]; rfl⟩
    · exact lineWords_comment hnote
  rw [hlexed, hwords, hrest.2, List.append_nil]
  exact ⟨hrest.1, hblank⟩

theorem textLines_cons (c : Char) (text : List Char) :
    textLines (c :: text) = if c == '\n' then [] :: textLines text
      else (c :: (textLines text).headD []) :: (textLines text).tail :=
  splitWhere_cons _ c text

theorem textLines_dropWhile (text : List Char) :
    textLines (text.dropWhile isSpacing) =
      ((textLines text).headD []).dropWhile isSpacing :: (textLines text).tail := by
  induction text with
  | nil => rfl
  | cons c text ih =>
    rw [textLines_cons]
    cases hc : isSpacing c with
    | true =>
      have hne : (c == '\n') = false := by
        rw [beq_eq_false_iff_ne]
        rintro rfl
        cases hc
      rw [List.dropWhile_cons_of_pos hc, ih, hne]
      exact congrArg (· :: _) (List.dropWhile_cons_of_pos hc).symm
    | false =>
      rw [List.dropWhile_cons_of_neg (by simp [hc]), textLines_cons]
      split
      next => rfl
      next => exact congrArg (· :: _) (List.dropWhile_cons_of_neg (by simp [hc])).symm

/-- A text is lexed if its lines that show something are. -/
theorem forall_isLexed_iff (text : List Char) :
    (∀ line ∈ textLines text, IsLexed line) ↔ ∀ line ∈ shownText text, IsLexed line := by
  have hfirst := (lineWords_spacing ((textLines text).headD [])).1
  have hall : (∀ line ∈ textLines text, IsLexed line) ↔
      ∀ line ∈ textLines (text.dropWhile isSpacing), IsLexed line := by
    rw [textLines_dropWhile, List.forall_mem_cons, ← hfirst, ← List.forall_mem_cons]
    rfl
  rw [hall]
  constructor
  · exact fun h line hl => h line (List.mem_filter.mp hl).1
  · intro h line hl
    by_cases hidle : isIdle line = true
    · exact (isLexed_of_isIdle hidle).1
    · exact h line (List.mem_filter.mpr ⟨hl, by simpa using hidle⟩)

theorem not_mem_of_mem_textLines (h : line ∈ textLines text) : '\n' ∉ line :=
  fun hm => absurd (not_of_mem_splitWhere h '\n' hm) (by decide)

theorem visibleLines_eq (text : List Char) :
    visibleLines ((textLines text).map lineWords) =
      ((shownText text).map lineWords).filter (!isBlankLine ·) := by
  have htext : textLines text = (textLines text).headD [] :: (textLines text).tail := rfl
  have hn : '\n' ∉ (textLines text).headD [] := by
    refine not_mem_of_mem_textLines (?_ : _ ∈ textLines text)
    rw [htext]
    exact List.mem_cons_self
  rw [htext, List.map_cons, visibleLines, unindented_lineWords hn, ← List.map_cons,
    ← textLines_dropWhile, shownText, busyLines, List.filter_map, List.filter_map,
    List.filter_filter]
  congr 1
  refine List.filter_congr fun line _ => ?_
  cases hidle : isIdle line with
  | true => simp [(isLexed_of_isIdle hidle).2]
  | false => simp

/-- Lines that agree below the first but for empty ones show the same. -/
theorem AgreeButEmpty.visibleLines_eq {ls ms : List (List (Kind × String))}
    (h : AgreeButEmpty ls ms) : visibleLines ls = visibleLines ms := by
  have hblank : ∀ ks : List (List (Kind × String)), ks.filter (!isBlankLine ·) =
      (ks.filter (!·.isEmpty)).filter (!isBlankLine ·) := by
    intro ks
    rw [List.filter_filter]
    refine List.filter_congr fun k _ => ?_
    cases k with
    | nil => rfl
    | cons w k => simp
  have hothers := congrArg (List.filter (!isBlankLine ·)) h.others
  rw [← hblank, ← hblank] at hothers
  cases ls with
  | nil =>
    cases ms with
    | nil => rfl
    | cons m ms => cases h.first
  | cons l ls =>
    cases ms with
    | nil => cases h.first
    | cons m ms =>
      obtain rfl := Option.some.inj h.first
      rw [List.tail_cons, List.tail_cons] at hothers
      rw [visibleLines, visibleLines, List.filter_cons, List.filter_cons, hothers]

end

section

variable {source source' : Source} {tokens : List Token} {line text text' above below : List Char}

theorem classicLines_eq (h : classicTokens source = .ok tokens) :
    classicLines source = lines <$> indent tokens := by
  rw [classicLines, h]
  rfl

/-- A program depends on what the lines say that are not idle. -/
theorem unplaced_of_shownText (h : classicTokens source = .ok tokens)
    (hshown : shownText source.text.toList = shownText source'.text.toList) :
    (readProgram .classic source).unplaced = (readProgram .classic source').unplaced := by
  obtain ⟨hagree, hlexed⟩ := lines_of_classicTokens h
  have hlexed' : ∀ line ∈ textLines source'.text.toList, IsLexed line := by
    rwa [forall_isLexed_iff, ← hshown, ← forall_isLexed_iff]
  obtain ⟨tokens', h'⟩ := classicTokens_of_lines hlexed'
  have hagree' := (lines_of_classicTokens h').1
  have hvisible := hagree.visibleLines_eq
  rw [visibleLines_eq, hshown, ← visibleLines_eq, ← hagree'.visibleLines_eq] at hvisible
  apply unplaced_of_alike
  rw [classicLines_eq h, classicLines_eq h']
  exact (lines_indent_of_visible hvisible).imp fun _ _ _ hsay => layout_of_word hsay

theorem not_mem_of_isIdle (h : isIdle line = true) : '\n' ∉ line := by
  have hrest : '\n' ∉ line.dropWhile isSpacing := by
    rcases Bool.or_eq_true_iff.mp h with hnil | hnote
    · simp [List.isEmpty_iff.mp hnil]
    · obtain ⟨body, hbody, hn⟩ := Kind.accepts_comment_iff.mp hnote
      rw [hbody]
      simpa using hn
  rw [← List.takeWhile_append_dropWhile (p := isSpacing) (l := line)]
  intro hm
  rcases List.mem_append.mp hm with hm | hm
  · exact absurd (List.mem_takeWhile_imp hm) (by decide)
  · exact hrest hm

theorem busyLines_append (above below : List Char) :
    busyLines (above ++ '\n' :: below) = busyLines above ++ busyLines below := by
  rw [busyLines, textLines, splitWhere_append rfl, List.filter_append]
  rfl

theorem shownText_append (above below : List Char) :
    shownText (above ++ '\n' :: below) = shownText above ++ busyLines below := by
  have hdrop : (above ++ '\n' :: below).dropWhile isSpacing =
      above.dropWhile isSpacing ++ '\n' :: below := by
    rw [List.dropWhile_append, List.dropWhile_cons_of_neg (by decide)]
    split
    next hnil => rw [List.isEmpty_iff.mp hnil]; rfl
    next => rfl
  rw [shownText, hdrop, busyLines_append]
  rfl

theorem busyLines_of_isIdle (h : isIdle line = true) : busyLines line = [] := by
  rw [busyLines, textLines_of_not_mem (not_mem_of_isIdle h)]
  simp [h]

theorem busyLines_nil : busyLines [] = [] := by decide

theorem shownText_of_isIdle (h : isIdle line = true) : shownText line = [] := by
  apply busyLines_of_isIdle
  rwa [isIdle, List.dropWhile_idempotent]

theorem shownText_of_insertsBelow (h : InsertsBelow line text text') (idle : isIdle line = true) :
    shownText text' = shownText text := by
  cases h with
  | between above below =>
    simp only [shownText_append, busyLines_append, busyLines_of_isIdle idle, List.nil_append]
  | last => rw [shownText_append, busyLines_of_isIdle idle, List.append_nil]
  | ended =>
    rw [shownText_append, busyLines_append, busyLines_of_isIdle idle, busyLines_nil]
    simp
  | unended => rw [shownText_append, shownText_append, busyLines_of_isIdle idle, busyLines_nil]

theorem shownText_of_front (idle : isIdle line = true) (text : List Char) :
    shownText (line ++ '\n' :: text) = busyLines text := by
  rw [shownText_append, shownText_of_isIdle idle, List.nil_append]

theorem shownText_of_margin (h : beginsIndented text = false) :
    shownText text = busyLines text := by
  obtain ⟨first, others, htext⟩ : ∃ first others, textLines text = first :: others := ⟨_, _, rfl⟩
  rw [beginsIndented, htext, List.headD_cons] at h
  cases hidle : isIdle first with
  | true =>
    have hidle' : isIdle (first.dropWhile isSpacing) = true := by
      rwa [isIdle, List.dropWhile_idempotent]
    rw [shownText, busyLines, busyLines, textLines_dropWhile, htext, List.headD_cons,
      List.filter_cons_of_neg (by simp [hidle']), List.filter_cons_of_neg (by simp [hidle])]
    rfl
  | false =>
    rw [hidle, Bool.not_false, Bool.and_true] at h
    cases text with
    | nil => rfl
    | cons c text => rw [shownText, List.dropWhile_cons_of_neg (by simpa using h)]

end

/-- A line of whitespace or a comment makes no difference to a program, wherever it stands. Only in
front of a program that begins with whitespace it may: that whitespace indents nothing as long as no
line feed comes before it, and has to go when the line comes. -/
theorem readProgram_with_idle_line {source source' : Source} {tokens : List Token}
    {line : List Char} (lexed : classicTokens source = .ok tokens) (idle : isIdle line = true) :
    (InsertsLine line source.text.toList source'.text.toList →
      (source'.text.toList = line ++ '\n' :: source.text.toList →
        beginsIndented source.text.toList = false) →
      (readProgram .classic source').unplaced = (readProgram .classic source).unplaced) ∧
    (source'.text.toList = line ++ '\n' :: source.text.toList.dropWhile isSpacing →
      (readProgram .classic source').unplaced = (readProgram .classic source).unplaced) := by
  refine ⟨fun inserts margin => ?_, fun front => ?_⟩
  · refine (unplaced_of_shownText lexed ?_).symm
    rcases inserts with front | below
    · rw [front, shownText_of_front idle, shownText_of_margin (margin front)]
    · exact (shownText_of_insertsBelow below idle).symm
  · refine (unplaced_of_shownText lexed ?_).symm
    rw [front, shownText_of_front idle, shownText]

/-- A note between two steps, a title, and a title that takes the place of an indentation. -/
theorem readProgram_with_notes :
    let plain : Source := ⟨"", "do\n  a\n  b", 0⟩
    let noted : Source := ⟨"", "do\n  a\n # then\n  b", 0⟩
    let titled : Source := ⟨"", " # then\ndo\n  a\n  b", 0⟩
    let shifted : Source := ⟨"", "\tdo\n  a\n  b", 0⟩
    isIdle " # then".toList = true ∧
      (readProgram .classic noted).unplaced = (readProgram .classic plain).unplaced ∧
      (readProgram .classic titled).unplaced = (readProgram .classic plain).unplaced ∧
      (readProgram .classic titled).unplaced = (readProgram .classic shifted).unplaced ∧
      (readProgram .classic plain).toOption.isSome = true := by
  intro plain noted titled shifted
  let token (source : Source) (kind : Kind) (text : String) (start stop : Nat) : Token :=
    ⟨kind, text, ⟨.within source start, .within source stop⟩⟩
  have lexed : classicTokens plain = .ok [token plain .keyword "do" 0 2,
      token plain .newline "\n" 2 3, token plain .whitespace "  " 3 5, token plain .name "a" 5 6,
      token plain .newline "\n" 6 7, token plain .whitespace "  " 7 9,
      token plain .name "b" 9 10] := by decide +kernel
  have lexed' : classicTokens shifted = .ok [token shifted .whitespace "\t" 0 1,
      token shifted .keyword "do" 1 3, token shifted .newline "\n" 3 4,
      token shifted .whitespace "  " 4 6, token shifted .name "a" 6 7,
      token shifted .newline "\n" 7 8, token shifted .whitespace "  " 8 10,
      token shifted .name "b" 10 11] := by decide +kernel
  have idle : isIdle " # then".toList = true := by decide
  have below : InsertsBelow " # then".toList plain.text.toList noted.text.toList := by
    have hplain : plain.text.toList = "do\n  a".toList ++ '\n' :: "  b".toList := by decide
    have hnoted : noted.text.toList =
        "do\n  a".toList ++ '\n' :: (" # then".toList ++ '\n' :: "  b".toList) := by decide
    rw [hplain, hnoted]
    exact .between _ _
  refine ⟨idle, ?_, ?_, ?_, by decide +kernel⟩
  · exact (readProgram_with_idle_line lexed idle).1 (.inr below) fun _ => by decide
  · exact (readProgram_with_idle_line lexed idle).1 (.inl (by decide)) fun _ => by decide
  · exact (readProgram_with_idle_line lexed' idle).2 (by decide)

/-- In front of a line that begins with whitespace even an empty line makes a difference: two
closures stand side by side that were one in the other. -/
theorem not_readProgram_with_idle_line : ¬∀ (source source' : Source) (tokens : List Token)
    (line : List Char), classicTokens source = .ok tokens → isIdle line = true →
      InsertsLine line source.text.toList source'.text.toList →
        (readProgram .classic source').unplaced = (readProgram .classic source).unplaced := by
  intro h
  let source : Source := ⟨"", "  closure a\n  closure b", 0⟩
  let source' : Source := ⟨"", "\n  closure a\n  closure b", 0⟩
  let closures : Except Cause Block → Option Nat := fun result =>
    result.toOption.map fun program => program.symbols.length
  have hone : closures (readProgram .classic source).unplaced = some 1 := by decide +kernel
  have htwo : closures (readProgram .classic source').unplaced = some 2 := by decide +kernel
  let token (kind : Kind) (text : String) (start stop : Nat) : Token :=
    ⟨kind, text, ⟨.within source start, .within source stop⟩⟩
  have lexed : classicTokens source = .ok [token .whitespace "  " 0 2,
      token .keyword "closure" 2 9, token .whitespace " " 9 10, token .name "a" 10 11,
      token .newline "\n" 11 12, token .whitespace "  " 12 14, token .keyword "closure" 14 21,
      token .whitespace " " 21 22, token .name "b" 22 23] := by decide +kernel
  have heq := h source source' _ [] lexed rfl (.inl (by decide))
  rw [heq, hone] at htwo
  cases htwo

end Offside
