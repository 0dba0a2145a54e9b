import Offside.Proofs.LineLexing
import Mathlib.Data.List.Induction
import Mathlib.Data.Prod.Lex
import Mathlib.Order.Bounds.Basic

namespace Offside

/-- Whether a text can be cut after so many bytes without cutting a character. -/
def IsBoundary (text : List Char) (offset : Nat) : Prop :=
  ∃ before, before <+: text ∧ byteLength before = offset

/-- Lines, each with the line feed behind it. -/
def fedLines (lines : List (List Char)) : List Char :=
  lines.flatMap (· ++ ['\n'])

/-- A line and a column, both counted from one, say where a beginning of a text ends: before it come
the lines above, and so many characters of the line itself. -/
structure IsPlaceAfter (text before : List Char) (line column : Nat) (lineText : List Char) : Prop where
  positive : 1 ≤ line ∧ 1 ≤ column
  isLine : (textLines text)[line - 1]? = some lineText
  inLine : column - 1 ≤ lineText.length
  upTo : before = fedLines ((textLines text).take (line - 1)) ++ lineText.take (column - 1)

section

variable {text before after more line : List Char} {above : List (List Char)} {room : Nat}

theorem byteLength_mono (h : before <+: text) : byteLength before ≤ byteLength text := by
  obtain ⟨rest, rfl⟩ := h
  have hsum := byteLength_append before rest
  omega

theorem byteLength_takeBytes_le (room : Nat) (text : List Char) :
    byteLength (takeBytes room text) ≤ room := by
  fun_induction takeBytes room text with
  | case1 => exact Nat.zero_le _
  | case2 room c text h ih =>
    have hsum := byteLength_cons c (takeBytes (room - c.utf8Size) text)
    omega
  | case3 => exact Nat.zero_le _

/-- Every beginning of a text that fits into a number of bytes is taken. -/
theorem isPrefix_takeBytes (h : before <+: text) (hroom : byteLength before ≤ room) :
    before <+: takeBytes room text := by
  induction before generalizing room text with
  | nil => exact List.nil_prefix
  | cons c before ih =>
    obtain ⟨rest, rfl⟩ := h
    have hsum := byteLength_cons c before
    rw [List.cons_append, takeBytes, if_pos (by omega)]
    have hrest := ih (List.prefix_append before rest) (by omega : byteLength before ≤ room - c.utf8Size)
    exact List.cons_prefix_cons.mpr ⟨rfl, hrest⟩

theorem takeBytes_isGreatest (room : Nat) (text : List Char) :
    IsGreatest {m | IsBoundary text m ∧ m ≤ min room (byteLength text)}
      (byteLength (takeBytes room text)) := by
  have hfront := takeBytes_isPrefix room text
  constructor
  · have hroom := byteLength_takeBytes_le room text
    have htext := byteLength_mono hfront
    exact ⟨⟨_, hfront, rfl⟩, by omega⟩
  · rintro m ⟨⟨before, hbefore, rfl⟩, hm⟩
    exact byteLength_mono (isPrefix_takeBytes hbefore (by omega))

theorem not_mem_takeWhile (text : List Char) : '\n' ∉ text.takeWhile (· != '\n') := by
  intro h
  have hplain := List.mem_takeWhile_imp h
  simp at hplain

theorem takeWhile_append_of_plain (h : '\n' ∉ line) (rest : List Char) :
    (line ++ rest).takeWhile (· != '\n') = line ++ rest.takeWhile (· != '\n') := by
  have hline : ∀ c ∈ line, (c != '\n') = true := by
    intro c hc
    have hplain := plain_of_not_mem h c hc
    simpa using hplain
  exact List.takeWhile_append_of_pos hline

theorem lastLine_append (text : List Char) (h : '\n' ∉ more) :
    lastLine (text ++ more) = lastLine text ++ more := by
  have hmore : '\n' ∉ more.reverse := fun hm => h (List.mem_reverse.mp hm)
  unfold lastLine
  rw [List.reverse_append, takeWhile_append_of_plain hmore, List.reverse_append,
    List.reverse_reverse]

theorem not_mem_lastLine (text : List Char) : '\n' ∉ lastLine text :=
  fun h => not_mem_takeWhile text.reverse (List.mem_reverse.mp h)

/-- A text consists of the lines above its last one, which are as many as it has line feeds, and of its
last line. -/
theorem exists_lines_above (text : List Char) :
    ∃ above : List (List Char), (∀ line ∈ above, '\n' ∉ line) ∧ above.length = text.count '\n' ∧
      text = fedLines above ++ lastLine text := by
  induction text using List.reverseRecOn with
  | nil => exact ⟨[], by simp, rfl, rfl⟩
  | append_singleton text c ih =>
    obtain ⟨above, hplain, hlength, htext⟩ := ih
    by_cases hc : c = '\n'
    · refine ⟨above ++ [lastLine text], ?_, ?_, ?_⟩
      · intro line hline
        rcases List.mem_append.mp hline with hline | hline
        · exact hplain line hline
        · have heq := List.mem_singleton.mp hline
          exact heq ▸ not_mem_lastLine text
      · simp [hc, hlength]
      · have hlast : lastLine (text ++ [c]) = [] := by simp [lastLine, hc]
        have hfed : fedLines (above ++ [lastLine text]) = text ++ ['\n'] := by
          conv => rhs; rw [htext]
          simp [fedLines]
        rw [hlast, hfed, hc, List.append_nil]
    · have hmore : '\n' ∉ [c] := by simpa using fun he : '\n' = c => hc he.symm
      refine ⟨above, hplain, ?_, ?_⟩
      · simp [hlength, hc]
      · rw [lastLine_append text hmore, ← List.append_assoc, ← htext]

theorem textLines_fedLines (h : ∀ line ∈ above, '\n' ∉ line) (rest : List Char) :
    textLines (fedLines above ++ rest) = above ++ textLines rest := by
  induction above with
  | nil => rfl
  | cons line above ih =>
    obtain ⟨hline, habove⟩ := List.forall_mem_cons.mp h
    have hfed : fedLines (line :: above) ++ rest = line ++ '\n' :: (fedLines above ++ rest) := by
      simp [fedLines]
    rw [hfed, textLines_append_break hline, ih habove]
    rfl

/-- The first line of a text goes up to its first line feed. -/
theorem head_textLines (text : List Char) :
    (textLines text)[0]? = some (text.takeWhile (· != '\n')) := by
  have hplain := not_mem_takeWhile text
  have hsplit := List.takeWhile_append_dropWhile (p := fun c => c != '\n') (l := text)
  cases hdrop : text.dropWhile (· != '\n') with
  | nil =>
    rw [hdrop, List.append_nil] at hsplit
    rw [hsplit] at hplain ⊢
    rw [textLines_of_not_mem hplain]
    rfl
  | cons c below =>
    have hbreak : c = '\n' := by
      have hhead := List.head_dropWhile_not (fun c => c != '\n') (l := text) (by simp [hdrop])
      simpa [hdrop] using hhead
    rw [hdrop, hbreak] at hsplit
    have hlines : textLines (text.takeWhile (· != '\n') ++ '\n' :: below) =
        text.takeWhile (· != '\n') :: textLines below := textLines_append_break hplain
    rw [hsplit] at hlines
    rw [hlines]
    rfl

end

namespace Position

variable {source : Source} {before : List Char} {p : Position}

/-- Line and column of a position say where the text before it ends. -/
theorem isPlaceAfter (p : Position) :
    IsPlaceAfter p.text p.preceding p.line p.column p.lineText := by
  obtain ⟨above, hplain, hlength, hbefore⟩ := exists_lines_above p.preceding
  have htext : p.text = fedLines above ++ (lastLine p.preceding ++ p.following) := by
    rw [← List.append_assoc, ← hbefore, preceding_append_following]
  have hlines : textLines p.text = above ++ textLines (lastLine p.preceding ++ p.following) := by
    rw [htext, textLines_fedLines hplain]
  have hline : p.line - 1 = above.length := by
    unfold line
    omega
  have hcolumn : p.column - 1 = (lastLine p.preceding).length := by
    unfold column
    omega
  have hfirst := head_textLines (lastLine p.preceding ++ p.following)
  rw [takeWhile_append_of_plain (not_mem_lastLine _)] at hfirst
  refine ⟨⟨Nat.le_add_left _ _, Nat.le_add_left _ _⟩, ?_, ?_, ?_⟩
  · rw [hlines, hline, List.getElem?_append_right (Nat.le_refl _), Nat.sub_self]
    exact hfirst
  · rw [hcolumn, lineText, List.length_append]
    omega
  · have habove : (textLines p.text).take (p.line - 1) = above := by
      rw [hlines, hline, List.take_left]
    have hlast : p.lineText.take (p.column - 1) = lastLine p.preceding := by
      rw [hcolumn, lineText, List.take_left]
    rw [habove, hlast]
    exact hbefore

theorem preceding_at_boundary (h : before <+: source.text.toList) :
    (within source (byteLength before)).preceding = before := by
  obtain ⟨after, hafter⟩ := h
  show takeBytes (byteLength before) source.text.toList = before
  rw [← hafter, takeBytes_byteLength]

/-- Behind more text is a later line, or a later column of the same line. -/
theorem lex_lt_of_append {earlier later : Position} {c : Char} {more : List Char}
    (h : later.preceding = earlier.preceding ++ c :: more) :
    toLex (earlier.line, earlier.column) < toLex (later.line, later.column) := by
  rw [Prod.Lex.toLex_lt_toLex]
  have happend : (earlier.preceding ++ c :: more).count '\n' =
      earlier.preceding.count '\n' + (c :: more).count '\n' := List.count_append
  unfold line column
  rw [h]
  by_cases hbreak : '\n' ∈ c :: more
  · left
    have hcount := List.count_pos_iff.mpr hbreak
    show earlier.preceding.count '\n' + 1 < (earlier.preceding ++ c :: more).count '\n' + 1
    omega
  · right
    have hcount := List.count_eq_zero.mpr hbreak
    have hlast := lastLine_append earlier.preceding hbreak
    constructor
    · show earlier.preceding.count '\n' + 1 = (earlier.preceding ++ c :: more).count '\n' + 1
      omega
    · simp [hlast]

theorem strictMonoOn_line_column (source : Source) :
    StrictMonoOn (fun offset => toLex ((within source offset).line, (within source offset).column))
      {m | IsBoundary source.text.toList m} := by
  rintro m ⟨before, hbefore, rfl⟩ n ⟨before', hbefore', rfl⟩ hlt
  have hfront : before <+: before' := by
    rcases List.prefix_or_prefix_of_prefix hbefore hbefore' with h | h
    · exact h
    · have hle := byteLength_mono h
      omega
  obtain ⟨more, hmore⟩ := hfront
  cases more with
  | nil =>
    have heq : before = before' := by simpa using hmore
    rw [heq] at hlt
    exact absurd hlt (Nat.lt_irrefl _)
  | cons c more =>
    have hearlier := preceding_at_boundary hbefore
    have hlater := preceding_at_boundary hbefore'
    have happend : (within source (byteLength before')).preceding =
        (within source (byteLength before)).preceding ++ c :: more := by
      rw [hearlier, hlater, hmore]
    exact lex_lt_of_append happend

end Position

/-- Line, column and line text of an offset agree. Together they say where the longest beginning of the
source ends that fits into so many bytes; so no two places between characters have the same line and
column, and a later one comes later in the order of lines and then of columns. -/
theorem line_column_identify_boundaries (source : Source) :
    (∀ offset, ∃ before, before <+: source.text.toList ∧
      IsGreatest {m | IsBoundary source.text.toList m ∧
        m ≤ min offset (byteLength source.text.toList)} (byteLength before) ∧
      IsPlaceAfter source.text.toList before (Position.within source offset).line
        (Position.within source offset).column (Position.within source offset).lineText) ∧
    StrictMonoOn (fun offset => toLex ((Position.within source offset).line,
      (Position.within source offset).column)) {m | IsBoundary source.text.toList m} ∧
    Set.InjOn (fun offset => ((Position.within source offset).line,
      (Position.within source offset).column)) {m | IsBoundary source.text.toList m} := by
  have hmono := Position.strictMonoOn_line_column source
  refine ⟨fun offset => ?_, hmono, ?_⟩
  · have hfront := takeBytes_isPrefix offset source.text.toList
    have hgreatest := takeBytes_isGreatest offset source.text.toList
    have hplace := (Position.within source offset).isPlaceAfter
    exact ⟨_, hfront, hgreatest, hplace⟩
  · intro m hm n hn heq
    exact hmono.injOn hm hn (congrArg toLex heq)

end Offside
