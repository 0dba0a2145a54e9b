import Offside.Proofs.LineColumn
import Offside.Report

namespace Offside

/-- Whether a character between two parts of a text is to be seen in an excerpt of its line: it is no
line feed, and belongs neither to the indentation of the line nor to the blanks at its end. -/
structure IsShown (before : List Char) (c : Char) (after : List Char) : Prop where
  inLine : c ≠ '\n'
  pastIndent : ¬∀ d ∈ lastLine before ++ [c], isIndent d = true
  beforeEnd : ¬∀ d ∈ c :: after.takeWhile (· != '\n'), isBlank d = true

/-- A report has a gutter, an excerpt and a caret line one below the other. Their bars are in one
column, and in the column of the caret the excerpt has a certain character. -/
structure PointsAt (d : Diagnostic) (c : Char) (place gutter excerpt caret : String)
    (bar gap : Nat) : Prop where
  report : d.report = String.join
    ((d.cause.headline :: place :: gutter :: excerpt :: caret :: tipLine d.cause).map (· ++ "\n"))
  lines : ∀ line ∈ [gutter, excerpt, caret], '\n' ∉ line.toList
  aboveBar : gutter.toList = List.replicate bar ' ' ++ ['|']
  atBar : excerpt.toList.take (bar + 1) = (toString d.position.line).toList ++ [' ', '|']
  belowBar : caret.toList = List.replicate bar ' ' ++ '|' :: (List.replicate gap ' ' ++ ['^'])
  aboveCaret : excerpt.toList[bar + 1 + gap]? = some c

section

variable {p : Char → Bool} {xs ys before after rest : List Char} {c : Char}

theorem length_takeWhile_le (h : ¬∀ d ∈ xs ++ [c], p d = true) (ys : List Char) :
    ((xs ++ c :: ys).takeWhile p).length ≤ xs.length := by
  induction xs with
  | nil =>
    have hc : p c = false := by simpa using h
    simp [hc]
  | cons x xs ih =>
    by_cases hx : p x = true
    · have hrest : ¬∀ d ∈ xs ++ [c], p d = true := by
        intro hall
        exact h (List.forall_mem_cons.mpr ⟨hx, hall⟩)
      have hle := ih hrest
      simpa [hx] using hle
    · simp [hx]

theorem dropWhile_eq_drop (xs : List Char) :
    xs.dropWhile p = xs.drop (xs.takeWhile p).length :=
  calc xs.dropWhile p = (xs.takeWhile p ++ xs.dropWhile p).drop (xs.takeWhile p).length :=
        List.drop_left.symm
    _ = xs.drop (xs.takeWhile p).length := by rw [List.takeWhile_append_dropWhile]

/-- Blanks are taken from the end of a text only behind what is no blank. -/
theorem trimEnd_append (h : ¬∀ d ∈ ys, isBlank d = true) (xs : List Char) :
    trimEnd (xs ++ ys) = xs ++ trimEnd ys := by
  have hstop : (ys.reverse.dropWhile isBlank).isEmpty = false := by
    by_contra hempty
    have hnil : ys.reverse.dropWhile isBlank = [] := by simpa using hempty
    have hall := List.dropWhile_eq_nil_iff.mp hnil
    exact h fun d hd => hall d (List.mem_reverse.mpr hd)
  unfold trimEnd
  rw [List.reverse_append, List.dropWhile_append, hstop]
  simp

theorem trimEnd_isPrefix (xs : List Char) : trimEnd xs <+: xs := by
  have hsuffix := List.dropWhile_suffix isBlank (l := xs.reverse)
  have hfront := List.reverse_prefix.mpr hsuffix
  rwa [List.reverse_reverse] at hfront

theorem trimEnd_cons (h : ¬∀ d ∈ c :: ys, isBlank d = true) : ∃ rest, trimEnd (c :: ys) = c :: rest := by
  have hfront := trimEnd_isPrefix (c :: ys)
  cases hshown : trimEnd (c :: ys) with
  | nil =>
    -- nothing is left only if all is blank
    have hnil : (c :: ys).reverse.dropWhile isBlank = [] := List.reverse_eq_nil_iff.mp hshown
    have hall := List.dropWhile_eq_nil_iff.mp hnil
    exact absurd (fun d hd => hall d (List.mem_reverse.mpr hd)) h
  | cons d rest =>
    rw [hshown] at hfront
    obtain ⟨rfl, -⟩ := List.cons_prefix_cons.mp hfront
    exact ⟨rest, rfl⟩

/-- An excerpt begins behind the indentation and reaches at least up to a character that is shown. -/
theorem excerpt_eq (hindent : ¬∀ d ∈ xs ++ [c], isIndent d = true)
    (hend : ¬∀ d ∈ c :: ys, isBlank d = true) :
    ∃ rest, excerpt (xs ++ c :: ys) =
      xs.drop ((xs ++ c :: ys).takeWhile isIndent).length ++ c :: rest := by
  have hle := length_takeWhile_le hindent ys
  obtain ⟨rest, hrest⟩ := trimEnd_cons hend
  refine ⟨rest, ?_⟩
  unfold excerpt
  rw [dropWhile_eq_drop, List.drop_append_of_le_length hle, trimEnd_append hend, hrest]

/-- The caret comes as far behind the bar as the character in its line behind the indentation. -/
theorem caretColumn_eq (hindent : ¬∀ d ∈ xs ++ [c], isIndent d = true) (ys : List Char) :
    caretColumn (xs ++ c :: ys) (xs.length + 1) =
      (xs.drop ((xs ++ c :: ys).takeWhile isIndent).length).length + 1 := by
  have hle := length_takeWhile_le hindent ys
  unfold caretColumn
  rw [List.length_drop]
  omega

theorem excerpt_sublist (line : List Char) : List.Sublist (excerpt line) line :=
  (trimEnd_isPrefix _).sublist.trans (List.dropWhile_suffix isIndent).sublist

theorem toList_alignRight (n : Nat) (c : Char) :
    (alignRight (n + 1) (String.singleton c)).toList = List.replicate n ' ' ++ [c] := by
  simp [alignRight]

theorem not_mem_toString (n : Nat) : '\n' ∉ (toString n).toList := by
  intro h
  have hdigits : (toString n).toList = Nat.toDigits 10 n := String.toList_ofList
  rw [hdigits] at h
  have hdigit := Nat.isDigit_of_mem_toDigits (by decide) (by decide) h
  exact absurd hdigit (by decide)

end

namespace Position

variable {source : Source} {before after : List Char} {c : Char}

theorem lineText_of_split (hs : source.text.toList = before ++ c :: after) (hc : c ≠ '\n') :
    (within source (byteLength before)).lineText =
      lastLine before ++ c :: after.takeWhile (· != '\n') := by
  have hfront : before <+: source.text.toList := by
    rw [hs]
    exact List.prefix_append _ _
  have hpreceding := preceding_at_boundary hfront
  have hfollowing : (within source (byteLength before)).following = c :: after := by
    have hwhole := preceding_append_following (within source (byteLength before))
    rw [hpreceding] at hwhole
    exact List.append_cancel_left (hwhole.trans hs)
  unfold lineText
  rw [hpreceding, hfollowing]
  simp [hc]

theorem column_of_split (hs : source.text.toList = before ++ c :: after) :
    (within source (byteLength before)).column = (lastLine before).length + 1 := by
  have hfront : before <+: source.text.toList := by
    rw [hs]
    exact List.prefix_append _ _
  unfold column
  rw [preceding_at_boundary hfront]

theorem not_mem_lineText (p : Position) : '\n' ∉ p.lineText := by
  intro h
  rcases List.mem_append.mp h with h | h
  · exact not_mem_lastLine _ h
  · exact not_mem_takeWhile _ h

end Position

/-- If the caret is put as far as a character stands in the excerpt, the report points at it. -/
theorem pointsAt_of_excerpt {cause : Cause} {source : Source} {offset : Nat} {front rest : List Char}
    {c : Char}
    (hexcerpt : excerpt (Position.within source offset).lineText = front ++ c :: rest)
    (hcolumn : caretColumn (Position.within source offset).lineText
      (Position.within source offset).column = front.length + 1) :
    ∃ place gutter excerpt caret bar gap,
      PointsAt ⟨cause, .within source offset⟩ c place gutter excerpt caret bar gap := by
  let position : Position := .within source offset
  let number := toString position.line
  let gutter := alignRight (number.length + 2) "|"
  let shown := number ++ " | " ++ String.ofList (excerpt position.lineText)
  let caret := alignRight (caretColumn position.lineText position.column) "^"
  have hgutter : gutter.toList = List.replicate (number.length + 1) ' ' ++ ['|'] :=
    toList_alignRight (number.length + 1) '|'
  have hcaret : caret.toList = List.replicate front.length ' ' ++ ['^'] := by
    have haligned := toList_alignRight front.length '^'
    rwa [← hcolumn] at haligned
  have hshown : shown.toList = (number.toList ++ [' ', '|']) ++ (' ' :: (front ++ c :: rest)) := by
    rw [← hexcerpt]
    simp [shown, position]
  have hbar : (number.toList ++ [' ', '|']).length = number.length + 1 + 1 := by
    rw [List.length_append, String.length_toList]
    rfl
  refine ⟨_, gutter, shown, gutter ++ " " ++ caret, number.length + 1, front.length + 1, rfl, ?_,
    hgutter, ?_, ?_, ?_⟩
  · intro line hline
    simp only [List.mem_cons, List.not_mem_nil, or_false] at hline
    rcases hline with rfl | rfl | rfl
    · simp [hgutter]
    · have hnumber := not_mem_toString position.line
      have hplain : '\n' ∉ excerpt position.lineText := fun hm =>
        position.not_mem_lineText ((excerpt_sublist _).subset hm)
      simpa [shown, number, hplain] using hnumber
    · simp [hgutter, hcaret]
  · rw [hshown, ← hbar, List.take_left]
  · rw [String.toList_append, String.toList_append, hgutter, hcaret]
    simp [List.replicate_succ]
  · rw [hshown, ← hbar, List.getElem?_append_right (by omega), Nat.add_sub_cancel_left,
      List.getElem?_cons_succ, List.getElem?_append_right (Nat.le_refl _), Nat.sub_self]
    rfl

/-- In the report of a diagnostic at a character that is shown, the caret stands right below that
character, and the bars of the gutter, of the excerpt and of the caret line stand below each other. -/
theorem caret_below_character (cause : Cause) {source : Source} {before after : List Char} {c : Char}
    (hs : source.text.toList = before ++ c :: after) (h : IsShown before c after) :
    ∃ place gutter excerpt caret bar gap,
      PointsAt ⟨cause, .within source (byteLength before)⟩ c place gutter excerpt caret bar gap := by
  have hline := Position.lineText_of_split hs h.inLine
  have hcolumn := Position.column_of_split hs
  obtain ⟨rest, hexcerpt⟩ := excerpt_eq h.pastIndent h.beforeEnd
  rw [← hline] at hexcerpt
  apply pointsAt_of_excerpt hexcerpt
  rw [hline, hcolumn]
  exact caretColumn_eq h.pastIndent _

/-- A sign in the second line, behind a tab, blanks and a character of two bytes, with a blank and a
carriage return behind it. -/
theorem caret_below_sign :
    let before := "if a\n\t é + ".toList
    let after := " \r\n b".toList
    let source : Source := ⟨"main.ark", "if a\n\t é + @ \r\n b", 0⟩
    source.text.toList = before ++ '@' :: after ∧ IsShown before '@' after ∧
      ∃ place gutter excerpt caret bar gap,
        PointsAt ⟨.unexpectedToken "@", .within source (byteLength before)⟩ '@' place gutter excerpt
          caret bar gap := by
  intro before after source
  have hs : source.text.toList = before ++ '@' :: after := by decide
  have hindent : isIndent '@' = false := by decide
  have hblank : isBlank '@' = false := by decide
  have h : IsShown before '@' after := ⟨by decide, by simp [hindent], by simp [hblank]⟩
  exact ⟨hs, h, caret_below_character (.unexpectedToken "@") hs h⟩

example : (Diagnostic.mk .noExpression
    (.within ⟨"main.ark", "if a\n\t é + @ \r\n b", 0⟩ 12)).reportLines =
      ["No expression", "  at main.ark:2:7", "  |", "2 | é + @", "  |     ^"] := by
  decide +kernel

end Offside
