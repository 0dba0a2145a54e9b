import Offside.Proofs.IndentationScope
import Offside.Proofs.NestedDepth

namespace Offside

/-- Whether the tokens of a line stand in a span, all of them at one depth and nowhere else. -/
def StandsAt (span : List Tree) (line : List Token) (depth : Nat) : Prop :=
  ∀ t ∈ line, t.kind ≠ .whitespace → ∀ k, (k, t) ∈ leavesAt 0 span ↔ k = depth

/-- Whether the levels that are open after some lines are those of the widths that are open. Only
the outermost level stays open below its width. -/
structure OpensAlike (lines : List (List Token)) (opened : List String) (widths : List Nat) :
    Prop where
  outermost : ∀ level ∈ opened.head?, ∃ base ∈ lines.head?, levelOf base = level
  level : ∀ level ∈ opened, ∃ base ∈ lines, levelOf base = level
  increasing : opened.Pairwise (·.length < ·.length)
  inner : ∀ level ∈ opened.tail, level.length ∈ widths
  least : ∀ level ∈ opened.head?, level.length ∈ widths ∨
    ∀ l ∈ lines, 0 < indentWidth l → level.length ≤ indentWidth l
  widths : ∀ w ∈ widths, 0 < w → ∃ level ∈ opened, level.length = w

section

variable {lines part : List (List Token)} {line : List Token} {opened : List String}
  {widths : List Nat} {unit : String}

theorem map_snd_depthsFrom (opened : List String) (lines : List (List Token)) :
    (depthsFrom opened lines).map Prod.snd = lines := by
  induction lines generalizing opened with
  | nil => rfl
  | cons line lines ih => rw [depthsFrom, List.map_cons, ih]

theorem length_openedBy (opened : List String) (line : List Token) :
    (openedBy opened line).length = depthUnder opened line + 1 := by
  rw [openedBy, depthUnder]
  split
  next h =>
    rw [List.takeWhile_eq_self_iff.mpr (List.dropWhile_eq_nil_iff.mp h), List.length_append,
      List.length_singleton]
  next => rw [List.length_append, List.length_singleton]

theorem openedBy_ne_nil (opened : List String) (line : List Token) : openedBy opened line ≠ [] := by
  intro h
  have hlength := length_openedBy opened line
  rw [h] at hlength
  cases hlength

theorem depthUnder_le (opened : List String) (line : List Token) :
    depthUnder opened line ≤ opened.length :=
  (List.takeWhile_prefix _).length_le

theorem depthUnder_eq_length_iff :
    depthUnder opened line = opened.length ↔
      ∀ level ∈ opened, isNestedUnder level line = true := by
  rw [← List.takeWhile_eq_self_iff]
  exact ⟨(List.takeWhile_prefix _).eq_of_length, fun h => congrArg List.length h⟩

/-- An indentation is nested under all levels but itself. -/
theorem isNestedUnder_all_iff (hne : opened ≠ []) :
    (∀ level ∈ opened, isNestedUnder level line = true) ↔
      ∃ s ∈ indentation? line, s ∉ opened := by
  cases hi : indentation? line with
  | none =>
    obtain ⟨level, hl⟩ := List.exists_mem_of_ne_nil opened hne
    simp only [Option.mem_def, reduceCtorEq, false_and, exists_false, iff_false]
    intro h
    have hn := h level hl
    rw [isNestedUnder, hi] at hn
    cases hn
  | some s =>
    simp only [Option.mem_def, Option.some.injEq, exists_eq_left', isNestedUnder, hi, bne_iff_ne]
    exact ⟨fun h hs => h s hs rfl, fun h level hl he => h (he ▸ hl)⟩

/-- A line goes deeper than the one before it exactly if it is indented by none of the levels that
are open. Then it goes deeper by one. -/
theorem depthUnder_openedBy_iff (opened : List String) (line next : List Token) :
    depthUnder (openedBy opened line) next ≤ depthUnder opened line + 1 ∧
    (depthUnder opened line < depthUnder (openedBy opened line) next ↔
      ∃ s ∈ indentation? next, s ∉ openedBy opened line) := by
  have hlength := length_openedBy opened line
  have hle := depthUnder_le (openedBy opened line) next
  have hne := openedBy_ne_nil opened line
  rw [← isNestedUnder_all_iff hne, ← depthUnder_eq_length_iff]
  omega

theorem mem_leavesAt_nest {depth : Nat} {t : Token} :
    (depth, t) ∈ leavesAt 0 (nest lines) ↔
      ∃ l, (depth, l) ∈ depthsFrom [] lines ∧ t ∈ leaves (layLine l) := by
  rw [leavesAt_nest, List.mem_flatMap]
  constructor
  · rintro ⟨⟨d, l⟩, hrow, hm⟩
    obtain ⟨u, hu, he⟩ := List.mem_map.mp hm
    obtain ⟨rfl, rfl⟩ := Prod.mk.inj he
    exact ⟨l, hrow, hu⟩
  · rintro ⟨l, hrow, ht⟩
    exact ⟨(depth, l), hrow, List.mem_map.mpr ⟨t, ht, rfl⟩⟩

/-- A line stands at its depth, if its tokens stand nowhere else among the lines. -/
theorem standsAt_of_mem_depthsFrom (nodup : (starts lines).Nodup) {depth : Nat}
    (h : (depth, line) ∈ depthsFrom [] lines) : StandsAt (nest lines) line depth := by
  intro t ht hkind k
  have hlaid : t ∈ leaves (layLine line) := by
    obtain ⟨first, -, hlay⟩ := layLine_of_ne_nil (List.ne_nil_of_mem ht)
    rw [hlay, leaves, lineTrees, leaves_map_token]
    exact List.mem_append_right _ (List.mem_filter.mpr ⟨ht, by simpa using hkind⟩)
  rw [mem_leavesAt_nest]
  constructor
  · rintro ⟨l, hl, htl⟩
    have hsame : (k, l) = (depth, line) := by
      have hstarts : starts lines =
          (depthsFrom [] lines).flatMap fun row => row.2.map (·.span.start) := by
        rw [starts, ← map_snd_depthsFrom [] lines, List.map_flatten, List.map_map, List.flatMap_def,
          map_snd_depthsFrom]
        rfl
      rw [hstarts] at nodup
      exact eq_of_mem_flatMap nodup hl h (start_mem_of_mem_layLine htl)
        (List.mem_map.mpr ⟨t, ht, rfl⟩)
    exact (Prod.mk.inj hsame).1
  · rintro rfl
    exact ⟨line, h, hlaid⟩

theorem OpensAlike.nested (h : OpensAlike lines opened widths) (hu : AreIndentedBy unit lines)
    (hl : line ∈ lines) {level : String} (ho : level ∈ opened) :
    isNestedUnder level line = true ↔ 0 < indentWidth line ∧ indentWidth line ≠ level.length := by
  obtain ⟨base, hbase, rfl⟩ := h.level level ho
  exact hu.isNestedUnder_iff hbase hl

theorem OpensAlike.first (hl : line ∈ lines.head?) :
    OpensAlike lines [levelOf line] [indentWidth line] := by
  have hone : ∀ level ∈ [levelOf line], level.length = indentWidth line := by simp [indentWidth]
  refine ⟨?_, ?_, List.pairwise_singleton _ _, by simp, ?_, ?_⟩
  · intro level hlevel
    exact ⟨line, hl, Option.some.inj hlevel⟩
  · intro level hlevel
    exact ⟨line, List.mem_of_mem_head? hl, (List.mem_singleton.mp hlevel).symm⟩
  · intro level hlevel
    exact .inl (List.mem_singleton.mpr (hone level (List.mem_of_mem_head? hlevel)))
  · intro w hw _
    exact ⟨levelOf line, List.mem_cons_self, (List.mem_singleton.mp hw).symm⟩

/-- A line that goes back to an open level closes the same levels and widths. -/
theorem OpensAlike.back (h : OpensAlike lines opened widths) (hu : AreIndentedBy unit lines)
    (least : LeastFirst lines) (hl : line ∈ lines) {outer inner : List String} {level : String}
    (ho : opened = outer ++ level :: inner)
    (nested : ∀ level ∈ outer, isNestedUnder level line = true)
    (own : isNestedUnder level line = false) :
    OpensAlike lines (outer ++ [level])
      (indentWidth line :: widths.filter (· < indentWidth line)) := by
  subst ho
  have hfront : outer ++ [level] <+: outer ++ level :: inner :=
    (List.prefix_append_right_inj outer).mpr ⟨inner, rfl⟩
  have hhead : (outer ++ [level]).head? = (outer ++ level :: inner).head? := by
    cases outer <;> rfl
  have hwidth : 0 < indentWidth line → indentWidth line = level.length := by
    have hmem : level ∈ outer ++ level :: inner := by simp
    have hn := mt (h.nested hu hl hmem).mpr (by simp [own])
    omega
  have houter : ∀ o ∈ outer, 0 < indentWidth line ∧ o.length < indentWidth line := by
    intro o ho
    have hpos := ((h.nested hu hl (List.mem_append_left _ ho)).mp (nested o ho)).1
    have hlt := (List.pairwise_append.mp h.increasing).2.2 o ho level List.mem_cons_self
    have heq := hwidth hpos
    omega
  have kept : ∀ w ∈ widths, w < indentWidth line →
      w ∈ indentWidth line :: widths.filter (· < indentWidth line) :=
    fun w hw hlt => List.mem_cons_of_mem _ (List.mem_filter.mpr ⟨hw, by simpa using hlt⟩)
  refine ⟨fun o ho => h.outermost o (hhead ▸ ho), fun o ho => h.level o (hfront.subset ho),
    h.increasing.sublist hfront.sublist, ?_, ?_, ?_⟩
  · cases outer with
    | nil => simp
    | cons first outer =>
      intro o ho
      rcases List.mem_append.mp ho with hm | hm
      · have hlt := (houter o (List.mem_cons_of_mem _ hm)).2
        exact kept _ (h.inner o (List.mem_append_left _ hm)) hlt
      · rw [List.mem_singleton.mp hm, ← hwidth (houter first List.mem_cons_self).1]
        exact List.mem_cons_self
  · cases outer with
    | nil =>
      intro o ho
      obtain rfl := Option.some.inj ho
      rcases Nat.eq_zero_or_pos (indentWidth line) with h0 | hpos
      · obtain ⟨base, hbase, rfl⟩ := h.outermost _ rfl
        exact .inr (least base hbase line hl h0)
      · rw [← hwidth hpos]
        exact .inl List.mem_cons_self
    | cons first outer =>
      intro o ho
      obtain rfl := Option.some.inj ho
      exact (h.least _ rfl).imp_left fun hw => kept _ hw (houter _ List.mem_cons_self).2
  · intro w hw hpos
    rcases List.mem_cons.mp hw with rfl | hw
    · exact ⟨level, by simp, (hwidth hpos).symm⟩
    · obtain ⟨hw, hlt⟩ := List.mem_filter.mp hw
      have hlt' : w < indentWidth line := by simpa using hlt
      obtain ⟨o, ho, rfl⟩ := h.widths w hw hpos
      rcases List.mem_append.mp ho with ho | ho
      · exact ⟨o, List.mem_append_left _ ho, rfl⟩
      · have heq := hwidth (by omega)
        rcases List.mem_cons.mp ho with rfl | ho
        · omega
        · have hlt := (List.pairwise_cons.mp (List.pairwise_append.mp h.increasing).2.1).1 o ho
          omega

/-- A line that goes deeper than all open widths opens its own. -/
theorem OpensAlike.deeper (h : OpensAlike lines opened widths) (hu : AreIndentedBy unit lines)
    (hl : line ∈ lines) (hne : opened ≠ [])
    (nested : ∀ level ∈ opened, isNestedUnder level line = true)
    (above : ∀ w ∈ widths, w < indentWidth line) :
    OpensAlike lines (opened ++ [levelOf line])
      (indentWidth line :: widths.filter (· < indentWidth line)) := by
  have hwidths : widths.filter (· < indentWidth line) = widths :=
    List.filter_eq_self.mpr fun w hw => by simpa using above w hw
  rw [hwidths]
  obtain ⟨first, rest, rfl⟩ := List.exists_cons_of_ne_nil hne
  have hlt : ∀ o ∈ first :: rest, o.length < indentWidth line := by
    intro o ho
    rcases List.mem_cons.mp ho with rfl | hrest
    · have hn := (h.nested hu hl ho).mp (nested o ho)
      rcases h.least o rfl with hw | hleast
      · exact above _ hw
      · have hle := hleast line hl hn.1
        omega
    · exact above _ (h.inner o hrest)
  refine ⟨h.outermost, ?_, ?_, ?_, ?_, ?_⟩
  · intro o ho
    rcases List.mem_append.mp ho with ho | ho
    · exact h.level o ho
    · exact ⟨line, hl, (List.mem_singleton.mp ho).symm⟩
  · refine List.pairwise_append.mpr ⟨h.increasing, List.pairwise_singleton _ _, ?_⟩
    intro o ho o' ho'
    rw [List.mem_singleton.mp ho']
    exact hlt o ho
  · intro o ho
    rcases List.mem_append.mp ho with ho | ho
    · exact List.mem_cons_of_mem _ (h.inner o ho)
    · rw [List.mem_singleton.mp ho]
      exact List.mem_cons_self
  · intro o ho
    exact (h.least o ho).imp_left (List.mem_cons_of_mem _)
  · intro w hw hpos
    rcases List.mem_cons.mp hw with rfl | hw
    · exact ⟨levelOf line, by simp, rfl⟩
    · obtain ⟨o, ho, he⟩ := h.widths w hw hpos
      exact ⟨o, List.mem_append_left _ ho, he⟩

/-- A line that is nested under all open levels is deeper than all open widths. -/
theorem OpensAlike.above (h : OpensAlike lines opened widths) (hu : AreIndentedBy unit lines)
    (hl : line ∈ lines) (hne : opened ≠ [])
    (nested : ∀ level ∈ opened, isNestedUnder level line = true)
    (returns : indentWidth line = 0 ∨ indentWidth line ∈ widths ∨
      ∀ w ∈ widths, w < indentWidth line) :
    ∀ w ∈ widths, w < indentWidth line := by
  obtain ⟨level, hlevel⟩ := List.exists_mem_of_ne_nil opened hne
  have hpos := ((h.nested hu hl hlevel).mp (nested level hlevel)).1
  rcases returns with h0 | hopen | habove
  · omega
  · obtain ⟨o, ho, he⟩ := h.widths _ hopen hpos
    exact absurd he.symm ((h.nested hu hl ho).mp (nested o ho)).2
  · exact habove

theorem OpensAlike.step (h : OpensAlike lines opened widths) (hu : AreIndentedBy unit lines)
    (least : LeastFirst lines) (hl : line ∈ lines) (hne : opened ≠ [])
    (returns : indentWidth line = 0 ∨ indentWidth line ∈ widths ∨
      ∀ w ∈ widths, w < indentWidth line) :
    OpensAlike lines (openedBy opened line)
      (indentWidth line :: widths.filter (· < indentWidth line)) := by
  rw [openedBy]
  split
  next hd =>
    have nested := List.dropWhile_eq_nil_iff.mp hd
    exact h.deeper hu hl hne nested (h.above hu hl hne nested returns)
  next level inner hd =>
    have hsplit : opened = opened.takeWhile (isNestedUnder · line) ++ level :: inner := by
      rw [← hd, List.takeWhile_append_dropWhile]
    refine h.back hu least hl hsplit (fun o ho => ?_) ?_
    · exact List.mem_takeWhile_imp (p := (isNestedUnder · line)) ho
    · exact head_dropWhile_not (p := (isNestedUnder · line)) level (by rw [hd]; rfl)

theorem OpensAlike.run (h : OpensAlike lines opened widths) (hu : AreIndentedBy unit lines)
    (least : LeastFirst lines) (hne : opened ≠ []) (hl : ∀ line ∈ part, line ∈ lines)
    (returns : ReturnsToOpen widths (part.map indentWidth)) :
    OpensAlike lines (part.foldl openedBy opened) (openAfter widths (part.map indentWidth)) := by
  induction part generalizing opened widths with
  | nil => exact h
  | cons line part ih =>
    exact ih (h.step hu least (hl line List.mem_cons_self) hne returns.1) (openedBy_ne_nil _ _)
      (fun l hm => hl l (List.mem_cons_of_mem _ hm)) returns.2

theorem mem_openAfter_concat (widths ws : List Nat) (w : Nat) :
    w ∈ openAfter widths (ws ++ [w]) := by
  induction ws generalizing widths with
  | nil => exact List.mem_cons_self
  | cons v ws ih => exact ih _

theorem mem_depthsFrom (opened : List String) (part rest : List (List Token)) (line : List Token) :
    (depthUnder (part.foldl openedBy opened) line, line) ∈
      depthsFrom opened (part ++ line :: rest) := by
  rw [depthsFrom_append, depthsFrom]
  exact List.mem_append_right _ List.mem_cons_self

/-- If no line goes back to a width that is not open, then a line that is nested under all levels
that are open before it is indented more than the line before. -/
theorem lt_of_nested_under_open {rest : List (List Token)} {next : List Token} {s : String}
    (hu : AreIndentedBy unit lines) (least : LeastFirst lines)
    (hl : lines = part ++ line :: next :: rest) (returns : ReturnsToOpen [] (lines.map indentWidth))
    (hi : s ∈ indentation? next) (hs : s ∉ (part ++ [line]).foldl openedBy []) :
    indentWidth line < indentWidth next := by
  obtain ⟨base, more, hmore⟩ : ∃ base more, part ++ [line] = base :: more :=
    List.exists_cons_of_ne_nil (by simp)
  have hsplit : lines = base :: (more ++ next :: rest) := by
    rw [hl, ← List.cons_append, ← hmore, List.append_assoc]
    rfl
  have hnext : next ∈ lines := by rw [hsplit]; simp
  have hopened : (part ++ [line]).foldl openedBy [] = more.foldl openedBy [levelOf base] := by
    rw [hmore]
    rfl
  have hreturns := returns
  rw [hsplit, List.map_cons, List.map_append] at hreturns
  obtain ⟨hmoreReturns, hnextReturns⟩ := returnsToOpen_append.mp hreturns.2
  have hfirst : OpensAlike lines [levelOf base] [indentWidth base] :=
    .first (by rw [hsplit]; rfl)
  have halike := hfirst.run hu least (List.cons_ne_nil _ _)
    (fun l hm => by rw [hsplit]; simp [hm]) hmoreReturns
  have hne : more.foldl openedBy [levelOf base] ≠ [] := by
    rw [← hopened, List.foldl_append]
    exact openedBy_ne_nil _ _
  rw [hopened] at hs
  refine halike.above hu hnext hne ((isNestedUnder_all_iff hne).mpr ⟨s, hi, hs⟩) hnextReturns.1 _ ?_
  have hwidths : openAfter [indentWidth base] (more.map indentWidth) =
      openAfter [] ((part ++ [line]).map indentWidth) := by
    rw [hmore]
    rfl
  rw [hwidths, List.map_append]
  exact mem_openAfter_concat _ _ _

end

/-- A line stands deeper than the line before it, and then by one, exactly if it is indented by none
of the levels that are open. So a line that is indented less than the one before may stand deeper
still. That happens only where some line goes back to a width that is not open. -/
theorem depth_of_next_line {source : Source} {lines above below : List (List Token)}
    {line next : List Token} (h : classicLines source = .ok lines)
    (hl : lines = above ++ line :: next :: below) :
    ∃ depth depth', StandsAt (nest lines) line depth ∧ StandsAt (nest lines) next depth' ∧
      depth' ≤ depth + 1 ∧
      (depth < depth' ↔ ∃ s ∈ indentation? next, s ∉ (above ++ [line]).foldl openedBy []) ∧
      (ReturnsToOpen [] (lines.map indentWidth) → depth < depth' →
        indentWidth line < indentWidth next) := by
  obtain ⟨⟨unit, hu⟩, least, nodup⟩ := layout_of_classicLines h
  have hline := mem_depthsFrom [] above (next :: below) line
  have hnext := mem_depthsFrom [] (above ++ [line]) below next
  rw [← hl] at hline
  rw [List.append_assoc, List.singleton_append, ← hl] at hnext
  have hopened : (above ++ [line]).foldl openedBy [] =
      openedBy (above.foldl openedBy []) line := by
    rw [List.foldl_append]
    rfl
  obtain ⟨hle, hdeeper⟩ := depthUnder_openedBy_iff (above.foldl openedBy []) line next
  rw [← hopened] at hle hdeeper
  refine ⟨_, _, standsAt_of_mem_depthsFrom nodup hline, standsAt_of_mem_depthsFrom nodup hnext, hle,
    hdeeper, ?_⟩
  intro returns hlt
  obtain ⟨s, hi, hs⟩ := hdeeper.mp hlt
  exact lt_of_nested_under_open hu least hl returns hi hs

/-- The last line of a block goes deeper and returns to no width. -/
theorem depth_of_next_line_in_body :
    let source : Source := ⟨"", "a\n  b\n    c\nd", 0⟩
    ∃ lines above below line next depth depth', classicLines source = .ok lines ∧
      lines = above ++ line :: next :: below ∧ ReturnsToOpen [] (lines.map indentWidth) ∧
      StandsAt (nest lines) line depth ∧ StandsAt (nest lines) next depth' ∧
      depth' = depth + 1 ∧ indentWidth line < indentWidth next := by
  intro source
  let token (kind : Kind) (text : String) (start stop : Nat) : Token :=
    ⟨kind, text, ⟨.within source start, .within source stop⟩⟩
  let first : List Token := [token .name "a" 0 1]
  let second : List Token := [token .whitespace "  " 2 4, token .name "b" 4 5]
  let third : List Token := [token .whitespace "    " 6 10, token .name "c" 10 11]
  let fourth : List Token := [token .name "d" 12 13]
  have hl : classicLines source = .ok [first, second, third, fourth] := by decide +kernel
  have htwo : "  ".length = 2 := rfl
  have hfour : "    ".length = 4 := rfl
  have hopen : ReturnsToOpen [] ([first, second, third, fourth].map indentWidth) := by
    simp [ReturnsToOpen, indentWidth, levelOf, indentation?, first, second, third, fourth, token,
      htwo, hfour]
  have hsplit : [first, second, third, fourth] = [first] ++ second :: third :: [fourth] := rfl
  obtain ⟨depth, depth', hline, hnext, hle, hdeeper, hwider⟩ := depth_of_next_line hl hsplit
  have hlt : depth < depth' := hdeeper.mpr ⟨"    ", rfl, by decide⟩
  exact ⟨_, _, _, _, _, depth, depth', hl, hsplit, hopen, hline, hnext, by omega, hwider hopen hlt⟩

/-- A line that goes back to a width that is not open stands below the line before it. -/
theorem not_deeper_only_if_wider :
    let source : Source := ⟨"", "a\n  x\n      b\n    c", 0⟩
    ¬∀ lines above below line next, classicLines source = .ok lines →
      lines = above ++ line :: next :: below →
      ∀ depth depth', StandsAt (nest lines) line depth → StandsAt (nest lines) next depth' →
        depth < depth' → indentWidth line < indentWidth next := by
  intro source h
  let token (kind : Kind) (text : String) (start stop : Nat) : Token :=
    ⟨kind, text, ⟨.within source start, .within source stop⟩⟩
  let first : List Token := [token .name "a" 0 1]
  let second : List Token := [token .whitespace "  " 2 4, token .name "x" 4 5]
  let third : List Token := [token .whitespace "      " 6 12, token .name "b" 12 13]
  let fourth : List Token := [token .whitespace "    " 14 18, token .name "c" 18 19]
  have hl : classicLines source = .ok [first, second, third, fourth] := by decide +kernel
  have nodup := (layout_of_classicLines hl).2.2
  have hthird : (2, third) ∈ depthsFrom [] [first, second, third, fourth] := by decide
  have hfourth : (3, fourth) ∈ depthsFrom [] [first, second, third, fourth] := by decide
  have hlt := h _ [first, second] [] third fourth hl rfl 2 3
    (standsAt_of_mem_depthsFrom nodup hthird) (standsAt_of_mem_depthsFrom nodup hfourth) (by decide)
  exact absurd hlt (by decide)

end Offside
