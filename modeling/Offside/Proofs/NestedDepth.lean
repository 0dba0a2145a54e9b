import Mathlib.Data.List.Forall2
import Offside.Proofs.BlockLayout

namespace Offside

mutual

/-- The tokens of a tree in order, each with the number of groups around it. -/
def Tree.leavesAt (depth : Nat) : Tree → List (Nat × Token)
  | .token t => [(depth, t)]
  | .group items => leavesAt (depth + 1) items

def leavesAt (depth : Nat) : List Tree → List (Nat × Token)
  | [] => []
  | tree :: span => tree.leavesAt depth ++ leavesAt depth span

end

/-- How many of the open levels, which are given from the outside in, a line is nested under. -/
def depthUnder (opened : List String) (line : List Token) : Nat :=
  (opened.takeWhile (isNestedUnder · line)).length

/-- The levels that are open after a line. The line goes back to the outermost level that it is not
nested under, or else opens its own inside all others. -/
def openedBy (opened : List String) (line : List Token) : List String :=
  match opened.dropWhile (isNestedUnder · line) with
  | [] => opened ++ [levelOf line]
  | level :: _ => opened.takeWhile (isNestedUnder · line) ++ [level]

/-- Lines with their depths, counted from what is open before the first of them. -/
def depthsFrom (opened : List String) : List (List Token) → List (Nat × List Token)
  | [] => []
  | line :: lines => (depthUnder opened line, line) :: depthsFrom (openedBy opened line) lines

/-- A line and its line break, all at one depth. -/
def layAt (row : Nat × List Token) : List (Nat × Token) :=
  (leaves (layLine row.2)).map (row.1, ·)

/-- The depth of a line break. -/
def lineStart? (leaf : Nat × Token) : Option Nat :=
  if leaf.2.kind = .newline then some leaf.1 else none

/-- Whether levels begin at zero and never rise by more than one. -/
structure ClimbsByOne (levels : List Nat) : Prop where
  first : ∀ k ∈ levels.head?, k = 0
  next : levels.IsChain fun k n => n ≤ k + 1

section

variable {depth : Nat} {level : String} {opened outer : List String} {line : List Token}
  {lines : List (List Token)}

theorem leavesAt_append (xs ys : List Tree) :
    leavesAt depth (xs ++ ys) = leavesAt depth xs ++ leavesAt depth ys := by
  induction xs with
  | nil => rfl
  | cons tree xs ih => rw [List.cons_append, leavesAt, leavesAt, ih, List.append_assoc]

theorem leavesAt_map_token (tokens : List Token) :
    leavesAt depth (tokens.map .token) = tokens.map (depth, ·) := by
  induction tokens with
  | nil => rfl
  | cons t tokens ih => rw [List.map_cons, leavesAt, ih]; rfl

theorem leavesAt_layLine (line : List Token) :
    leavesAt depth (layLine line) = layAt (depth, line) := by
  cases line with
  | nil => rfl
  | cons first line =>
    rw [layAt, layLine, leavesAt, leavesAt_map_token, leaves, leaves_map_token]
    rfl

theorem depthsFrom_append (lines lines' : List (List Token)) :
    depthsFrom opened (lines ++ lines') =
      depthsFrom opened lines ++ depthsFrom (lines.foldl openedBy opened) lines' := by
  induction lines generalizing opened with
  | nil => rfl
  | cons line lines ih => rw [List.cons_append, depthsFrom, ih, depthsFrom]; rfl

/-- A line that is nested under some levels leaves them open. -/
theorem openedBy_of_open (open_ : outer <+: opened)
    (nested : ∀ level ∈ outer, isNestedUnder level line = true) :
    outer <+: openedBy opened line := by
  obtain ⟨inner, rfl⟩ := open_
  rw [openedBy, List.dropWhile_append_of_pos nested, List.takeWhile_append_of_pos nested]
  split
  next => rw [List.append_assoc]; exact List.prefix_append _ _
  next => rw [List.append_assoc]; exact List.prefix_append _ _

theorem foldl_openedBy_of_open (open_ : outer <+: opened)
    (nested : ∀ line ∈ lines, ∀ level ∈ outer, isNestedUnder level line = true) :
    outer <+: lines.foldl openedBy opened := by
  induction lines generalizing opened with
  | nil => exact open_
  | cons line lines ih =>
    exact ih (openedBy_of_open open_ (nested line List.mem_cons_self))
      fun l hl => nested l (List.mem_cons_of_mem _ hl)

/-- A line that is nested under some levels and not under the next one goes back to that. -/
theorem under_of_not_nested (nested : ∀ level ∈ outer, isNestedUnder level line = true)
    (own : isNestedUnder level line = false) (inner : List String) :
    depthUnder (outer ++ level :: inner) line = outer.length ∧
      openedBy (outer ++ level :: inner) line = outer ++ [level] := by
  have htake : (level :: inner).takeWhile (isNestedUnder · line) = [] :=
    List.takeWhile_cons_of_neg (by simp [own])
  have hdrop : (level :: inner).dropWhile (isNestedUnder · line) = level :: inner :=
    List.dropWhile_cons_of_neg (by simp [own])
  rw [depthUnder, openedBy, List.takeWhile_append_of_pos nested,
    List.dropWhile_append_of_pos nested, htake, hdrop, List.append_nil]
  exact ⟨rfl, rfl⟩

/-- A line that is nested under all open levels opens its own. -/
theorem under_of_nested (nested : ∀ level ∈ opened, isNestedUnder level line = true) :
    depthUnder opened line = opened.length ∧ openedBy opened line = opened ++ [levelOf line] := by
  have htake := List.takeWhile_eq_self_iff.mpr nested
  have hdrop := List.dropWhile_eq_nil_iff.mpr nested
  rw [depthUnder, openedBy, htake, hdrop]
  exact ⟨rfl, rfl⟩

/-- Nesting a level lays its lines at the depths of the levels that are open. -/
theorem leavesAt_nestAt (outer : List String) (level : String) (lines : List (List Token))
    (nested : ∀ line ∈ lines, ∀ level ∈ outer, isNestedUnder level line = true) :
    leavesAt outer.length (nestAt level lines) =
      (depthsFrom (outer ++ [level]) lines).flatMap layAt := by
  fun_induction nestAt level lines generalizing outer with
  | case1 => rfl
  | case2 level line lines hline ihrun ihrest =>
    have hthis := nested line List.mem_cons_self
    have hall : ∀ o ∈ outer ++ [level], isNestedUnder o line = true := by
      intro o ho
      rcases List.mem_append.mp ho with ho | ho
      · exact hthis o ho
      · rwa [List.mem_singleton.mp ho]
    have hrun : ∀ l ∈ lines.takeWhile (isNestedUnder level), ∀ o ∈ outer ++ [level],
        isNestedUnder o l = true := by
      intro l hl o ho
      rcases List.mem_append.mp ho with ho | ho
      · exact nested l (List.mem_cons_of_mem _ ((List.takeWhile_prefix _).subset hl)) o ho
      · rw [List.mem_singleton.mp ho]
        exact List.mem_takeWhile_imp hl
    have hrest : ∀ l ∈ lines.dropWhile (isNestedUnder level), ∀ o ∈ outer,
        isNestedUnder o l = true :=
      fun l hl => nested l (List.mem_cons_of_mem _ ((List.dropWhile_suffix _).subset hl))
    obtain ⟨hdepth, hopened⟩ := under_of_nested hall
    have hafter := foldl_openedBy_of_open (List.prefix_append _ [levelOf line]) hrun
    have hback : depthsFrom ((lines.takeWhile (isNestedUnder level)).foldl openedBy
          (outer ++ [level] ++ [levelOf line])) (lines.dropWhile (isNestedUnder level)) =
        depthsFrom (outer ++ [level]) (lines.dropWhile (isNestedUnder level)) := by
      obtain ⟨inner, hinner⟩ := hafter
      rw [← hinner, List.append_assoc, List.singleton_append]
      cases hd : lines.dropWhile (isNestedUnder level) with
      | nil => rfl
      | cons next rest =>
        have hnext : isNestedUnder level next = false :=
          head_dropWhile_not next (by rw [hd]; rfl)
        have hout := hrest next (by rw [hd]; exact List.mem_cons_self)
        obtain ⟨hd₁, ho₁⟩ := under_of_not_nested hout hnext inner
        obtain ⟨hd₂, ho₂⟩ := under_of_not_nested hout hnext []
        rw [depthsFrom, depthsFrom, hd₁, ho₁, hd₂, ho₂]
    have hlength : outer.length + 1 = (outer ++ [level]).length := by simp
    conv_rhs => rw [depthsFrom, hdepth, hopened,
      ← List.takeWhile_append_dropWhile (p := isNestedUnder level) (l := lines),
      depthsFrom_append, hback]
    rw [leavesAt, Tree.leavesAt, leavesAt_append, leavesAt_layLine, hlength, ihrun _ hrun,
      ihrest _ hrest, List.flatMap_cons, List.flatMap_append, List.append_assoc]
  | case3 level line lines hline ih =>
    have hthis := nested line List.mem_cons_self
    obtain ⟨hdepth, hopened⟩ := under_of_not_nested hthis (Bool.eq_false_iff.mpr hline) []
    rw [leavesAt_append, leavesAt_layLine, ih _ fun l hl => nested l (List.mem_cons_of_mem _ hl),
      depthsFrom, hdepth, hopened, List.flatMap_cons]

/-- Nesting all lines at once is the same as counting, line after line, the levels that are
open. -/
theorem leavesAt_nest (lines : List (List Token)) :
    leavesAt 0 (nest lines) = (depthsFrom [] lines).flatMap layAt := by
  cases lines with
  | nil => rfl
  | cons line lines =>
    have hnone : ∀ l, ∀ level ∈ ([] : List String), isNestedUnder level l = true := by simp
    have hline := under_of_not_nested (hnone line) (not_isNestedUnder_levelOf line) []
    have h := leavesAt_nestAt [] (levelOf line) (line :: lines) fun l _ => hnone l
    rw [List.length_nil] at h
    rw [nest, h, depthsFrom, depthsFrom, hline.1, hline.2]
    rfl

/-- Below a line at a level, the levels up to that one are open. -/
def levelsTo (unit : String) (level : Nat) : List String :=
  (List.range (level + 1)).map (repeatText · unit)

theorem under_levelsTo {unit : String} {k n : Nat} {tokens : List Token}
    (hu : 0 < unit.length) (h : IsLaid unit n line tokens) (hn : n ≤ k + 1) :
    depthUnder (levelsTo unit k) line = n ∧ openedBy (levelsTo unit k) line = levelsTo unit n := by
  have above : ∀ level ∈ (List.range n).map (repeatText · unit),
      isNestedUnder level line = true := by
    intro level hl
    obtain ⟨m, hm, rfl⟩ := List.mem_map.mp hl
    have hm' := List.mem_range.mp hm
    rw [h.isNestedUnder hu]
    simp only [Bool.and_eq_true, bne_iff_ne]
    omega
  have own : isNestedUnder (repeatText n unit) line = false := by
    rw [h.isNestedUnder hu]
    simp
  have length : ((List.range n).map (repeatText · unit)).length = n := by simp
  have last : levelsTo unit n = (List.range n).map (repeatText · unit) ++ [repeatText n unit] := by
    rw [levelsTo, List.range_succ, List.map_append, List.map_singleton]
  rcases Nat.lt_or_ge k n with hlt | hle
  · obtain rfl : n = k + 1 := by omega
    obtain ⟨hdepth, hopened⟩ := under_of_nested above
    rw [last, ← h.levelOf]
    exact ⟨hdepth.trans length, hopened⟩
  · obtain ⟨rest, hrest⟩ : ∃ rest, levelsTo unit k =
        (List.range n).map (repeatText · unit) ++ repeatText n unit :: rest := by
      refine ⟨(List.range (k - n)).map fun i => repeatText (n + 1 + i) unit, ?_⟩
      have hsum : k + 1 = n + 1 + (k - n) := by omega
      rw [levelsTo, hsum, List.range_add, List.map_append, ← levelsTo, last, List.append_assoc,
        List.singleton_append, List.map_map]
      rfl
    obtain ⟨hdepth, hopened⟩ := under_of_not_nested above own rest
    rw [hrest, last]
    exact ⟨hdepth.trans length, hopened⟩

end

section

variable {unit : String} {lines : List (List Token)} {rows placed : List (Nat × List Token)}

/-- Lines that climb by one level at most stand at the depths of their levels. -/
theorem depthsFrom_levelsTo (hu : 0 < unit.length)
    (laid : List.Forall₂ (fun line row => IsLaid unit row.1 line row.2) lines rows) {k : Nat}
    (climbs : (k :: rows.map Prod.fst).IsChain fun k n => n ≤ k + 1) :
    List.Forall₂ (fun place row => place.1 = row.1 ∧ IsLaid unit row.1 place.2 row.2)
      (depthsFrom (levelsTo unit k) lines) rows := by
  induction laid generalizing k with
  | nil => exact .nil
  | cons hline _ ih =>
    obtain ⟨hn, hrest⟩ := List.isChain_cons_cons.mp climbs
    obtain ⟨hdepth, hopened⟩ := under_levelsTo hu hline hn
    rw [depthsFrom, hopened]
    exact .cons ⟨hdepth, hline⟩ (ih hrest)

theorem IsLaid.line_ne_nil {level : Nat} {line tokens : List Token}
    (h : IsLaid unit level line tokens) : line ≠ [] := by
  rintro rfl
  exact h.nonempty (List.map_eq_nil_iff.mp h.lineTrees.symm)

theorem sections_layAt
    (h : List.Forall₂ (fun place row => place.1 = row.1 ∧ IsLaid unit row.1 place.2 row.2)
      placed rows) :
    sections lineStart? (placed.flatMap layAt) =
      ([], rows.map fun row => (row.1, row.2.map (row.1, ·))) := by
  induction h with
  | nil => rfl
  | @cons place row placed rows hrow _ ih =>
    obtain ⟨depth, line⟩ := place
    obtain ⟨rfl, hlaid⟩ := hrow
    obtain ⟨first, _, hlay⟩ := layLine_of_ne_nil hlaid.line_ne_nil
    have hplain : ∀ leaf ∈ row.2.map (row.1, ·), lineStart? leaf = none := by
      intro leaf hleaf
      obtain ⟨t, ht, rfl⟩ := List.mem_map.mp hleaf
      exact if_neg (hlaid.plain t ht).1
    have hline : layAt (row.1, line) =
        (row.1, .lineBreak first.span) :: row.2.map (row.1, ·) := by
      rw [layAt, hlay, hlaid.lineTrees, leaves, leaves_map_token]
      rfl
    rw [List.flatMap_cons, hline, List.cons_append, sections, sections_append_plain hplain, ih,
      List.append_nil]
    rfl

end

/-- Lines that are indented by whole units, and by one unit more than the line before at most, stand
exactly as deep as they are indented. So reading the tree from break to break gives back each level
with the tokens of its line, all of them at that depth. -/
theorem sections_nest_of_climbing {unit : String} {lines : List (List Token)}
    {rows : List (Nat × List Token)} (hu : 0 < unit.length)
    (laid : List.Forall₂ (fun line row => IsLaid unit row.1 line row.2) lines rows)
    (climbs : ClimbsByOne (rows.map Prod.fst)) :
    sections lineStart? (leavesAt 0 (nest lines)) =
      ([], rows.map fun row => (row.1, row.2.map (row.1, ·))) := by
  have hplaced : List.Forall₂ (fun place row => place.1 = row.1 ∧ IsLaid unit row.1 place.2 row.2)
      (depthsFrom [] lines) rows := by
    cases laid with
    | nil => exact .nil
    | @cons line row lines rows hline hlines =>
      have hzero : row.1 = 0 := climbs.first row.1 rfl
      have hopened : openedBy [] line = levelsTo unit 0 := by
        rw [openedBy, List.dropWhile_nil, List.nil_append, hline.levelOf, hzero]
        rfl
      rw [depthsFrom, hopened]
      refine .cons ⟨hzero.symm, hline⟩ (depthsFrom_levelsTo hu hlines ?_)
      rw [← hzero]
      exact climbs.next
  rw [leavesAt_nest, sections_layAt hplaced]

/-- A zigzag of levels, with a dedent by two of them. -/
theorem sections_nest_zigzag :
    let name (text : String) : Token := ⟨.name, text, ⟨.unknown, .unknown⟩⟩
    let rows : List (Nat × List Token) :=
      [(0, [name "a"]), (1, [name "b"]), (2, [name "c", name "d"]), (1, [name "e"]),
        (2, [name "f"]), (0, [name "g"])]
    let lines := rows.map fun row => indented "\t" row.1 ⟨.unknown, .unknown⟩ row.2
    0 < "\t".length ∧
      List.Forall₂ (fun line row => IsLaid "\t" row.1 line row.2) lines rows ∧
      ClimbsByOne (rows.map Prod.fst) ∧
      sections lineStart? (leavesAt 0 (nest lines)) =
        ([], rows.map fun row => (row.1, row.2.map (row.1, ·))) := by
  intro name rows lines
  have hu : 0 < "\t".length := by decide
  have laid : List.Forall₂ (fun line row => IsLaid "\t" row.1 line row.2) lines rows := by
    rw [List.forall₂_map_left_iff, List.forall₂_same]
    intro row hrow
    have plain : ∀ row ∈ rows, row.2 ≠ [] ∧ ∀ t ∈ row.2, t.kind ≠ .newline ∧
        t.kind ≠ .whitespace := by decide
    exact ⟨⟨_, rfl⟩, (plain row hrow).1, (plain row hrow).2⟩
  have climbs : ClimbsByOne (rows.map Prod.fst) := ⟨by decide, by decide⟩
  exact ⟨hu, laid, climbs, sections_nest_of_climbing hu laid climbs⟩

end Offside
