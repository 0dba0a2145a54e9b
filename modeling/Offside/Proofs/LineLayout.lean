import Mathlib.Data.List.TakeWhile
import Mathlib.Tactic.ByContra
import Offside.Indentation
import Offside.LineTree
import Offside.Proofs.LeafOrder

namespace Offside

/-- A run of lines below a statement, as it stands in a tree. -/
def layRun : List (List Token) → List Tree
  | [] => []
  | line :: lines => [.group (nest (line :: lines))]

/-- The lines at a level, each with the run of lines nested below it. -/
def statementsAt (level : String) : List (List Token) → List (List Token × List (List Token))
  | [] => []
  | line :: lines =>
    (line, lines.takeWhile (isNestedUnder level)) ::
      statementsAt level (lines.dropWhile (isNestedUnder level))
termination_by lines => lines.length
decreasing_by exact Nat.lt_succ_of_le (List.dropWhile_suffix _).length_le

def statements : List (List Token) → List (List Token × List (List Token))
  | [] => []
  | line :: lines => statementsAt (levelOf line) (line :: lines)

/-- Whether a line, with a run below it, is a statement of some lines or of the run of one. -/
inductive IsStatement : List (List Token) → List Token → List (List Token) → Prop where
  | outer {lines : List (List Token)} {line : List Token} {run : List (List Token)}
    (mem : (line, run) ∈ statements lines) : IsStatement lines line run
  | inner {lines : List (List Token)} {above line : List Token} {body run : List (List Token)}
    (mem : (above, body) ∈ statements lines) (inside : IsStatement body line run) :
    IsStatement lines line run

theorem not_isNestedUnder_levelOf (line : List Token) :
    isNestedUnder (levelOf line) line = false := by
  rw [isNestedUnder, levelOf]
  cases indentation? line with
  | none => rfl
  | some indentation => simp

theorem head_dropWhile_not {α : Type} {p : α → Bool} {xs : List α} :
    ∀ x ∈ (xs.dropWhile p).head?, p x = false := by
  intro x hx
  have h := List.head?_dropWhile_not p xs
  rw [Option.mem_def.mp hx] at h
  simpa using h

theorem nestAt_of_not_nested {level : String} {line : List Token} {lines : List (List Token)}
    (h : isNestedUnder level line = false) :
    nestAt level (line :: lines) = layLine line ++ nestAt level lines := by
  rw [nestAt, h]
  rfl

theorem nestAt_of_nested {level : String} {line : List Token} {lines : List (List Token)}
    (h : isNestedUnder level line = true) :
    nestAt level (line :: lines) =
      .group (nest (line :: lines.takeWhile (isNestedUnder level))) ::
        nestAt level (lines.dropWhile (isNestedUnder level)) := by
  rw [nestAt, h, nest, nestAt_of_not_nested (not_isNestedUnder_levelOf line)]
  rfl

theorem nestAt_cons {level : String} {line : List Token} {lines : List (List Token)}
    (h : isNestedUnder level line = false) :
    nestAt level (line :: lines) = layLine line ++
      (layRun (lines.takeWhile (isNestedUnder level)) ++
        nestAt level (lines.dropWhile (isNestedUnder level))) := by
  rw [nestAt_of_not_nested h]
  cases lines with
  | nil => rfl
  | cons next lines =>
    cases hn : isNestedUnder level next with
    | false =>
      have hneg : ¬isNestedUnder level next = true := by simp [hn]
      rw [List.takeWhile_cons_of_neg hneg, List.dropWhile_cons_of_neg hneg]
      rfl
    | true =>
      rw [List.takeWhile_cons_of_pos hn, List.dropWhile_cons_of_pos hn, nestAt_of_nested hn]
      rfl

/-- A level is laid out statement by statement. -/
theorem nestAt_eq (level : String) (lines : List (List Token))
    (h : ∀ line ∈ lines.head?, isNestedUnder level line = false) :
    nestAt level lines = (statementsAt level lines).flatMap fun s => layLine s.1 ++ layRun s.2 := by
  fun_induction statementsAt level lines with
  | case1 => rw [nestAt, List.flatMap_nil]
  | case2 line lines ih =>
    rw [nestAt_cons (h line rfl), List.flatMap_cons, ih head_dropWhile_not, List.append_assoc]

theorem nest_eq (lines : List (List Token)) :
    nest lines = (statements lines).flatMap fun s => layLine s.1 ++ layRun s.2 := by
  cases lines with
  | nil => rfl
  | cons line lines =>
    rw [nest, statements]
    apply nestAt_eq
    intro first hf
    obtain rfl := Option.some.inj hf
    exact not_isNestedUnder_levelOf line

theorem mem_statementsAt {level : String} {lines : List (List Token)} {line : List Token}
    {run : List (List Token)} (h : (line, run) ∈ statementsAt level lines) :
    line :: run <:+: lines ∧ ∀ l ∈ run, isNestedUnder level l = true := by
  fun_induction statementsAt level lines with
  | case1 => cases h
  | case2 first rest ih =>
    rcases List.mem_cons.mp h with h | h
    · obtain ⟨rfl, rfl⟩ := Prod.mk.inj h
      have hfront : line :: rest.takeWhile (isNestedUnder level) <+: line :: rest :=
        List.prefix_cons_inj line |>.mpr (List.takeWhile_prefix _)
      exact ⟨hfront.isInfix, fun l hl => List.mem_takeWhile_imp hl⟩
    · obtain ⟨hi, hn⟩ := ih h
      have hsuffix : rest.dropWhile (isNestedUnder level) <:+ first :: rest :=
        (List.dropWhile_suffix _).trans (List.suffix_cons first rest)
      exact ⟨hi.trans hsuffix.isInfix, hn⟩

/-- How far a line is indented, in characters. -/
def indentWidth (line : List Token) : Nat :=
  (levelOf line).length

/-- Whether each of some widths is zero, or open, or greater than all that are open. Each width
closes the greater ones and is open from then on. -/
def ReturnsToOpen (opened : List Nat) : List Nat → Prop
  | [] => True
  | w :: ws =>
    (w = 0 ∨ w ∈ opened ∨ ∀ x ∈ opened, x < w) ∧ ReturnsToOpen (w :: opened.filter (· < w)) ws

def openAfter (opened : List Nat) : List Nat → List Nat
  | [] => opened
  | w :: ws => openAfter (w :: opened.filter (· < w)) ws

theorem returnsToOpen_append {opened xs ys : List Nat} :
    ReturnsToOpen opened (xs ++ ys) ↔
      ReturnsToOpen opened xs ∧ ReturnsToOpen (openAfter opened xs) ys := by
  induction xs generalizing opened with
  | nil => exact ⟨fun h => ⟨trivial, h⟩, fun h => h.2⟩
  | cons w xs ih =>
    rw [List.cons_append, ReturnsToOpen, ih, ← and_assoc]
    rfl

/-- What normalised lines look like: none is empty or broken, and each indentation consists of
whole units. -/
structure AreIndentedBy (unit : String) (lines : List (List Token)) : Prop where
  positive : 0 < unit.length
  line : ∀ l ∈ lines, l ≠ [] ∧ ∀ t ∈ l, t.kind ≠ .newline
  indentation : ∀ l ∈ lines, ∀ s, indentation? l = some s → ∃ n, 0 < n ∧ s = repeatText n unit

theorem length_repeatText (n : Nat) (text : String) :
    (repeatText n text).length = n * text.length := by
  rw [repeatText, String.length_join, List.map_replicate, List.sum_replicate_nat]

theorem repeatText_inj {unit : String} (hu : 0 < unit.length) {m n : Nat} :
    repeatText m unit = repeatText n unit ↔ m = n := by
  refine ⟨fun h => ?_, fun h => by rw [h]⟩
  have hlen := congrArg String.length h
  rw [length_repeatText, length_repeatText] at hlen
  exact Nat.eq_of_mul_eq_mul_right hu hlen

theorem isNestedUnder_repeatText {unit : String} {line : List Token} (hu : 0 < unit.length)
    {n k : Nat} (hl : levelOf line = repeatText n unit) (hn : indentation? line = none ↔ n = 0) :
    isNestedUnder (repeatText k unit) line = (n != 0 && n != k) := by
  rw [isNestedUnder]
  cases hi : indentation? line with
  | none =>
    obtain rfl := hn.mp hi
    rfl
  | some indentation =>
    have h0 : n ≠ 0 := fun he => by simp [hn.mpr he] at hi
    rw [levelOf, hi, Option.getD_some] at hl
    rw [hl]
    dsimp only
    rw [Bool.eq_iff_iff]
    simp [repeatText_inj hu, h0]

theorem AreIndentedBy.level {unit : String} {lines : List (List Token)}
    (h : AreIndentedBy unit lines) {l : List Token} (hl : l ∈ lines) :
    ∃ n, levelOf l = repeatText n unit := by
  rw [levelOf]
  cases hi : indentation? l with
  | none => exact ⟨0, rfl⟩
  | some s =>
    obtain ⟨n, _, hn⟩ := h.indentation l hl s hi
    exact ⟨n, hn⟩

theorem AreIndentedBy.isNestedUnder_iff {unit : String} {lines : List (List Token)}
    (h : AreIndentedBy unit lines) {base l : List Token} (hb : base ∈ lines) (hl : l ∈ lines) :
    isNestedUnder (levelOf base) l = true ↔
      0 < indentWidth l ∧ indentWidth l ≠ indentWidth base := by
  obtain ⟨m, hm⟩ := h.level hb
  have hpos := h.positive
  rw [indentWidth, indentWidth, isNestedUnder, hm, length_repeatText]
  cases hi : indentation? l with
  | none => simp [levelOf, hi]
  | some s =>
    obtain ⟨n, hn, rfl⟩ := h.indentation l hl s hi
    have hw : levelOf l = repeatText n unit := by rw [levelOf, hi]; rfl
    rw [hw, length_repeatText]
    have hnpos : 0 < n * unit.length := Nat.mul_pos hn hpos
    have hinj : repeatText n unit = repeatText m unit ↔ n * unit.length = m * unit.length := by
      rw [repeatText_inj hpos, Nat.mul_right_cancel_iff hpos]
    simp [hnpos, hinj]

section

variable {lines run : List (List Token)} {line : List Token}

/-- Whether no indented line of some lines is less deep than the first one, if any of the lines is
not indented at all. -/
def LeastFirst (lines : List (List Token)) : Prop :=
  ∀ base ∈ lines.head?, ∀ l ∈ lines, indentWidth l = 0 →
    ∀ m ∈ lines, 0 < indentWidth m → indentWidth base ≤ indentWidth m

theorem isInfix_of_mem_statements (hs : (line, run) ∈ statements lines) :
    line :: run <:+: lines := by
  cases lines with
  | nil => cases hs
  | cons base rest => exact (mem_statementsAt hs).1

theorem IsStatement.isInfix (hs : IsStatement lines line run) : line :: run <:+: lines := by
  induction hs with
  | outer mem => exact isInfix_of_mem_statements mem
  | @inner lines above line body run mem inside ih =>
    have hbody : body <:+: above :: body := (List.suffix_cons above body).isInfix
    exact ih.trans (hbody.trans (isInfix_of_mem_statements mem))

end

/-- The tokens of a line as they stand in a tree. -/
def lineTrees (line : List Token) : List Tree :=
  (line.filter (·.kind != .whitespace)).map .token

/-- A line and the run below it, as they stand in a tree. -/
def statementSpan (s : List Token × List (List Token)) : List Tree :=
  lineTrees s.1 ++ layRun s.2

theorem layLine_of_ne_nil {line : List Token} (h : line ≠ []) :
    ∃ t ∈ line, layLine line = .token (.lineBreak t.span) :: lineTrees line := by
  cases line with
  | nil => exact absurd rfl h
  | cons first line => exact ⟨first, List.mem_cons_self, rfl⟩

theorem leaves_nestAt (level : String) (lines : List (List Token)) :
    leaves (nestAt level lines) = lines.flatMap fun line => leaves (layLine line) := by
  fun_induction nestAt level lines with
  | case1 => rfl
  | case2 level line lines _ ihrun ihrest =>
    rw [leaves, Tree.leaves, leaves_append, ihrun, ihrest, List.flatMap_cons, List.append_assoc,
      ← List.flatMap_append, List.takeWhile_append_dropWhile]
  | case3 level line lines _ ih => rw [leaves_append, ih, List.flatMap_cons]

theorem leaves_nest (lines : List (List Token)) :
    leaves (nest lines) = lines.flatMap fun line => leaves (layLine line) := by
  cases lines with
  | nil => rfl
  | cons line lines => exact leaves_nestAt _ _

theorem start_mem_of_mem_layLine {line : List Token} {t : Token}
    (h : t ∈ leaves (layLine line)) : t.span.start ∈ line.map (·.span.start) := by
  cases line with
  | nil => cases h
  | cons first line =>
    rcases List.mem_cons.mp h with rfl | h
    · exact List.mem_cons_self
    · change t ∈ leaves (lineTrees (first :: line)) at h
      rw [lineTrees, leaves_map_token] at h
      exact List.mem_map.mpr ⟨t, (List.mem_filter.mp h).1, rfl⟩

section

variable {α γ : Type}

theorem splitWhere_flatMap {p : α → Bool} {f : γ → List α} {cs : List γ}
    (h : ∀ c ∈ cs, ∃ s xs, f c = s :: xs ∧ p s = true ∧ ∀ x ∈ xs, p x = false) :
    splitWhere p (cs.flatMap f) = [] :: cs.map fun c => (f c).tail := by
  induction cs with
  | nil => rfl
  | cons c cs ih =>
    obtain ⟨s, xs, hf, hs, hx⟩ := h c List.mem_cons_self
    rw [List.flatMap_cons, hf, List.cons_append, splitWhere_cons, if_pos hs,
      splitWhere_append_plain hx, ih fun d hd => h d (List.mem_cons_of_mem _ hd), List.headD_cons,
      List.append_nil, List.tail_cons, List.map_cons, hf, List.tail_cons]

end

theorem splitWhere_nest {unit : String} {lines : List (List Token)} (hu : AreIndentedBy unit lines) :
    splitWhere (·.hasKind .newline) (nest lines) =
      [] :: (statements lines).map statementSpan := by
  have hlay : ∀ s ∈ statements lines, ∃ t, layLine s.1 ++ layRun s.2 =
      .token (.lineBreak t) :: statementSpan s := by
    intro s hs
    have hmem : s.1 ∈ lines := (isInfix_of_mem_statements hs).subset List.mem_cons_self
    obtain ⟨t, _, ht⟩ := layLine_of_ne_nil (hu.line s.1 hmem).1
    exact ⟨t.span, by rw [ht]; rfl⟩
  rw [nest_eq, splitWhere_flatMap]
  · congr 1
    apply List.map_congr_left
    intro s hs
    obtain ⟨t, ht⟩ := hlay s hs
    rw [ht]
    rfl
  · intro s hs
    obtain ⟨t, ht⟩ := hlay s hs
    refine ⟨_, _, ht, rfl, ?_⟩
    intro tree htree
    rcases List.mem_append.mp htree with htree | htree
    · obtain ⟨u, hu', rfl⟩ := List.mem_map.mp htree
      have hmem : s.1 ∈ lines := (isInfix_of_mem_statements hs).subset List.mem_cons_self
      have hkind := (hu.line s.1 hmem).2 u (List.mem_filter.mp hu').1
      simpa [Tree.hasKind] using hkind
    · cases hrun : s.2 with
      | nil =>
        rw [hrun] at htree
        cases htree
      | cons line run =>
        rw [hrun] at htree
        obtain rfl := List.mem_singleton.mp htree
        rfl

theorem isGroup_of_mem_layRun {run : List (List Token)} {tree : Tree} (h : tree ∈ layRun run) :
    tree.isGroup = true := by
  cases run with
  | nil => cases h
  | cons line run =>
    obtain rfl := List.mem_singleton.mp h
    rfl

theorem ungroup_layRun (run : List (List Token)) : ungroup (layRun run) = nest run := by
  cases run with
  | nil => rfl
  | cons line run => exact List.append_nil _

end Offside
