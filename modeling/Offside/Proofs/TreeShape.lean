import Offside.Program
import Offside.Proofs.TokenStarts

namespace Offside

/-- How lines stand in a tree: each is a line break with its tokens behind it, and a run of lines
that goes with a line is one group behind that line. -/
inductive LaidOut : List (List Token) → List Tree → Prop
  | nil : LaidOut [] []
  | alone {line : List Token} {lines : List (List Token)} {rest : List Tree} (mark : Span)
    (below : LaidOut lines rest) :
    LaidOut (line :: lines) (.token (.lineBreak mark) :: (lineTrees line ++ rest))
  | heading {line : List Token} {run lines : List (List Token)} {items rest : List Tree}
    (mark : Span) (nonempty : run ≠ []) (inside : LaidOut run items) (below : LaidOut lines rest) :
    LaidOut (line :: (run ++ lines))
      (.token (.lineBreak mark) :: (lineTrees line ++ .group items :: rest))

/-- Whether a token neither breaks nor indents a line. -/
def Token.isPlain (t : Token) : Bool :=
  t.kind != .whitespace && t.kind != .newline

section

variable {lines : List (List Token)} {tokens out : List Token}

/-- Statements stand side by side, each with its run behind it. -/
theorem laidOut_statements (ss : List (List Token × List (List Token)))
    (nonempty : ∀ s ∈ ss, s.1 ≠ []) (inside : ∀ s ∈ ss, LaidOut s.2 (nest s.2)) :
    LaidOut (ss.flatMap fun s => s.1 :: s.2) (ss.flatMap fun s => layLine s.1 ++ layRun s.2) := by
  induction ss with
  | nil => exact .nil
  | cons s ss ih =>
    obtain ⟨line, run⟩ := s
    have hbelow := ih (fun s hs => nonempty s (List.mem_cons_of_mem _ hs))
      (fun s hs => inside s (List.mem_cons_of_mem _ hs))
    have hrun := inside (line, run) List.mem_cons_self
    obtain ⟨first, -, hlay⟩ := layLine_of_ne_nil (nonempty (line, run) List.mem_cons_self)
    rw [List.flatMap_cons, List.flatMap_cons, hlay, List.append_assoc, List.cons_append,
      List.cons_append]
    cases run with
    | nil => exact .alone first.span hbelow
    | cons next run => exact .heading first.span (List.cons_ne_nil _ _) hrun hbelow

theorem laidOut_nest (lines : List (List Token)) (nonempty : ∀ line ∈ lines, line ≠ []) :
    LaidOut lines (nest lines) := by
  have hwithin : ∀ s ∈ statements lines, s.1 :: s.2 <:+: lines :=
    fun s hs => isInfix_of_mem_statements hs
  have h := laidOut_statements (statements lines)
    (fun s hs => nonempty s.1 ((hwithin s hs).subset List.mem_cons_self))
    (fun s hs => laidOut_nest s.2 fun l hl =>
      nonempty l ((hwithin s hs).subset (List.mem_cons_of_mem _ hl)))
  rwa [flatMap_statements, ← nest_eq] at h
termination_by lines.length
decreasing_by exact (hwithin s hs).length_le

theorem leaves_layLine {line : List Token} (h : line ≠ []) :
    ∃ mark, leaves (layLine line) =
      .lineBreak mark :: line.filter (·.kind != .whitespace) := by
  obtain ⟨first, -, hlay⟩ := layLine_of_ne_nil h
  refine ⟨first.span, ?_⟩
  rw [hlay, leaves, lineTrees, leaves_map_token]
  rfl

/-- Read from break to break, the tree says what the lines say. -/
theorem splitWhere_leaves_nest (whole : ∀ line ∈ lines, line ≠ [] ∧ ∀ t ∈ line, t.kind ≠ .newline) :
    splitWhere (·.kind == .newline) (leaves (nest lines)) =
      [] :: lines.map (List.filter (·.kind != .whitespace)) := by
  rw [leaves_nest, splitWhere_flatMap]
  · congr 1
    refine List.map_congr_left fun line hl => ?_
    obtain ⟨mark, hlay⟩ := leaves_layLine (whole line hl).1
    rw [hlay, List.tail_cons]
  · intro line hl
    obtain ⟨mark, hlay⟩ := leaves_layLine (whole line hl).1
    refine ⟨_, _, hlay, rfl, fun t ht => ?_⟩
    simpa using (whole line hl).2 t (List.mem_filter.mp ht).1

/-- Indentation keeps every token that neither breaks nor indents a line. -/
theorem filter_indentFrom {unit? : Option String} {fresh : Bool}
    (h : indentFrom unit? fresh tokens = .ok out) :
    out.filter Token.isPlain = tokens.filter Token.isPlain := by
  fun_induction indentFrom unit? fresh tokens generalizing out with
  | case1 =>
    obtain rfl := Except.ok.inj h
    rfl
  | case2 unit? fresh t tokens hk hfresh unit width whole =>
    rename_i ih
    obtain ⟨rest, hrest, h⟩ := bind_eq_ok.mp h
    obtain rfl := Except.ok.inj h
    rw [List.filter_cons_of_neg (by simp [Token.isPlain]),
      List.filter_cons_of_neg (by simp [Token.isPlain, hk]), ih hrest]
  | case3 => cases h
  | case4 unit? fresh t tokens hk hfresh ih =>
    rw [List.filter_cons_of_neg (by simp [Token.isPlain, hk]), ih h]
  | case5 unit? fresh t tokens hk ih =>
    obtain ⟨rest, hrest, h⟩ := bind_eq_ok.mp h
    obtain rfl := Except.ok.inj h
    rw [List.filter_cons_of_neg (by simp [Token.isPlain, Token.lineBreak]),
      List.filter_cons_of_neg (by simp [Token.isPlain, hk]), ih hrest]
  | case6 unit? fresh t tokens hw hn ih =>
    obtain ⟨rest, hrest, h⟩ := bind_eq_ok.mp h
    obtain rfl := Except.ok.inj h
    have hplain : t.isPlain = true := by simpa [Token.isPlain] using ⟨hw, hn⟩
    rw [List.filter_cons_of_pos hplain, List.filter_cons_of_pos hplain, ih hrest]

end

theorem whole_of_mem_lines (indented : List Token) :
    ∀ line ∈ lines indented, line ≠ [] ∧ ∀ t ∈ line, t.kind ≠ .newline :=
  fun _ hl => ⟨(mem_of_mem_lines hl).1, (mem_of_mem_lines hl).2.2⟩

theorem filter_leaves_nest (indented : List Token) :
    (leaves (nest (lines indented))).filter (·.kind != .newline) =
      indented.filter Token.isPlain := by
  have hread := congrArg List.flatten (splitWhere_leaves_nest (whole_of_mem_lines indented))
  rw [flatten_splitWhere, List.flatten_cons, List.nil_append, ← List.filter_flatten,
    flatten_lines, List.filter_filter] at hread
  exact hread

/-- No token is lost between the lexer and the parser, whichever way the text is cut: the tree has
the tokens that neither break nor indent a line, in their order, with one line break before those of
each line, and each run of lines is one group behind the line that it goes with. -/
theorem treeOf_keeps_tokens {strategy : Strategy} {source : Source} {tokens indented : List Token}
    (ht : tokensOf strategy source = .ok tokens) (hi : indent tokens = .ok indented) :
    treeOf strategy source = .ok (nest (lines indented)) ∧
      (leaves (nest (lines indented))).filter (·.kind != .newline) =
        tokens.filter Token.isPlain ∧
      splitWhere (·.kind == .newline) (leaves (nest (lines indented))) =
        [] :: (lines indented).map (List.filter (·.kind != .whitespace)) ∧
      LaidOut (lines indented) (nest (lines indented)) := by
  have whole := whole_of_mem_lines indented
  refine ⟨?_, ?_, splitWhere_leaves_nest whole, laidOut_nest _ fun line hl => (whole line hl).1⟩
  · exact bind_eq_ok.mpr ⟨tokens, ht, bind_eq_ok.mpr ⟨indented, hi, rfl⟩⟩
  · rw [filter_leaves_nest, filter_indentFrom hi]

/-- The fast strategy skips a sign between two pieces of whitespace, which both indent the line. -/
theorem treeOf_keeps_tokens_around_sign :
    let source : Source := ⟨"", "do # all\n  a\n  ~  b\n\nc", 0⟩
    ∃ tokens indented, tokensOf .fast source = .ok tokens ∧ indent tokens = .ok indented ∧
      (leaves (nest (lines indented))).filter (·.kind != .newline) = tokens.filter Token.isPlain ∧
      (tokens.filter Token.isPlain).map (·.text) = ["do", "a", "b", "c"] ∧
      LaidOut (lines indented) (nest (lines indented)) ∧ (lines indented).length = 4 := by
  intro source
  let token (kind : Kind) (text : String) (start stop : Nat) : Token :=
    ⟨kind, text, ⟨.within source start, .within source stop⟩⟩
  let tokens : List Token := [token .keyword "do" 0 2, token .whitespace " " 2 3,
    token .newline "\n" 8 9, token .whitespace "  " 9 11, token .name "a" 11 12,
    token .newline "\n" 12 13, token .whitespace "  " 13 15, token .whitespace "  " 16 18,
    token .name "b" 18 19, token .newline "\n\n" 19 21, token .name "c" 21 22]
  let indented : List Token := [token .keyword "do" 0 2, token .newline "\n" 8 9,
    token .whitespace "  " 9 11, token .name "a" 11 12, token .newline "\n" 12 13,
    token .whitespace "  " 13 15, token .whitespace "  " 16 18, token .name "b" 18 19,
    token .newline "\n" 19 21, token .name "c" 21 22]
  have ht : tokensOf .fast source = .ok tokens := by decide +kernel
  have hi : indent tokens = .ok indented := by decide +kernel
  obtain ⟨-, hkept, -, hlaid⟩ := treeOf_keeps_tokens ht hi
  exact ⟨tokens, indented, ht, hi, hkept, by decide, hlaid, by decide⟩

end Offside
