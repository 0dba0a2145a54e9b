import Offside.Proofs.IdleLines
import Offside.Proofs.ReadingEquations
import Offside.Proofs.TreeShape

namespace Offside

/-- Whether a line of some lines is not indented, or is indented as the first one is. -/
def isOutermost (lines : List (List Token)) (line : List Token) : Bool :=
  indentation? line == none || indentation? line == lines.head?.bind indentation?

/-- Whether lines are taken apart at the outermost ones, each with the lines up to the next one. -/
structure AreOutermost (lines : List (List Token))
    (ss : List (List Token × List (List Token))) : Prop where
  whole : ss.flatMap (fun s => s.1 :: s.2) = lines
  outermost : ss.map Prod.fst = lines.filter (isOutermost lines)
  inner : ∀ s ∈ ss, ∀ l ∈ s.2, isOutermost lines l = false

/-- Whether a block is read from a line that its keyword begins, with the lines below it as one
group, if there are any. -/
structure Block.IsReadOn (b : Block) (line : List Token) (run : List (List Token)) : Prop where
  keyword : ∃ t ∈ (line.filter (·.kind != .whitespace)).head?,
    t.kind = .keyword ∧ t.text = b.form.keyword ∧ b.heading.origin = t.span.start
  reads : readBlock (lineTrees line ++ layRun run) = .ok b
  below : LaidOut run (nest run)

/-- Whether each whitespace has something right behind it that neither breaks nor indents a line. -/
def IndentsPlain : List Token → Prop
  | [] => True
  | t :: tokens =>
    (t.kind = .whitespace → ∃ u ∈ tokens.head?, u.isPlain = true) ∧ IndentsPlain tokens

section

variable {source : Source} {text rest : List Char} {pieces : List (List Char)}

/-- What is cut from a text that begins with no whitespace does not begin with whitespace either,
also when comments are left out. -/
theorem head_place_not_whitespace (h : CutsInto rest text pieces)
    (hhead : ∀ c ∈ text.head?, isSpacing c = false) (offset : Nat) :
    ∀ t ∈ (dropComments (place source firstKind? offset pieces)).head?, t.kind ≠ .whitespace := by
  induction h generalizing offset with
  | done => simp [place, dropComments]
  | @piece piece text pieces hne hl hcut ih =>
    obtain ⟨kind, hk, ha⟩ := hl.isPiece.exists_kind
    by_cases hcomment : kind = .comment
    · subst hcomment
      have hbehind : ∀ c ∈ text.head?, isSpacing c = false := by
        intro c hc
        rw [head_after_comment hl hk c hc]
        rfl
      simpa [place, hk, dropComments] using ih hbehind (offset + byteLength piece)
    · intro t ht
      obtain ⟨c, more, rfl⟩ := List.exists_cons_of_ne_nil hne
      simp only [place, hk, dropComments, List.filter_cons, bne_iff_ne, ne_eq, hcomment,
        not_false_eq_true, if_true, List.head?_cons, Option.mem_def, Option.some.injEq] at ht
      subst ht
      rintro rfl
      have hspacing := (isRun_iff.mp ha).2 c List.mem_cons_self
      rw [hhead c rfl] at hspacing
      cases hspacing

/-- No whitespace comes right behind whitespace, also when comments are left out. -/
theorem isChain_place (h : CutsInto rest text pieces) (offset : Nat) :
    (dropComments (place source firstKind? offset pieces)).IsChain
      fun t u => t.kind = .whitespace → u.kind ≠ .whitespace := by
  induction h generalizing offset with
  | done => exact .nil
  | @piece piece text pieces hne hl hcut ih =>
    obtain ⟨kind, hk, ha⟩ := hl.isPiece.exists_kind
    have hbehind := ih (offset + byteLength piece)
    by_cases hcomment : kind = .comment
    · simpa [place, hk, dropComments, hcomment] using hbehind
    · simp only [place, hk, dropComments, List.filter_cons, bne_iff_ne, ne_eq, hcomment,
        not_false_eq_true, if_true]
      refine List.isChain_cons.mpr ⟨?_, hbehind⟩
      rintro u hu rfl
      refine head_place_not_whitespace hcut ?_ (offset + byteLength piece) u hu
      -- whitespace behind the piece would make it longer
      intro c hc
      by_contra hspacing
      obtain ⟨more, rfl⟩ := List.head?_eq_some_iff.mp hc
      have hlonger : IsPiece (piece ++ [c]) := by
        refine isPiece_blank (by simp) ?_
        intro d hd
        rcases List.mem_append.mp hd with hd | hd
        · exact (isRun_iff.mp ha).2 d hd
        · obtain rfl := List.mem_singleton.mp hd
          simpa using hspacing
      have hlen := hl.longest (piece ++ [c]) ⟨more, by simp⟩ hlonger
      simp at hlen

end

section

variable {tokens out : List Token}

/-- Normalising leaves whitespace only where a line goes on behind it. -/
theorem indentFrom_indentsPlain {unit? : Option String} {fresh : Bool}
    (apart : tokens.IsChain fun t u => t.kind = .whitespace → u.kind ≠ .whitespace)
    (h : indentFrom unit? fresh tokens = .ok out) :
    IndentsPlain out ∧
      ∀ t ∈ tokens.head?, t.isPlain = true → out.head? = some t := by
  fun_induction indentFrom unit? fresh tokens generalizing out with
  | case1 =>
    obtain rfl := Except.ok.inj h
    exact ⟨trivial, by simp⟩
  | case2 unit? fresh t tokens hk hfresh unit width whole =>
    rename_i ih
    obtain ⟨rest, hrest, h⟩ := bind_eq_ok.mp h
    obtain rfl := Except.ok.inj h
    obtain ⟨hnext, happart⟩ := List.isChain_cons.mp apart
    obtain ⟨hinner, hhead⟩ := ih happart hrest
    refine ⟨⟨fun _ => ?_, hinner⟩, by simp [Token.isPlain, hk]⟩
    cases tokens with
    | nil => simp [endsLine] at hfresh
    | cons u tokens =>
      have hplain : u.isPlain = true := by
        have hw := hnext u rfl hk
        have hn : u.kind ≠ .newline := by simpa [endsLine] using (Bool.and_eq_true_iff.mp hfresh).2
        simpa [Token.isPlain] using ⟨hw, hn⟩
      exact ⟨u, hhead u rfl hplain, hplain⟩
  | case3 => cases h
  | case4 unit? fresh t tokens hk hfresh ih =>
    exact ⟨(ih (List.isChain_cons.mp apart).2 h).1, by simp [Token.isPlain, hk]⟩
  | case5 unit? fresh t tokens hk ih =>
    obtain ⟨rest, hrest, h⟩ := bind_eq_ok.mp h
    obtain rfl := Except.ok.inj h
    refine ⟨⟨fun hw => ?_, (ih (List.isChain_cons.mp apart).2 hrest).1⟩, ?_⟩
    · cases hw
    · simp [Token.isPlain, hk]
  | case6 unit? fresh t tokens hw hn ih =>
    obtain ⟨rest, hrest, h⟩ := bind_eq_ok.mp h
    obtain rfl := Except.ok.inj h
    refine ⟨⟨fun hk => absurd hk hw, (ih (List.isChain_cons.mp apart).2 hrest).1⟩, ?_⟩
    intro u hu _
    exact hu

/-- So no line has whitespace only. -/
theorem exists_seen_of_mem_splitWhere (h : IndentsPlain tokens) :
    ∀ line ∈ splitWhere (·.kind == .newline) tokens, line ≠ [] →
      ∃ t ∈ line, t.kind ≠ .whitespace := by
  induction tokens with
  | nil =>
    intro line hl hne
    exact absurd (List.mem_singleton.mp hl) hne
  | cons t tokens ih =>
    have hbelow := ih h.2
    rw [splitWhere_cons]
    by_cases hn : t.kind = .newline
    · rw [if_pos (by simp [hn])]
      intro line hl hne
      exact hbelow line ((List.mem_cons.mp hl).resolve_left hne) hne
    · rw [if_neg (by simp [hn])]
      intro line hl hne
      rcases List.mem_cons.mp hl with rfl | hl
      · by_cases hw : t.kind = .whitespace
        · -- the line goes on behind its indentation
          obtain ⟨u, hu, hplain⟩ := h.1 hw
          obtain ⟨rest, rfl⟩ := List.head?_eq_some_iff.mp hu
          simp only [Token.isPlain, Bool.and_eq_true, bne_iff_ne] at hplain
          refine ⟨u, ?_, hplain.1⟩
          rw [splitWhere_cons, if_neg (by simp [hplain.2])]
          simp
        · exact ⟨t, List.mem_cons_self, hw⟩
      · exact hbelow line (List.mem_of_mem_tail hl) hne

end

section

variable {lines : List (List Token)} {level unit : String}

/-- Every line of a source says something besides its indentation. -/
theorem exists_seen_of_classicLines {source : Source} (h : classicLines source = .ok lines) :
    ∀ line ∈ lines, ∃ t ∈ line, t.kind ≠ .whitespace := by
  obtain ⟨tokens, htokens, h⟩ := bind_eq_ok.mp h
  obtain ⟨indented, hindented, h⟩ := bind_eq_ok.mp h
  obtain rfl := Except.ok.inj h
  obtain ⟨pieces, hcut, rfl⟩ := classicTokens_eq_ok_iff.mp htokens
  have hplain := (indentFrom_indentsPlain (isChain_place hcut 0) hindented).1
  intro line hl
  obtain ⟨hl, hne⟩ := List.mem_filter.mp hl
  exact exists_seen_of_mem_splitWhere hplain line hl (by simpa using hne)

/-- A level is taken apart at the lines that are not nested under it. -/
theorem map_fst_statementsAt (first : ∀ l ∈ lines.head?, isNestedUnder level l = false) :
    (statementsAt level lines).map Prod.fst = lines.filter (!isNestedUnder level ·) := by
  fun_induction statementsAt level lines with
  | case1 => rfl
  | case2 line lines ih =>
    have hline : isNestedUnder level line = false := first line rfl
    have hrun : (lines.takeWhile (isNestedUnder level)).filter (!isNestedUnder level ·) = [] := by
      refine List.filter_eq_nil_iff.mpr ?_
      intro l hl
      simp [List.mem_takeWhile_imp hl]
    rw [List.map_cons, ih head_dropWhile_not, List.filter_cons_of_pos (by simp [hline])]
    conv_rhs => rw [← List.takeWhile_append_dropWhile (p := isNestedUnder level) (l := lines)]
    rw [List.filter_append, hrun, List.nil_append]

/-- The outermost lines are those that are not nested under the first one. -/
theorem isNestedUnder_eq_not_isOutermost {base : List Token} {others : List (List Token)}
    (hu : AreIndentedBy unit (base :: others)) :
    ∀ l ∈ base :: others, isNestedUnder (levelOf base) l = !isOutermost (base :: others) l := by
  intro l hl
  rw [isNestedUnder, isOutermost, List.head?_cons, Option.bind_some]
  cases hi : indentation? l with
  | none => rfl
  | some s =>
    cases hb : indentation? base with
    | none =>
      obtain ⟨n, hn, hs⟩ := hu.indentation l hl s hi
      have hlen : s.length ≠ 0 := by
        rw [hs, length_repeatText]
        exact (Nat.mul_pos hn hu.positive).ne'
      have hne : s ≠ "" := by
        rintro rfl
        exact hlen rfl
      simp [levelOf, hb, hne]
    | some level => simp [levelOf, hb, bne]

theorem areOutermost_statements (hu : AreIndentedBy unit lines) :
    AreOutermost lines (statements lines) := by
  cases lines with
  | nil => exact ⟨rfl, rfl, fun s hs => by cases hs⟩
  | cons base others =>
    have hnested := isNestedUnder_eq_not_isOutermost hu
    have hbase := not_isNestedUnder_levelOf base
    refine ⟨flatMap_statements _, ?_, ?_⟩
    · rw [statements, map_fst_statementsAt (by simpa using hbase)]
      refine List.filter_congr ?_
      intro l hl
      rw [hnested l hl, Bool.not_not]
    · intro s hs l hl
      have hwithin := isInfix_of_mem_statements hs
      have hinner := (mem_statementsAt hs).2 l hl
      rw [hnested l (hwithin.subset (List.mem_cons_of_mem _ hl))] at hinner
      simpa using hinner

end

theorem keyword_of_blockStep {r : Readers} {t : Token} {span : List Tree} {b : Block}
    (h : blockStep r (.token t :: span) = .ok b) :
    t.kind = .keyword ∧ t.text = b.form.keyword ∧ b.heading.origin = t.span.start := by
  obtain ⟨u, rest, body, hspan, origin, -⟩ := blockStep_parts h
  obtain rfl := Tree.token.inj (List.cons.inj hspan).1
  rw [blockStep] at h
  split at h
  next form ht =>
    obtain ⟨⟨heading, body⟩, -, hread⟩ := bind_eq_ok.mp h
    have hkind := kind_of_introducedBy? ht
    rw [BlockForm.introducedBy?, if_pos hkind] at ht
    rw [(isReadFrom_of_readBody hread).1]
    have htext := List.find?_some ht
    exact ⟨hkind, (eq_of_beq htext).symm, origin⟩
  next => cases h

section

variable {line : List Token} {run : List (List Token)}

theorem exists_cons_of_seen (seen : ∃ t ∈ line, t.kind ≠ .whitespace) :
    ∃ first rest, line.filter (·.kind != .whitespace) = first :: rest := by
  obtain ⟨t, ht, hw⟩ := seen
  have hmem : t ∈ line.filter (·.kind != .whitespace) :=
    List.mem_filter.mpr ⟨ht, by simpa using hw⟩
  exact List.exists_cons_of_ne_nil (List.ne_nil_of_mem hmem)

/-- What is read from a line with something on it begins with the keyword of that line. -/
theorem Block.isReadOn {b : Block} (seen : ∃ t ∈ line, t.kind ≠ .whitespace)
    (whole : ∀ l ∈ run, l ≠ []) (h : readBlock (statementSpan (line, run)) = .ok b) :
    b.IsReadOn line run := by
  obtain ⟨first, rest, hline⟩ := exists_cons_of_seen seen
  refine ⟨⟨first, by rw [hline]; rfl, ?_⟩, h, laidOut_nest run whole⟩
  rw [readBlock_eq, statementSpan, lineTrees, hline] at h
  exact keyword_of_blockStep h

/-- Statements are read one by one, and none is left out. -/
theorem readSymbols_nest {unit : String} {lines : List (List Token)} {symbols : List Block}
    (hu : AreIndentedBy unit lines) (seen : ∀ l ∈ lines, ∃ t ∈ l, t.kind ≠ .whitespace)
    (h : readSymbols readers (nest lines) = .ok symbols) :
    List.Forall₂ (fun s b => b.IsReadOn s.1 s.2) (statements lines) symbols := by
  have hwithin := fun s (hs : s ∈ statements lines) => (isInfix_of_mem_statements hs).subset
  have hspans : (splitWhere (·.hasKind .newline) (nest lines)).filter (!·.isEmpty) =
      (statements lines).map statementSpan := by
    rw [splitWhere_nest hu, List.filter_cons_of_neg (by simp), List.filter_eq_self]
    intro span hspan
    obtain ⟨s, hs, rfl⟩ := List.mem_map.mp hspan
    obtain ⟨first, rest, hline⟩ := exists_cons_of_seen (seen s.1 (hwithin s hs List.mem_cons_self))
    simp [statementSpan, lineTrees, hline]
  rw [readSymbols, hspans] at h
  have hread := List.forall₂_map_left_iff.mp (forall₂_of_mapM h)
  have hboth := (List.forall₂_and_left _ _).mpr
    ⟨fun s (hs : s ∈ statements lines) => hs, hread⟩
  refine hboth.imp ?_
  rintro ⟨line, run⟩ b ⟨hs, hb⟩
  refine Block.isReadOn (seen line (hwithin _ hs List.mem_cons_self)) ?_ hb
  exact fun l hl => (hu.line l (hwithin _ hs (List.mem_cons_of_mem _ hl))).1

end

/-- The symbols of a program are its outermost lines one by one: each begins with the keyword of its
line, and is read from that line and the lines up to the next outermost one. -/
theorem symbols_of_outermost_lines {source : Source} {program : Block}
    (h : readProgram .classic source = .ok program) :
    ∃ lines ss symbols, classicLines source = .ok lines ∧ AreOutermost lines ss ∧
      program = .closure ⟨[], source.start⟩ "main" symbols ∧
      List.Forall₂ (fun s b => b.IsReadOn s.1 s.2) ss symbols := by
  obtain ⟨tree, -, hprogram⟩ := bind_eq_ok.mp h
  obtain ⟨symbols, -, hprogram⟩ := bind_eq_ok.mp hprogram
  obtain rfl := Except.ok.inj hprogram
  obtain ⟨lines, hlines, hread, -⟩ := classicLines_of_readProgram h
  obtain ⟨unit, hu⟩ := (layout_of_classicLines hlines).1
  exact ⟨lines, statements lines, symbols, hlines, areOutermost_statements hu, rfl,
    readSymbols_nest hu (exists_seen_of_classicLines hlines) hread⟩

/-- Three symbols on five lines: the first one is indented, and the second one is not. -/
theorem symbols_of_indented_lines :
    let source : Source := ⟨"", "\n  closure k\n      import b # c\nimport d\n  do\n      f", 0⟩
    ∃ program lines ss symbols, readProgram .classic source = .ok program ∧
      classicLines source = .ok lines ∧ AreOutermost lines ss ∧
      program = .closure ⟨[], source.start⟩ "main" symbols ∧
      List.Forall₂ (fun s b => b.IsReadOn s.1 s.2) ss symbols ∧
      lines.length = 5 ∧ symbols.map Block.form = [.closure, .imports, .sequence] := by
  intro source
  obtain ⟨program, h, hforms⟩ : ∃ program, readProgram .classic source = .ok program ∧
      program.symbols.map Block.form = [.closure, .imports, .sequence] := by
    have hsome : (readProgram .classic source).toOption.map (·.symbols.map Block.form) =
        some [.closure, .imports, .sequence] := by cbv
    cases hr : readProgram .classic source with
    | ok program =>
      rw [hr] at hsome
      exact ⟨program, rfl, Option.some.inj hsome⟩
    | error d =>
      rw [hr] at hsome
      cases hsome
  have hcount : (classicLines source).toOption.map List.length = some 5 := by cbv
  obtain ⟨lines, ss, symbols, hlines, houter, rfl, hread⟩ := symbols_of_outermost_lines h
  rw [hlines] at hcount
  exact ⟨_, lines, ss, symbols, h, hlines, houter, rfl, hread, Option.some.inj hcount, hforms⟩

end Offside
