import Offside.Proofs.ReadingEquations
import Offside.Proofs.Skeleton

namespace Offside

section

variable {unit : String} {level : Nat} {line tokens : List Token}

theorem IsLaid.indentation? (h : IsLaid unit level line tokens) : Offside.indentation? line =
    if level = 0 then none else some (repeatText level unit) := by
  obtain ⟨⟨margin, rfl⟩, hne, hplain⟩ := h
  rw [indented]
  split
  next =>
    cases tokens with
    | nil => exact absurd rfl hne
    | cons t rest => exact if_neg (hplain t List.mem_cons_self).2
  next => rfl

theorem IsLaid.levelOf (h : IsLaid unit level line tokens) :
    Offside.levelOf line = repeatText level unit := by
  rw [Offside.levelOf, h.indentation?]
  split
  next h0 =>
    rw [h0]
    rfl
  next => rfl

theorem IsLaid.isNestedUnder {k : Nat} (hu : 0 < unit.length)
    (h : IsLaid unit level line tokens) :
    isNestedUnder (repeatText k unit) line = (level != 0 && level != k) := by
  refine isNestedUnder_repeatText hu h.levelOf ?_
  rw [h.indentation?]
  split
  next h0 => simp [h0]
  next h0 => simp [h0]

theorem IsLaid.lineTrees (h : IsLaid unit level line tokens) :
    Offside.lineTrees line = tokens.map .token := by
  obtain ⟨⟨margin, rfl⟩, hne, hplain⟩ := h
  have hfilter : tokens.filter (·.kind != .whitespace) = tokens :=
    List.filter_eq_self.mpr fun t ht => by simpa using (hplain t ht).2
  rw [Offside.lineTrees, indented]
  split
  next => rw [hfilter]
  next => rw [List.filter_cons_of_neg (by simp), hfilter]

theorem areIndentedBy_of_laid {lines : List (List Token)} (hu : 0 < unit.length)
    (h : ∀ line ∈ lines, ∃ m tokens, IsLaid unit m line tokens) : AreIndentedBy unit lines := by
  refine ⟨hu, ?_, ?_⟩
  · intro line hl
    obtain ⟨m, tokens, ⟨margin, rfl⟩, hne, hplain⟩ := h line hl
    rw [indented]
    split
    next => exact ⟨hne, fun t ht => (hplain t ht).1⟩
    next =>
      refine ⟨List.cons_ne_nil _ _, fun t ht => ?_⟩
      rcases List.mem_cons.mp ht with rfl | ht
      · exact Kind.noConfusion
      · exact (hplain t ht).1
  · intro line hl s hs
    obtain ⟨m, tokens, hlaid⟩ := h line hl
    rw [hlaid.indentation?] at hs
    split at hs
    next => cases hs
    next hm => exact ⟨m, Nat.pos_of_ne_zero hm, (Option.some.inj hs).symm⟩

/-- Lines at one level, with deeper lines below them, are the statements of all these lines. -/
theorem statementsAt_flatMap (hu : 0 < unit.length) {rows : List (List Token × List (List Token))}
    (laid : ∀ row ∈ rows, ∃ tokens, IsLaid unit level row.1 tokens)
    (deeper : ∀ row ∈ rows, ∀ line ∈ row.2, ∃ m > level, ∃ tokens, IsLaid unit m line tokens) :
    statementsAt (repeatText level unit) (rows.flatMap fun row => row.1 :: row.2) = rows := by
  induction rows with
  | nil => rw [List.flatMap_nil, statementsAt]
  | cons row rows ih =>
    obtain ⟨hrow, hrows⟩ := List.forall_mem_cons.mp laid
    obtain ⟨hrun, hruns⟩ := List.forall_mem_cons.mp deeper
    have hnested : ∀ line ∈ row.2, isNestedUnder (repeatText level unit) line = true := by
      intro line hl
      obtain ⟨m, hm, tokens, hlaid⟩ := hrun line hl
      rw [hlaid.isNestedUnder hu]
      simp only [Bool.and_eq_true, bne_iff_ne]
      omega
    have hnext : ∀ line ∈ (rows.flatMap fun row => row.1 :: row.2).head?,
        ¬isNestedUnder (repeatText level unit) line = true := by
      intro line hl
      cases rows with
      | nil => cases hl
      | cons next rows =>
        obtain rfl := Option.some.inj hl
        obtain ⟨tokens, hlaid⟩ := hrows next List.mem_cons_self
        rw [hlaid.isNestedUnder hu]
        simp
    have htake : (row.2 ++ rows.flatMap fun row => row.1 :: row.2).takeWhile
        (isNestedUnder (repeatText level unit)) = row.2 := by
      rw [List.takeWhile_append_of_pos hnested]
      cases hr : rows.flatMap fun row => row.1 :: row.2 with
      | nil => exact List.append_nil _
      | cons line more =>
        rw [List.takeWhile_cons_of_neg (hnext line (by rw [hr]; rfl)), List.append_nil]
    have hdrop : (row.2 ++ rows.flatMap fun row => row.1 :: row.2).dropWhile
        (isNestedUnder (repeatText level unit)) = rows.flatMap fun row => row.1 :: row.2 := by
      rw [List.dropWhile_append_of_pos hnested]
      cases hr : rows.flatMap fun row => row.1 :: row.2 with
      | nil => rfl
      | cons line more => rw [List.dropWhile_cons_of_neg (hnext line (by rw [hr]; rfl))]
    rw [List.flatMap_cons, List.cons_append, statementsAt, htake, hdrop, ih hrows hruns]

theorem statements_flatMap (hu : 0 < unit.length) {rows : List (List Token × List (List Token))}
    (laid : ∀ row ∈ rows, ∃ tokens, IsLaid unit level row.1 tokens)
    (deeper : ∀ row ∈ rows, ∀ line ∈ row.2, ∃ m > level, ∃ tokens, IsLaid unit m line tokens) :
    statements (rows.flatMap fun row => row.1 :: row.2) = rows := by
  have h := statementsAt_flatMap hu laid deeper
  cases rows with
  | nil => rfl
  | cons row rows =>
    obtain ⟨tokens, hlaid⟩ := laid row List.mem_cons_self
    rw [List.flatMap_cons, List.cons_append, statements, hlaid.levelOf] at *
    exact h

theorem Clause.run_deeper (clause : Clause) (level : Nat) :
    ∀ line ∈ (clause.row unit level).2, ∃ m > level, ∃ tokens, IsLaid unit m line tokens := by
  cases clause with
  | expression margin e => exact fun line h => by cases h
  | statement s => exact s.run_deeper level

/-- Clauses that stand side by side are divided again. -/
theorem statements_stepLines (hu : 0 < unit.length) (clauses : List Clause) :
    statements (stepLines unit level clauses) = clauses.map (Clause.row unit level) := by
  rw [stepLines_eq]
  refine @statements_flatMap unit level hu _ ?_ ?_
  · intro row hr
    obtain ⟨clause, -, rfl⟩ := List.mem_map.mp hr
    exact ⟨_, clause.isLaid⟩
  · intro row hr
    obtain ⟨clause, -, rfl⟩ := List.mem_map.mp hr
    exact clause.run_deeper level

theorem areIndentedBy_stepLines (hu : 0 < unit.length) (clauses : List Clause) :
    AreIndentedBy unit (stepLines unit level clauses) := by
  refine areIndentedBy_of_laid hu fun line hl => ?_
  obtain ⟨m, -, hlaid⟩ := stepLines_deep clauses level line hl
  exact ⟨m, hlaid⟩

/-- What a clause at a level is read from. -/
def Clause.span (unit : String) (level : Nat) (clause : Clause) : List Tree :=
  statementSpan (clause.row unit level)

theorem Clause.span_eq (clause : Clause) : clause.span unit level =
    clause.line.map .token ++ layRun (clause.row unit level).2 := by
  rw [Clause.span, statementSpan, clause.isLaid.lineTrees]

theorem Clause.lines_eq_stepLines (clause : Clause) :
    clause.lines unit level = stepLines unit level [clause] := by
  rw [stepLines, stepLines, List.append_nil]

theorem unwrap_nest_lines (hu : 0 < unit.length) (clause : Clause) :
    unwrap (nest (clause.lines unit level)) = unwrap (clause.span unit level) := by
  rw [clause.lines_eq_stepLines]
  exact unwrap_nest_of_sole (areIndentedBy_stepLines hu [clause]) (statements_stepLines hu [clause])

theorem unwrap_layRun_lines (hu : 0 < unit.length) (clause : Clause) :
    unwrap (layRun (clause.lines unit level)) = unwrap (clause.span unit level) := by
  rw [unwrap_layRun (by rw [clause.lines_eq]; exact List.cons_ne_nil _ _), unwrap_nest_lines hu]

theorem Clause.span_ne_nil (clause : Clause) : clause.span unit level ≠ [] := by
  have hlaid : IsLaid unit level (clause.row unit level).1 clause.line := clause.isLaid
  rw [clause.span_eq]
  exact List.append_ne_nil_of_left_ne_nil (mt List.map_eq_nil_iff.mp hlaid.nonempty) _

theorem filter_span_ne_nil (clauses : List Clause) :
    (clauses.map (Clause.span unit level)).filter (!·.isEmpty) =
      clauses.map (Clause.span unit level) := by
  refine List.filter_eq_self.mpr fun span hm => ?_
  obtain ⟨clause, -, rfl⟩ := List.mem_map.mp hm
  simpa using clause.span_ne_nil

theorem readSymbols_linesOf (hu : 0 < unit.length) (statements : List Statement) :
    readSymbols readers (nest (linesOf unit level statements)) =
      (statements.map fun s => (Clause.statement s).span unit level).mapM readBlock := by
  have hmap : (statements.map Clause.statement).map (statementSpan ∘ Clause.row unit level) =
      (statements.map Clause.statement).map (Clause.span unit level) := rfl
  rw [linesOf_eq, readSymbols, splitWhere_nest (areIndentedBy_stepLines hu _),
    statements_stepLines hu, List.filter_cons_of_neg (by simp), List.map_map, hmap,
    filter_span_ne_nil, List.map_map]
  rfl

/-! Each header is taken apart into what it was made of. -/

theorem Series.filterMap_name? (series : Series) :
    (series.tokens.map Tree.token).filterMap Tree.name? = series.names := by
  have hname : ∀ mark : Mark .name, (Tree.token mark.token).name? = some mark.token :=
    fun mark => if_pos mark.isKind
  have hcomma : ∀ mark : Mark .comma, (Tree.token mark.token).name? = none :=
    fun mark => if_neg (by rw [mark.isKind]; exact Kind.noConfusion)
  obtain ⟨first, others⟩ := series
  rw [tokens, names, List.map_cons, List.filterMap_cons_some (hname first)]
  congr 1
  induction others with
  | nil => rfl
  | cons other others ih =>
    rw [List.flatMap_cons, List.map_append, List.filterMap_append, ih]
    simp [hname, hcomma]

theorem Enclosed.filterMap_name? {opening closing : Kind} (enclosed : Enclosed opening closing) :
    (enclosed.inner.map Tree.token).filterMap Tree.name? = enclosed.names := by
  rw [inner, names]
  cases enclosed.series with
  | none => rfl
  | some series => exact series.filterMap_name?

theorem Opening.declarations? (opening : Opening) {rest : List Token}
    (h : opening.declared = none → ∀ t ∈ rest.head?, t.kind ≠ .openBracket) :
    Offside.declarations? ((((opening.declared.map Enclosed.tokens).getD []) ++ rest).map .token) =
      some (opening.declarations, rest.map .token) := by
  rw [declarations]
  cases hd : opening.declared with
  | none =>
    cases rest with
    | nil => rfl
    | cons t rest =>
      have hk : Tree.hasKind .openBracket (.token t) = false := by
        simpa [Tree.hasKind] using h hd t rfl
      exact if_neg (by simp [hk])
  | some enclosed =>
    have hopener : Tree.hasKind .openBracket (.token enclosed.opener.token) = true := by
      simp [Tree.hasKind, enclosed.opener.isKind]
    have hcloser : Tree.hasKind .closeBracket (.token enclosed.closer.token) = true := by
      simp [Tree.hasKind, enclosed.closer.isKind]
    have hinner : ∀ tree ∈ enclosed.inner.map Tree.token,
        (!tree.hasKind .closeBracket) = true := by
      intro tree hm
      obtain ⟨t, ht, rfl⟩ := List.mem_map.mp hm
      rcases Enclosed.kind_of_mem_inner ht with hk | hk <;> simp [Tree.hasKind, hk]
    have hneg : ¬(!Tree.hasKind .closeBracket (.token enclosed.closer.token)) = true := by
      simp [hcloser]
    simp only [Option.map_some, Option.getD_some, Enclosed.tokens, List.cons_append,
      List.append_assoc, List.nil_append, List.map_cons, List.map_append, Offside.declarations?,
      hopener, if_true]
    rw [List.dropWhile_append_of_pos hinner,
      List.dropWhile_cons_of_neg (p := fun tree : Tree => !tree.hasKind .closeBracket) hneg,
      List.takeWhile_append_of_pos hinner,
      List.takeWhile_cons_of_neg (p := fun tree : Tree => !tree.hasKind .closeBracket) hneg,
      List.append_nil, enclosed.filterMap_name?]

theorem Opening.heading? (opening : Opening) (form : BlockForm) {rest : List Token}
    (h : opening.declared = none → ∀ t ∈ rest.head?, t.kind ≠ .openBracket) :
    Offside.heading? form ((opening.tokens form ++ rest).map .token) =
      some (opening.heading, rest.map .token) := by
  rw [tokens, List.cons_append, List.map_cons, Offside.heading?, opening.declarations? h,
    if_pos (by simp)]
  rfl

theorem Statement.head_header (statement : Statement) :
    ∀ t ∈ statement.header.head?, t.kind ≠ .openBracket := by
  have hname : ∀ mark : Mark .name, mark.token.kind ≠ .openBracket := by
    intro mark
    rw [mark.isKind]
    exact Kind.noConfusion
  intro t ht
  cases statement with
  | imports opening path =>
    rcases path.kinds t (List.mem_of_mem_head? ht) with hk | hk <;> rw [hk] <;>
      exact Kind.noConfusion
  | closure opening name symbols =>
    obtain rfl := Option.some.inj ht
    exact hname name
  | conditional opening condition body => exact condition.unbracketed t ht
  | otherwise opening body => cases ht
  | sequence opening step steps => cases ht
  | each opening iterator word iteratee body =>
    obtain rfl := Option.some.inj ht
    exact hname iterator
  | repetition opening count body => exact count.unbracketed t ht
  | function opening name parameters body =>
    obtain rfl := Option.some.inj ht
    exact hname name

/-- A statement is read as a block of its form, from its header and the lines below it. -/
theorem Statement.readBlock_eq (statement : Statement) :
    readBlock ((Clause.statement statement).span unit level) =
      statement.form.readBody readers statement.opening.heading
        (statement.header.map .token ++ layRun (statement.run unit level)) := by
  rw [Offside.readBlock_eq, Clause.span_eq]
  refine blockStep_eq_readBody (heading?_append_groups ?_ fun tree hm => ?_)
  · exact statement.opening.heading? statement.form fun _ => statement.head_header
  · exact isGroup_of_mem_layRun (List.mem_of_mem_head? hm)

theorem isOnLine_map_token (h : ∀ t ∈ line, t.kind ≠ .newline) :
    IsOnLine line (line.map .token) := by
  intro tree hm
  obtain ⟨t, ht, rfl⟩ := List.mem_map.mp hm
  exact ⟨t, ht, rfl, h t ht⟩

theorem Statement.headerAndBody (statement : Statement) :
    Offside.headerAndBody (statement.header.map .token ++ layRun (statement.run unit level)) =
      (statement.header.map .token, layRun (statement.run unit level)) :=
  headerAndBody_append_layRun
    (isOnLine_map_token fun _ ht => (Statement.kind_of_mem_header ht).1) _

/-- Whether the brackets in some tokens are closed, with no comma outside of them. -/
structure IsClosed (tokens : List Token) : Prop where
  balanced : IsBalanced (tokens.map .token)
  undivided : IsUndivided [.comma] .top (tokens.map .token)

theorem IsClosed.append {tokens' : List Token} (h : IsClosed tokens) (h' : IsClosed tokens') :
    IsClosed (tokens ++ tokens') := by
  refine ⟨?_, ?_⟩
  · rw [IsBalanced, List.map_append, List.foldl_append, h.balanced, h'.balanced]
  · rw [List.map_append, isUndivided_append, h.balanced]
    exact ⟨h.undivided, h'.undivided⟩

theorem isClosed_nil : IsClosed [] :=
  ⟨rfl, isUndivided_nil⟩

theorem IsClosed.cons {t : Token} (h : IsClosed tokens) (flat : Depth.top.after (.token t) = .top)
    (ht : t.kind ≠ .comma) : IsClosed (t :: tokens) := by
  refine ⟨?_, ?_⟩
  · rw [IsBalanced, List.map_cons, List.foldl_cons, flat]
    exact h.balanced
  · rw [List.map_cons, isUndivided_cons, flat]
    refine ⟨?_, h.undivided⟩
    simp [separator?, Token.hasKindIn, ht]

/-- Commas below the top divide nothing. -/
theorem isUndivided_inner {depth : Depth} (hd : depth ≠ .top)
    (h : ∀ t ∈ tokens, t.kind = .name ∨ t.kind = .comma) :
    (tokens.map Tree.token).foldl Depth.after depth = depth ∧
      IsUndivided [.comma] depth (tokens.map .token) := by
  induction tokens with
  | nil => exact ⟨rfl, isUndivided_nil⟩
  | cons t tokens ih =>
    obtain ⟨ht, hts⟩ := List.forall_mem_cons.mp h
    have hstay : depth.after (.token t) = depth := by
      rcases ht with hk | hk <;> simp only [Depth.after, hk]
    rw [List.map_cons, List.foldl_cons, isUndivided_cons, hstay]
    refine ⟨(ih hts).1, ?_, (ih hts).2⟩
    simp [separator?, hd]

theorem Enclosed.isClosed {opening closing : Kind} (enclosed : Enclosed opening closing)
    (inside : Depth) (hd : inside ≠ .top) (hcomma : closing ≠ .comma)
    (opens : ∀ t : Token, t.kind = opening → Depth.top.after (.token t) = inside)
    (closes : ∀ t : Token, t.kind = closing → inside.after (.token t) = .top) :
    IsClosed enclosed.tokens := by
  obtain ⟨hinner, hplain⟩ := isUndivided_inner hd fun _ => enclosed.kind_of_mem_inner
  have hopen := opens _ enclosed.opener.isKind
  have hclose := closes _ enclosed.closer.isKind
  refine ⟨?_, ?_⟩
  · rw [IsBalanced, tokens, List.map_cons, List.foldl_cons, hopen, List.map_append,
      List.foldl_append, hinner]
    exact hclose
  · rw [tokens, List.map_cons, isUndivided_cons, hopen, List.map_append, isUndivided_append, hinner]
    refine ⟨by simp [separator?, hd], hplain, isUndivided_cons.mpr ⟨?_, isUndivided_nil⟩⟩
    simp [separator?, Token.hasKindIn, enclosed.closer.isKind, hcomma]

theorem Opening.isClosed (opening : Opening) (form : BlockForm) :
    IsClosed (opening.tokens form) := by
  have hdeclared : IsClosed ((opening.declared.map Enclosed.tokens).getD []) := by
    cases opening.declared with
    | none => exact isClosed_nil
    | some enclosed =>
      refine enclosed.isClosed ⟨0, 1, 0⟩ (by decide) (by decide) ?_ ?_ <;> intro t ht <;>
        simp [Depth.after, ht, Depth.top]
  exact hdeclared.cons rfl Kind.noConfusion

theorem Readable.isClosed (e : Readable) : IsClosed e.tokens :=
  ⟨e.balanced, topIndex?_eq_none_iff.mp e.undivided⟩

theorem Word.flat (word : Word) :
    Depth.top.after (.token word.token) = .top ∧ word.token.kind ≠ .comma := by
  obtain ⟨t, hw⟩ := word
  refine ⟨?_, ?_⟩
  · unfold Depth.after
    dsimp only
    split <;> simp_all [Kind.isWord]
  · intro hk
    rw [hk] at hw
    cases hw

theorem isClosed_of_flat (h : ∀ t ∈ tokens, t.kind = .name ∨ t.kind = .dot) :
    IsClosed tokens := by
  induction tokens with
  | nil => exact isClosed_nil
  | cons t tokens ih =>
    obtain ⟨ht, hts⟩ := List.forall_mem_cons.mp h
    refine (ih hts).cons ?_ ?_
    · rcases ht with hk | hk <;> simp only [Depth.after, hk]
    · rcases ht with hk | hk <;> rw [hk] <;> exact Kind.noConfusion

theorem Mark.isClosed_cons (name : Mark .name) (h : IsClosed tokens) :
    IsClosed (name.token :: tokens) := by
  refine h.cons ?_ ?_
  · simp only [Depth.after, name.isKind]
  · rw [name.isKind]
    exact Kind.noConfusion

theorem Statement.isClosed_header (statement : Statement) : IsClosed statement.header := by
  cases statement with
  | imports opening path => exact isClosed_of_flat path.kinds
  | closure opening name symbols => exact name.isClosed_cons isClosed_nil
  | conditional opening condition body => exact condition.isClosed
  | otherwise opening body => exact isClosed_nil
  | sequence opening step steps => exact isClosed_nil
  | each opening iterator word iteratee body =>
    exact iterator.isClosed_cons (iteratee.isClosed.cons word.flat.1 word.flat.2)
  | repetition opening count body => exact count.isClosed
  | function opening name parameters body =>
    refine name.isClosed_cons ?_
    refine parameters.isClosed ⟨1, 0, 0⟩ (by decide) (by decide) ?_ ?_ <;> intro t ht <;>
      simp [Depth.after, ht, Depth.top]

theorem Clause.isClosed (clause : Clause) : IsClosed clause.line := by
  cases clause with
  | expression margin e => exact e.isClosed
  | statement s => exact (s.opening.isClosed s.form).append s.isClosed_header

/-- The steps of a sequence are divided again. -/
theorem stepsOf_stepLines (hu : 0 < unit.length) (clauses : List Clause) :
    stepsOf (layRun (stepLines unit level clauses)) = clauses.map (Clause.span unit level) := by
  have hindented : AreIndentedBy unit (stepLines unit level clauses) :=
    areIndentedBy_stepLines hu clauses
  have hstatements := @statements_stepLines unit level hu clauses
  have hpart : ∀ clause ∈ clauses, partsBetween [.comma, .newline] (clause.span unit level) =
      [clause.span unit level] := by
    intro clause hm
    refine partsBetween_statementSpan hindented ?_ ?_
    · rw [hstatements]
      exact List.mem_map_of_mem hm
    · rw [clause.isLaid.lineTrees, topIndex?_eq_none_iff]
      exact clause.isClosed.undivided
  have hparts : partsBetween [.comma, .newline] (nest (stepLines unit level clauses)) =
      [] :: clauses.map (Clause.span unit level) := by
    have hbalanced : ∀ row ∈ clauses.map (Clause.row unit level),
        row.1 ≠ [] ∧ IsBalanced (lineTrees row.1) := by
      intro row hr
      obtain ⟨clause, -, rfl⟩ := List.mem_map.mp hr
      have hlaid : IsLaid unit level (clause.row unit level).1 clause.line := clause.isLaid
      refine ⟨?_, ?_⟩
      · intro he
        have htrees := hlaid.lineTrees
        rw [he] at htrees
        exact hlaid.nonempty (List.map_eq_nil_iff.mp htrees.symm)
      · rw [hlaid.lineTrees]
        exact clause.isClosed.balanced
    have hflat : partsBetween [.comma, .newline] ([] ++ (clauses.map (Clause.row unit level)).flatMap
        fun row => layLine row.1 ++ layRun row.2) = partsBetween [.comma, .newline] [] ++
          (clauses.map (Clause.row unit level)).flatMap fun row =>
            partsBetween [.comma, .newline] (statementSpan row) :=
      partsBetween_flatMap rfl rfl hbalanced
    rw [nest_eq, hstatements, ← List.nil_append (List.flatMap _ _), hflat, List.flatMap_map]
    rw [List.map_eq_flatMap]
    exact congrArg ([] :: ·) (List.flatMap_congr hpart)
  rw [stepsOf, ungroup_layRun]
  have hfilter := @filter_span_ne_nil unit level clauses
  cases hn : nest (stepLines unit level clauses) with
  | nil =>
    rw [hn] at hparts
    exact (List.cons.inj hparts).2
  | cons tree rest =>
    rw [← hn, split_of_ne_nil (by rw [hn]; exact List.cons_ne_nil _ _), ← partsBetween, hparts,
      List.filter_cons_of_neg (by simp), hfilter]

/-! Reading a statement gives the block it stands for, and reading a clause its value. -/

theorem Readers.valueAt_of_ok {part : List Tree} {v : Value} (h : readValue part = .ok v)
    (p : Position) : readers.valueAt part p = .ok v := by
  rw [Readers.valueAt]
  show (readValue part).orAt p = .ok v
  rw [h]
  rfl

theorem Readable.readsAt (e : Readable) (p : Position) :
    readers.valueAt (e.tokens.map .token) p = .ok e.value :=
  Readers.valueAt_of_ok e.reads p

theorem readValue_congr {span span' : List Tree} (h : unwrap span = unwrap span') :
    readValue span = readValue span' := by
  rw [readValue_eq, readValue_eq, valueStep, valueStep, h]

theorem Clause.plain_span (s : Statement) :
    ∀ tree ∈ (Clause.statement s).span unit level, tree.hasKind .newline = false := by
  rw [Clause.span_eq]
  have hlaid : IsLaid unit level ((Clause.statement s).row unit level).1 s.line :=
    (Clause.statement s).isLaid
  exact (isOnLine_map_token fun t ht => (hlaid.plain t ht).1).plain _

theorem mapM_pathToken? (path : Path) :
    (path.tokens.map Tree.token).mapM pathToken? = some path.tokens := by
  have key : ∀ ts : List Token, (∀ t ∈ ts, t.kind = .name ∨ t.kind = .dot) →
      (ts.map Tree.token).mapM pathToken? = some ts := by
    intro ts
    induction ts with
    | nil => exact fun _ => rfl
    | cons t ts ih =>
      intro h
      obtain ⟨ht, hts⟩ := List.forall_mem_cons.mp h
      have hone : pathToken? (.token t) = some t :=
        if_pos (by rcases ht with hk | hk <;> simp [Token.hasKindIn, hk])
      rw [List.map_cons, List.mapM_cons, hone, ih hts]
      rfl
  exact key path.tokens path.kinds

theorem isEmpty_layRun_lines (clause : Clause) :
    (layRun (clause.lines unit level)).isEmpty = false := by
  rw [clause.lines_eq]
  rfl

theorem isEmpty_map_token (hne : tokens ≠ []) : (tokens.map Tree.token).isEmpty = false := by
  rw [List.isEmpty_map]
  exact List.isEmpty_eq_false_iff.mpr hne

theorem Series.mapM_name? (series : Series) :
    (((series.tokens.map Tree.token).filter (!·.hasKind .comma)).mapM Tree.name?) =
      some series.names := by
  have hname : ∀ mark : Mark .name, (Tree.token mark.token).name? = some mark.token :=
    fun mark => if_pos mark.isKind
  have hkind : ∀ mark : Mark .name, Tree.hasKind .comma (.token mark.token) = false := by
    intro mark
    simp [Tree.hasKind, mark.isKind]
  have hcomma : ∀ mark : Mark .comma, Tree.hasKind .comma (.token mark.token) = true := by
    intro mark
    simp [Tree.hasKind, mark.isKind]
  obtain ⟨first, others⟩ := series
  rw [tokens, names, List.map_cons, List.filter_cons_of_pos (by simp [hkind]), List.mapM_cons,
    hname]
  have hothers : (((others.flatMap fun other => [other.1.token, other.2.token]).map
      Tree.token).filter (!·.hasKind .comma)).mapM Tree.name? = some (others.map (·.2.token)) := by
    induction others with
    | nil => rfl
    | cons other others ih =>
      rw [List.flatMap_cons, List.map_append, List.filter_append]
      simp only [List.map_cons, List.map_nil]
      rw [List.filter_cons_of_neg (by simp [hcomma]), List.filter_cons_of_pos (by simp [hkind]),
        List.filter_nil, List.cons_append, List.nil_append, List.mapM_cons, hname, ih]
      rfl
  rw [hothers]
  rfl

theorem Enclosed.mapM_name? {opening closing : Kind} (enclosed : Enclosed opening closing) :
    ((enclosed.inner.map Tree.token).filter (!·.hasKind .comma)).mapM Tree.name? =
      some enclosed.names := by
  rw [inner, names]
  cases enclosed.series with
  | none => rfl
  | some series => exact series.mapM_name?

theorem closerIndex?_of_plain {opening closing : Kind} {span rest : List Tree} {closer : Tree}
    (plain : ∀ tree ∈ span, tree.hasKind opening = false ∧ tree.hasKind closing = false)
    (hopen : closer.hasKind opening = false) (hclose : closer.hasKind closing = true) :
    closerIndex? opening closing 0 (span ++ closer :: rest) = some span.length := by
  induction span with
  | nil => simp [closerIndex?, hopen, hclose]
  | cons tree span ih =>
    obtain ⟨⟨ho, hc⟩, hspan⟩ := List.forall_mem_cons.mp plain
    simp [closerIndex?, ho, hc, ih hspan]

theorem signature?_append (parameters : Enclosed .openParen .closeParen) (rest : List Tree) :
    signature? (parameters.tokens.map .token ++ rest) =
      some (parameters.names.map (·.text), rest) := by
  have hopener : Tree.hasKind .openParen (.token parameters.opener.token) = true := by
    simp [Tree.hasKind, parameters.opener.isKind]
  have hcloser : closerIndex? .openParen .closeParen 0
      (parameters.inner.map Tree.token ++ .token parameters.closer.token :: rest) =
        some (parameters.inner.map Tree.token).length := by
    refine closerIndex?_of_plain ?_ ?_ ?_
    · intro tree hm
      obtain ⟨t, ht, rfl⟩ := List.mem_map.mp hm
      rcases parameters.kind_of_mem_inner ht with hk | hk <;> simp [Tree.hasKind, hk]
    · simp [Tree.hasKind, parameters.closer.isKind]
    · simp [Tree.hasKind, parameters.closer.isKind]
  have hdrop : ∀ (xs : List Tree) (x : Tree), (xs ++ x :: rest).drop (xs.length + 1) = rest := by
    intro xs x
    rw [List.append_cons]
    exact List.drop_left' (by simp)
  rw [Enclosed.tokens, List.map_cons, List.map_append, List.map_cons, List.map_nil,
    List.cons_append, List.append_assoc, List.singleton_append, signature?, if_pos hopener, hcloser]
  simp only [Option.bind_eq_bind, Option.bind_some, List.take_left, parameters.mapM_name?, hdrop]
  rfl

theorem signature?_enclosed (parameters : Enclosed .openParen .closeParen) :
    signature? (parameters.tokens.map .token) = some (parameters.names.map (·.text), []) := by
  have h := signature?_append parameters []
  rwa [List.append_nil] at h

mutual

theorem Statement.reads (hu : 0 < unit.length) (statement : Statement) (level : Nat) :
    readBlock ((Clause.statement statement).span unit level) = .ok statement.block := by
  have hparts := @Statement.headerAndBody unit level statement
  rw [statement.readBlock_eq]
  match statement with
  | .imports opening path =>
    obtain ⟨t, rest, hpath⟩ := List.exists_cons_of_ne_nil path.nonempty
    have htokens := mapM_pathToken? path
    rw [Statement.form, Statement.run, layRun, List.append_nil, BlockForm.readBody,
      Statement.header, htokens, hpath, Statement.block, hpath]
    rfl
  | .closure opening name symbols =>
    have hname : soleName? [Tree.token name.token] = some name.token.text := by
      simp [soleName?, Tree.name?, name.isKind]
    rw [Statement.form, BlockForm.readBody, hparts]
    dsimp only
    rw [Statement.header, List.map_cons, List.map_nil, hname, ungroup_layRun, Statement.run,
      readSymbols_linesOf hu, readBlocks hu symbols]
    rfl
  | .conditional opening condition body =>
    have hbody := body.reads hu (level + 1) (unwrap_layRun_lines hu body)
    rw [Statement.form, BlockForm.readBody, hparts, Statement.run]
    dsimp only [Statement.header]
    rw [isEmpty_map_token condition.nonempty, isEmpty_layRun_lines, condition.readsAt,
      Readers.valueAt_of_ok hbody]
    rfl
  | .otherwise opening body =>
    have hbody := body.reads hu (level + 1) (unwrap_layRun_lines hu body)
    rw [Statement.form, BlockForm.readBody, Statement.run, Statement.header, List.map_nil,
      List.nil_append]
    dsimp only
    rw [Readers.valueAt_of_ok hbody]
    rfl
  | .sequence opening step steps =>
    have hsteps := @stepsOf_stepLines unit (level + 1) hu (step :: steps)
    have hstep := Readers.valueAt_of_ok (step.reads hu (level + 1) rfl) opening.heading.origin
    have hvalues := readValues hu steps (level + 1) opening.heading.origin
    rw [stepLines] at hsteps
    rw [Statement.form, BlockForm.readBody, Statement.run, Statement.header, List.map_nil,
      List.nil_append, hsteps, List.map_cons, List.mapM_cons]
    dsimp only [Statement.opening]
    rw [hstep, hvalues]
    rfl
  | .each opening iterator word iteratee body =>
    have hbody := body.reads hu (level + 1) (unwrap_layRun_lines hu body)
    have hheader : iteration? ((iterator.token :: word.token :: iteratee.tokens).map .token) =
        some (iterator.token.text, iteratee.tokens.map .token) := by
      simp [iteration?, Tree.name?, iterator.isKind, iteratee.nonempty]
    rw [Statement.form, BlockForm.readBody, hparts, Statement.run]
    dsimp only [Statement.header]
    rw [hheader]
    dsimp only
    rw [isEmpty_layRun_lines, iteratee.readsAt, Readers.valueAt_of_ok hbody]
    rfl
  | .repetition opening count body =>
    have hbody := body.reads hu (level + 1) (unwrap_layRun_lines hu body)
    rw [Statement.form, BlockForm.readBody, hparts, Statement.run]
    dsimp only [Statement.header]
    rw [isEmpty_map_token count.nonempty, isEmpty_layRun_lines, count.readsAt,
      Readers.valueAt_of_ok hbody]
    rfl
  | .function opening name parameters body =>
    have hbody := body.reads hu (level + 1) (unwrap_nest_lines hu body)
    have hname : (Tree.token name.token).name? = some name.token := if_pos name.isKind
    have hfunction : functionParts? (((Statement.function opening name parameters body).header.map
        .token) ++ layRun (body.lines unit (level + 1))) =
          some (name.token.text, parameters.names.map (·.text),
            nest (body.lines unit (level + 1))) := by
      rw [Statement.run] at hparts
      rw [functionParts?, hparts, Statement.header, List.map_cons]
      dsimp only
      rw [hname, signature?_enclosed, ungroup_layRun]
      rfl
    rw [Statement.form, BlockForm.readBody, Statement.run, hfunction]
    dsimp only
    rw [Readers.valueAt_of_ok hbody]
    rfl

theorem Clause.reads (hu : 0 < unit.length) (clause : Clause) (level : Nat) {span : List Tree}
    (h : unwrap span = unwrap (clause.span unit level)) : readValue span = .ok clause.value := by
  rw [readValue_congr h]
  match clause with
  | .expression margin e =>
    rw [Clause.span_eq]
    exact (congrArg readValue (List.append_nil _)).trans e.reads
  | .statement s =>
    have hblock := s.reads hu level
    rw [Offside.readBlock_eq] at hblock
    rw [readValue_eq, valueStep_of_blockStep (Clause.plain_span s) hblock]
    rfl

theorem readBlocks (hu : 0 < unit.length) (statements : List Statement) (level : Nat) :
    (statements.map fun s => (Clause.statement s).span unit level).mapM readBlock =
      .ok (blocksOf statements) := by
  match statements with
  | [] => rfl
  | statement :: statements =>
    rw [List.map_cons, List.mapM_cons, statement.reads hu level, readBlocks hu statements level]
    rfl

theorem readValues (hu : 0 < unit.length) (clauses : List Clause) (level : Nat) (p : Position) :
    (clauses.map (Clause.span unit level)).mapM (fun part => readers.valueAt part p) =
      .ok (valuesOf clauses) := by
  match clauses with
  | [] => rfl
  | clause :: clauses =>
    rw [List.map_cons, List.mapM_cons, Readers.valueAt_of_ok (clause.reads hu level rfl),
      readValues hu clauses level p]
    rfl

end

end

/-- Whatever is laid out on lines, each header on one line and what belongs to it one level below,
is read as what was laid out. -/
theorem programOf_nest_linesOf (source : Source) (unit : String) (hu : 0 < unit.length)
    (program : List Statement) :
    programOf source (nest (linesOf unit 0 program)) =
      .ok (.closure ⟨[], source.start⟩ "main" (blocksOf program)) := by
  rw [programOf, readSymbols_linesOf hu, readBlocks hu program 0]
  rfl

/-- A token of a value kind as an expression. -/
def Readable.literal (t : Token) (h : t.kind.isValue = true) : Readable where
  tokens := [t]
  value := .literal t
  nonempty := List.cons_ne_nil _ _
  plain := by
    intro u hu
    obtain rfl := List.mem_singleton.mp hu
    cases hk : u.kind <;> simp_all [Kind.isValue]
  balanced := by
    show Depth.top.after (.token t) = .top
    unfold Depth.after
    cases hk : t.kind <;> simp_all [Kind.isValue]
  undivided := by
    rw [topIndex?_eq_none_iff]
    refine isUndivided_cons.mpr ⟨?_, isUndivided_nil⟩
    cases hk : t.kind <;> simp_all [Kind.isValue, separator?, Token.hasKindIn]
  unbracketed := by
    intro u hu
    obtain rfl := Option.some.inj hu
    cases hk : t.kind <;> simp_all [Kind.isValue]
  reads := readValue_literal h

/-- A function whose sequence has a condition for its second step. -/
theorem programOf_nest_function :
    let token (kind : Kind) (text : String) : Token := ⟨kind, text, default⟩
    let plain : Opening := ⟨default, default, none⟩
    let declaring : Opening := ⟨default, default,
      some ⟨⟨token .openBracket "[", rfl⟩, some ⟨⟨token .name "x", rfl⟩, []⟩,
        ⟨token .closeBracket "]", rfl⟩⟩⟩
    let a : Readable := .literal (token .name "a") rfl
    let parameters : Enclosed .openParen .closeParen :=
      ⟨⟨token .openParen "(", rfl⟩, some ⟨⟨token .name "a", rfl⟩,
        [(⟨token .comma ",", rfl⟩, ⟨token .name "b", rfl⟩)]⟩, ⟨token .closeParen ")", rfl⟩⟩
    let steps : Statement := .sequence declaring (.expression default a)
      [.statement (.conditional plain a (.expression default a))]
    let program : List Statement :=
      [.function plain ⟨token .name "f", rfl⟩ parameters (.statement steps)]
    0 < "  ".length ∧
      (linesOf "  " 0 program).map (List.map (·.text)) =
        [["fn", "f", "(", "a", ",", "b", ")"], ["  ", "do", "[", "x", "]"], ["    ", "a"],
          ["    ", "if", "a"], ["      ", "a"]] ∧
      programOf ⟨"", "", 0⟩ (nest (linesOf "  " 0 program)) =
        .ok (.closure ⟨[], .within ⟨"", "", 0⟩ 0⟩ "main"
          [.function ⟨[], .unknown⟩ "f" ["a", "b"] (.block (.sequence
            ⟨[token .name "x"], .unknown⟩ [.literal (token .name "a"), .block (.conditional
              ⟨[], .unknown⟩ (.literal (token .name "a")) (.literal (token .name "a")))]))]) := by
  intro token plain declaring a parameters steps program
  exact ⟨by decide, by decide +kernel, programOf_nest_linesOf ⟨"", "", 0⟩ "  " (by decide) program⟩

end Offside
