import Offside.Proofs.InlineBlocks

namespace Offside

/-- A function's name and parameters, with its body on the same line. -/
def functionSpan (word : Token) (name : Mark .name) (parameters : Enclosed .openParen .closeParen)
    (body : List Tree) : List Tree :=
  .token word :: .token name.token :: (parameters.tokens.map .token ++ body)

/-- A span with what is indented below it on the line itself. -/
def levelled (span : List Tree) : List Tree :=
  joinLines (ungroup span)

section

variable {xs ys : List Tree}

theorem headerAndBody_of_plain (h : ∀ tree ∈ xs, tree.isGroup = false) :
    headerAndBody xs = (xs, []) := by
  have hbehind := headerAndBody_behind h []
  rw [List.append_nil] at hbehind
  rw [hbehind]
  exact congrArg (·, []) (List.append_nil xs)

theorem declarations?_append_group {names : List Token} {items body : List Tree}
    (h : declarations? (xs ++ [.group items]) = some (names, body)) :
    ∃ rest, declarations? xs = some (names, rest) ∧ body = rest ++ [.group items] := by
  cases xs with
  | nil =>
    obtain ⟨rfl, rfl⟩ : [] = names ∧ [.group items] = body := by
      simpa [declarations?, Tree.hasKind] using h
    exact ⟨[], rfl, rfl⟩
  | cons first more =>
    rw [List.cons_append, declarations?] at h
    rw [declarations?]
    split at h
    next ho =>
      rw [if_pos ho]
      cases hd : more.dropWhile (!·.hasKind .closeBracket) with
      | nil =>
        -- a group closes no bracket
        rw [List.dropWhile_append, hd] at h
        simp [Tree.hasKind] at h
      | cons closer after =>
        obtain ⟨htake, hdrop⟩ := dropWhile_append_of_found hd [.group items]
        rw [htake, hdrop] at h
        obtain ⟨rfl, rfl⟩ := Prod.mk.inj (Option.some.inj h)
        exact ⟨after, rfl, rfl⟩
    next ho =>
      rw [if_neg ho]
      obtain ⟨rfl, rfl⟩ := Prod.mk.inj (Option.some.inj h)
      exact ⟨first :: more, rfl, rfl⟩

end

section

variable {block : List Tree} {b : Block} {word keyword : Token} {form : BlockForm}
  {name : Mark .name} {parameters : Enclosed .openParen .closeParen}

theorem readValue_of_introducedBy? {rest : List Tree}
    (h : BlockForm.introducedBy? keyword = some form) :
    readValue (.token keyword :: rest) =
      (readBlock (joinLines (.token keyword :: rest))).map .block := by
  have hjoin := joinLines_token (t := keyword) (by simp [kind_of_introducedBy? h]) rest
  have hplain : ∀ tree ∈ .token keyword :: joinLines rest, tree.hasKind .newline = false := by
    rw [← hjoin]
    exact fun tree hm => hasKind_newline_of_mem_joinLines hm
  rw [← readValue_joinLines, hjoin, readValue_eq, valueStep_eq_block hplain h, readBlock_eq]
  rfl

theorem functionParts?_inline (block : List Tree) :
    functionParts? (.token name.token :: (parameters.tokens.map .token ++ block)) =
      some (name.token.text, parameters.names.map (·.text), ungroup block) := by
  have hplain : ∀ tree ∈ .token name.token :: parameters.tokens.map Tree.token,
      tree.isGroup = false := by
    intro tree hm
    rcases List.mem_cons.mp hm with rfl | hm
    · rfl
    · obtain ⟨t, -, rfl⟩ := List.mem_map.mp hm
      rfl
  have hname : (Tree.token name.token).name? = some name.token := if_pos name.isKind
  rw [functionParts?, ← List.cons_append, headerAndBody_behind hplain, List.cons_append]
  dsimp only
  rw [hname, signature?_append]
  exact congrArg (fun part => some (_, _, part)) (header_append_ungroup block)

/-- The body of a function is read with everything that is indented below it on its own line. -/
theorem readBlock_functionSpan (hk : word.kind = .keyword) (ht : word.text = "fn")
    {rest : List Tree} (h : BlockForm.introducedBy? keyword = some form) :
    readBlock (functionSpan word name parameters (.token keyword :: rest)) =
      ((readBlock (levelled (.token keyword :: rest))).orAt word.span.start).map fun b =>
        .function ⟨[], word.span.start⟩ name.token.text (parameters.names.map (·.text))
          (.block b) := by
  have hheading : heading? .function (functionSpan word name parameters (.token keyword :: rest)) =
      some (⟨[], word.span.start⟩,
        (functionSpan word name parameters (.token keyword :: rest)).tail) := by
    simp [functionSpan, heading?, hk, ht, BlockForm.keyword, declarations?, Tree.hasKind,
      name.isKind]
  have hvalue : readValue (ungroup (.token keyword :: rest)) =
      (readBlock (levelled (.token keyword :: rest))).map .block :=
    readValue_of_introducedBy? h
  rw [readBlock_eq, blockStep_eq_readBody hheading, BlockForm.readBody, functionSpan, List.tail_cons,
    functionParts?_inline]
  show ((readValue (ungroup (.token keyword :: rest))).orAt word.span.start >>= fun value =>
    pure (Block.function ⟨[], word.span.start⟩ name.token.text _ value)) = _
  rw [hvalue]
  cases readBlock (levelled (.token keyword :: rest)) <;> rfl

/-- A block of a form that divides its span into a line and what is indented below it is refused
when everything stands on the line. -/
theorem readBody_refuses_line {r : Readers} {heading : Heading} {header items : List Tree}
    (hf : form ∈ [.closure, .conditional, .each, .repetition])
    (plain : ∀ tree ∈ header, tree.isGroup = false)
    (h : form.readBody r heading (header ++ [.group items]) = .ok b) {more : List Tree}
    (flat : ∀ tree ∈ more, tree.isGroup = false) (hne : more ≠ []) :
    header ≠ [] ∧
      form.readBody r heading (header ++ more) = refuse (.invalidBlock form) heading.origin := by
  have hparts : headerAndBody (header ++ [.group items]) = (header, [.group items]) := by
    rw [headerAndBody_behind plain]
    exact congrArg (·, [Tree.group items]) (List.append_nil header)
  have hline : headerAndBody (header ++ more) = (header ++ more, []) := by
    refine headerAndBody_of_plain fun tree hm => ?_
    exact (List.mem_append.mp hm).elim (plain tree) (flat tree)
  obtain ⟨next, others, rfl⟩ := List.exists_cons_of_ne_nil hne
  simp only [List.mem_cons, List.not_mem_nil, or_false] at hf
  have hheader : header ≠ [] := by
    rintro rfl
    rcases hf with rfl | rfl | rfl | rfl <;> rw [BlockForm.readBody, hparts] at h <;> cases h
  obtain ⟨first, header, rfl⟩ := List.exists_cons_of_ne_nil hheader
  refine ⟨hheader, ?_⟩
  rcases hf with rfl | rfl | rfl | rfl <;> rw [BlockForm.readBody, hline]
  · have hsole : soleName? (first :: header ++ next :: others) = none := by
      cases header <;> rfl
    dsimp only
    rw [hsole]
  · rfl
  · dsimp only
    split <;> rfl
  · rfl

theorem heading?_of_introducedBy? (h : BlockForm.introducedBy? keyword = some form)
    (rest : List Tree) : heading? form (.token keyword :: rest) = (declarations? rest).map
      fun (names, body) => (⟨names, keyword.span.start⟩, body) := by
  have hkind := kind_of_introducedBy? h
  rw [BlockForm.introducedBy?, if_pos hkind] at h
  have htext := List.find?_some h
  rw [heading?, if_pos]
  simp only [beq_iff_eq] at htext ⊢
  simp [hkind, htext]

theorem levelled_of_header {header : List Tree} (hform : BlockForm.introducedBy? keyword = some form)
    (plain : ∀ tree ∈ header, tree.isGroup = false ∧ tree.hasKind .newline = false)
    (items : List Tree) :
    levelled (.token keyword :: (header ++ [.group items])) =
      .token keyword :: (header ++ joinLines items) := by
  have hungroup : ungroup (header ++ [.group items]) = header ++ items := by
    rw [ungroup_append, ungroup_eq_self fun tree hm => (plain tree hm).1]
    exact congrArg (header ++ ·) (List.append_nil items)
  show joinLines (.token keyword :: ungroup (header ++ [.group items])) = _
  rw [hungroup, joinLines_token (by simp [kind_of_introducedBy? hform]), joinLines_append,
    joinLines_eq_self fun tree hm => (plain tree hm).2]

theorem readBlock_levelled {header items : List Tree}
    (hform : BlockForm.introducedBy? keyword = some form)
    (hf : form ∈ [.closure, .conditional, .each, .repetition])
    (plain : ∀ tree ∈ header, tree.isGroup = false ∧ tree.hasKind .newline = false)
    (h : readBlock (.token keyword :: (header ++ [.group items])) = .ok b)
    (flat : ∀ tree ∈ items, tree.isGroup = false) (hne : joinLines items ≠ []) :
    readBlock (levelled (.token keyword :: (header ++ [.group items]))) =
      refuse (.invalidBlock form) keyword.span.start := by
  have hflat : ∀ tree ∈ joinLines items, tree.isGroup = false :=
    fun tree hm => flat tree ((joinLines_sublist items).subset hm)
  obtain ⟨names, body, hnames⟩ : ∃ names body,
      declarations? (header ++ [.group items]) = some (names, body) := by
    rw [readBlock_eq, blockStep, hform] at h
    obtain ⟨⟨heading, body⟩, hh, -⟩ := bind_eq_ok.mp h
    have hh := heading?_of_readHeading hh
    rw [heading?_of_introducedBy? hform] at hh
    obtain ⟨⟨names, body⟩, hd, -⟩ := Option.map_eq_some_iff.mp hh
    exact ⟨names, body, hd⟩
  obtain ⟨rest, hrest, rfl⟩ := declarations?_append_group hnames
  have hrestplain : ∀ tree ∈ rest, tree.isGroup = false :=
    fun tree hm => (plain tree ((declarations?_parts hrest).1.subset hm)).1
  have hheading := heading?_of_introducedBy? hform (header ++ [.group items])
  rw [hnames] at hheading
  rw [readBlock_eq, blockStep_eq_readBody hheading] at h
  obtain ⟨hheader, hrefused⟩ := readBody_refuses_line hf hrestplain h hflat hne
  have hlong : header ≠ [] := by
    rintro rfl
    obtain ⟨-, rfl⟩ := Prod.mk.inj (Option.some.inj hrest)
    exact hheader rfl
  have hline := heading?_of_introducedBy? hform (header ++ joinLines items)
  rw [declarations?_append hrest hlong] at hline
  rw [levelled_of_header hform plain, readBlock_eq, blockStep_eq_readBody hline]
  exact hrefused

/-- What becomes of a block that stands in the line of a function. It is kept if it is the same block
with everything that is indented below it on its line, in particular if nothing is; a block that needs
its indented lines is refused. -/
theorem readBlock_function_inline (hk : word.kind = .keyword) (ht : word.text = "fn")
    (plain : ∀ tree ∈ block, tree.hasKind .newline = false) (h : readBlock block = .ok b)
    (name : Mark .name) (parameters : Enclosed .openParen .closeParen) :
    let function : Block := .function ⟨[], word.span.start⟩ name.token.text
      (parameters.names.map (·.text)) (.block b)
    (readBlock (functionSpan word name parameters block) = .ok function ↔
      readBlock (levelled block) = .ok b) ∧
    ((∀ tree ∈ block, tree.isGroup = false) →
      readBlock (functionSpan word name parameters block) = .ok function) ∧
    ∀ (keyword : Token) (form : BlockForm) (header items : List Tree),
      block = .token keyword :: (header ++ [.group items]) →
      BlockForm.introducedBy? keyword = some form →
      form ∈ [.closure, .conditional, .each, .repetition] →
      (∀ tree ∈ header ++ items, tree.isGroup = false) → joinLines items ≠ [] →
        readBlock (functionSpan word name parameters block) =
          refuse (.invalidBlock form) (keyword.span.start.orElse word.span.start) := by
  intro function
  obtain ⟨keyword, rest, form, hblock, hform⟩ := exists_cons_of_readBlock h
  have hread : readBlock (functionSpan word name parameters block) =
      ((readBlock (levelled block)).orAt word.span.start).map fun b =>
        .function ⟨[], word.span.start⟩ name.token.text (parameters.names.map (·.text))
          (.block b) := by
    rw [hblock]
    exact readBlock_functionSpan hk ht hform
  have hkept : readBlock (functionSpan word name parameters block) = .ok function ↔
      readBlock (levelled block) = .ok b := by
    rw [hread]
    cases readBlock (levelled block) with
    | error d => exact iff_of_false nofun nofun
    | ok other =>
      constructor
      · intro he
        injection Except.ok.inj he with _ _ _ hvalue
        rw [Value.block.inj hvalue]
      · intro he
        rw [Except.ok.inj he]
        rfl
  refine ⟨hkept, fun hplain => hkept.mpr ?_, ?_⟩
  · rwa [levelled, ungroup_eq_self hplain, joinLines_eq_self plain]
  · rintro keyword form header items rfl hform hf hflat hne
    have hheader : ∀ tree ∈ header, tree.isGroup = false ∧ tree.hasKind .newline = false := by
      intro tree hm
      exact ⟨hflat tree (List.mem_append_left _ hm),
        plain tree (List.mem_cons_of_mem _ (List.mem_append_left _ hm))⟩
    rw [hread, readBlock_levelled hform hf hheader h
      (fun tree hm => hflat tree (List.mem_append_right _ hm)) hne]
    rfl

/-- The functions `fn f() do x + y`, and `fn f() if x` with `y` indented below it. -/
theorem readBlock_function_inline_condition :
    let token (kind : Kind) (text : String) : Token := ⟨kind, text, default⟩
    let word : Token := token .keyword "fn"
    let name : Mark .name := ⟨token .name "f", rfl⟩
    let parameters : Enclosed .openParen .closeParen :=
      ⟨⟨token .openParen "(", rfl⟩, none, ⟨token .closeParen ")", rfl⟩⟩
    let onLine : List Tree := [.token (token .keyword "do"), .token (token .name "x"),
      .token (token .operator "+"), .token (token .name "y")]
    let below : List Tree := [.token (token .keyword "if"), .token (token .name "x"),
      .group [.token (token .newline "\n"), .token (token .name "y")]]
    (∃ b, readBlock onLine = .ok b ∧ readBlock (functionSpan word name parameters onLine) =
      .ok (.function ⟨[], .unknown⟩ "f" [] (.block b))) ∧
    ∃ b, readBlock below = .ok b ∧ readBlock (levelled below) ≠ .ok b ∧
      readBlock (functionSpan word name parameters below) =
        refuse (.invalidBlock .conditional) .unknown := by
  intro token word name parameters onLine below
  have honLine : readBlock onLine = .ok (.sequence ⟨[], .unknown⟩
      [.construct (.operation [.operand (.literal (token .name "x")),
        .operand (.literal (token .name "y")), .operator (token .operator "+")])]) := by cbv
  have hbelow : readBlock below = .ok (.conditional ⟨[], .unknown⟩ (.literal (token .name "x"))
      (.literal (token .name "y"))) := by cbv
  have hk : word.kind = .keyword := rfl
  have ht : word.text = "fn" := rfl
  obtain ⟨-, hkept, -⟩ := readBlock_function_inline hk ht (by decide) honLine name parameters
  obtain ⟨hiff, -, hrefused⟩ := readBlock_function_inline hk ht (by decide) hbelow name parameters
  have herror := hrefused (token .keyword "if") .conditional [.token (token .name "x")]
    [.token (token .newline "\n"), .token (token .name "y")] rfl rfl (by decide) (by decide)
    (List.cons_ne_nil _ _)
  refine ⟨⟨_, honLine, hkept (by decide)⟩, _, hbelow, fun h => ?_, herror⟩
  cases (hiff.mpr h).symm.trans herror

/-- The function `fn f() if x` with `y` indented below it: the condition is a block by itself, and is
refused as the body of the function. -/
theorem not_readBlock_function_inline :
    ¬∀ (word : Token) (name : Mark .name) (parameters : Enclosed .openParen .closeParen)
      (block : List Tree) (b : Block), word.kind = .keyword → word.text = "fn" →
      (∀ tree ∈ block, tree.hasKind .newline = false) → readBlock block = .ok b →
      readBlock (functionSpan word name parameters block) = .ok (.function ⟨[], word.span.start⟩
        name.token.text (parameters.names.map (·.text)) (.block b)) := by
  intro h
  let token (kind : Kind) (text : String) : Token := ⟨kind, text, default⟩
  let parameters : Enclosed .openParen .closeParen :=
    ⟨⟨token .openParen "(", rfl⟩, none, ⟨token .closeParen ")", rfl⟩⟩
  let block : List Tree := [.token (token .keyword "if"), .token (token .name "x"),
    .group [.token (token .newline "\n"), .token (token .name "y")]]
  have hread : readBlock block = .ok (.conditional ⟨[], .unknown⟩ (.literal (token .name "x"))
      (.literal (token .name "y"))) := by cbv
  have hrefused : readBlock (functionSpan (token .keyword "fn") ⟨token .name "f", rfl⟩ parameters
      block) = refuse (.invalidBlock .conditional) .unknown := by cbv
  have hclaimed := h (token .keyword "fn") ⟨token .name "f", rfl⟩ parameters block _ rfl rfl
    (by decide) hread
  cases hclaimed.symm.trans hrefused

end

end Offside
