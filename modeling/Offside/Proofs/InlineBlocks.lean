import Offside.Proofs.PrintedReading
import Offside.Proofs.ReturnedValue

namespace Offside

/-- What stands in front of an arrow: a name, or names in parentheses. -/
inductive LambdaHead where
  | single (name : Mark .name)
  | listed (parameters : Enclosed .openParen .closeParen)

namespace LambdaHead

def tokens : LambdaHead → List Token
  | single name => [name.token]
  | listed parameters => parameters.tokens

def names : LambdaHead → List String
  | single name => [name.token.text]
  | listed parameters => parameters.names.map (·.text)

/-- The head as it stands when its parentheses are grouped. -/
def grouped : LambdaHead → List Tree
  | single name => [.token name.token]
  | listed parameters =>
    [.token parameters.opener.token, .group (parameters.inner.map .token),
      .token parameters.closer.token]

end LambdaHead

section

variable {arrow : Token} {head : List Tree} {names : List String}

theorem returning?_of_parameters? (h : parameters? head = some names) (rest : List Tree) :
    returning? (head ++ rest) = none := by
  match head with
  | [] => cases h
  | .group items :: head => rfl
  | .token t :: head =>
    have hkind : t.kind ≠ .returnWord := by
      intro hk
      rw [parameters?, leaves, Tree.leaves] at h
      split at h
      next he => cases he
      next u he =>
        obtain rfl := (List.cons.inj he).1
        simp [soleName?, Tree.name?, hk] at h
      next first more _ he =>
        obtain rfl := (List.cons.inj he).1
        simp [hk] at h
    simp [returning?, Tree.hasKind, hkind]

/-- A head is divided from what comes behind by the arrow after it. -/
theorem divide?_arrow (undivided : IsUndivided [.arrow] .top head) (balanced : IsBalanced head)
    (ha : arrow.kind = .arrow) (rest : List Tree) :
    divide? [.arrow] (head ++ .token arrow :: rest) = some (head, arrow, rest) := by
  refine divide?_eq_some_iff.mpr ⟨rfl, undivided, ?_⟩
  rw [show head.foldl Depth.after .top = .top from balanced]
  exact separator?_eq_some_iff.mpr ⟨by simp [ha], by simp [Depth.after, ha]⟩

/-- Parameters and an arrow make a lambda, whatever comes behind. -/
theorem shape?_of_parameters? (hnames : parameters? head = some names)
    (undivided : IsUndivided [.arrow] .top head) (balanced : IsBalanced head)
    (ha : arrow.kind = .arrow) (rest : List Tree) :
    shape? (head ++ .token arrow :: rest) = some (.lambda names arrow rest) := by
  have hdivide := divide?_arrow undivided balanced ha rest
  have harrow : hasArrow (head ++ .token arrow :: rest) = true := by
    obtain ⟨i, hi, -⟩ := Option.bind_eq_some_iff.mp hdivide
    rw [hasArrow, hi]
    rfl
  have hsubject : ∀ kind ∈ [Kind.openParen, .openBracket, .dot],
      ¬HasSubject kind (head ++ .token arrow :: rest) := by
    rintro kind - ⟨hnone, -⟩
    rw [harrow] at hnone
    cases hnone
  rw [shape?_of_no_subject (returning?_of_parameters? hnames _) hsubject, lambda?, hdivide]
  simp [hnames]

end

section

variable {block : List Tree} {b : Block} {t sign arrow : Token}

theorem exists_cons_of_readBlock (h : readBlock block = .ok b) :
    ∃ keyword rest form, block = .token keyword :: rest ∧
      BlockForm.introducedBy? keyword = some form := by
  rw [readBlock_eq] at h
  match block with
  | [] => cases h
  | .group items :: rest => cases h
  | .token keyword :: rest =>
    cases hk : BlockForm.introducedBy? keyword with
    | none =>
      rw [blockStep, hk] at h
      cases h
    | some form => exact ⟨keyword, rest, form, rfl, hk⟩

/-- A block is left as it is when lines are joined and parentheses grouped. -/
theorem refined_of_readBlock (h : readBlock block = .ok b) : refined block = block := by
  obtain ⟨keyword, rest, form, rfl, hform⟩ := exists_cons_of_readBlock h
  have hopens := opensBlock_of_introducedBy? hform
  rw [refined, spread_of_opensBlock hopens, regroup, if_pos hopens]

theorem readValue_of_readBlock (plain : ∀ tree ∈ block, tree.hasKind .newline = false)
    (h : readBlock block = .ok b) : readValue block = .ok (.block b) := by
  rw [readBlock_eq] at h
  rw [readValue_eq]
  exact valueStep_of_blockStep plain h

theorem readConstruct_of_shape? {span : List Tree} {shape : Shape} {c : Construct}
    (hs : shape? span = some shape) (h : shape.read readers = .ok c) :
    readConstruct readers span = .ok (.construct c) := by
  rw [readConstruct, hs]
  exact bind_eq_ok.mpr ⟨c, h, rfl⟩

theorem inParens?_of_tokens (t u : Token) (rest : List Tree) :
    inParens? (.token t :: .token u :: rest) = none := by
  cases rest <;> rfl

/-- A span that neither is in parentheses nor becomes so by being refined is read as a composite
expression. -/
theorem readValue_eq_readConstruct {span span' : List Tree}
    (plain : ∀ tree ∈ span, tree.hasKind .newline = false) (long : 2 ≤ span.length)
    (first : ∀ tree ∈ span.head?, tree.opensBlock = false) (bare : inParens? span = none)
    (hspan : refined span = span') (long' : 2 ≤ span'.length) (bare' : inParens? span' = none) :
    readValue span = readConstruct readers span' := by
  subst hspan
  rw [readValue_of_long plain long first, readSimple, literal?_of_long long, bare]
  show readSimple readers (refined span) _ = _
  rw [readSimple, literal?_of_long long', bare']

theorem plain_append {xs ys : List Tree} (hx : IsFlat xs)
    (hy : ∀ tree ∈ ys, tree.hasKind .newline = false) :
    ∀ tree ∈ xs ++ ys, tree.hasKind .newline = false := by
  intro tree hm
  rcases List.mem_append.mp hm with hm | hm
  · obtain ⟨u, rfl, hk, -⟩ := hx tree hm
    simpa [Tree.hasKind] using hk
  · exact hy tree hm

theorem readValue_return_block (plain : ∀ tree ∈ block, tree.hasKind .newline = false)
    (h : readBlock block = .ok b) (ht : t.kind = .returnWord) :
    readValue (.token t :: block) = .ok (.construct (.returning (.block b))) := by
  rw [readValue_return_refined ht, joinLines_eq_self plain, refined_of_readBlock h,
    Readers.valueAt_of_ok (readValue_of_readBlock plain h)]
  rfl

theorem readValue_assignment_block (plain : ∀ tree ∈ block, tree.hasKind .newline = false)
    (h : readBlock block = .ok b) (ht : t.kind.isValue = true) (hs : sign.kind = .assignment) :
    readValue (.token t :: .token sign :: block) =
      .ok (.construct (.assignment (.literal t) sign (.block b))) := by
  have hkind : t.kind ≠ .newline ∧ t.kind ≠ .openParen ∧ t.kind ≠ .keyword := by
    refine ⟨?_, ?_, ?_⟩ <;> intro hk <;> simp [hk, Kind.isValue] at ht
  have hnone : BlockForm.introducedBy? t = none := introducedBy?_eq_none hkind.2.2
  have hnone' : BlockForm.introducedBy? sign = none := introducedBy?_eq_none (by simp [hs])
  have hflat : IsFlat [.token t, .token sign] := by
    simp [IsFlat, hkind.1, hnone, hs, hnone']
  have hrefined : refined (.token t :: .token sign :: block) = .token t :: .token sign :: block := by
    rw [refined_token hkind.1 hkind.2.1 hnone, refined_token (by simp [hs]) (by simp [hs]) hnone',
      refined_of_readBlock h]
  have hplain : ∀ tree ∈ .token t :: .token sign :: block, tree.hasKind .newline = false :=
    plain_append hflat plain
  have hbare := inParens?_of_tokens t sign block
  rw [readValue_eq_readConstruct hplain (by simp)
    (by simpa using not_opensBlock_of_introducedBy? hnone) hbare hrefined (by simp) hbare]
  refine readConstruct_of_shape? (shape?_of_value_assignment ht hs block) ?_
  have hleft := Readers.valueAt_of_ok (readValue_literal ht) sign.span.start
  have hright := Readers.valueAt_of_ok (readValue_of_readBlock plain h) sign.span.start
  exact bind_eq_ok.mpr ⟨_, hleft, bind_eq_ok.mpr ⟨_, hright, rfl⟩⟩

end

section

variable {block : List Tree} {b : Block} {arrow : Token}

theorem isMatched_of_plain {span : List Tree}
    (h : ∀ tree ∈ span, tree.hasKind .openParen = false ∧ tree.hasKind .closeParen = false) :
    IsMatched span := by
  induction span with
  | nil => exact isMatched_nil
  | cons tree span ih =>
    obtain ⟨⟨ho, hc⟩, hspan⟩ := List.forall_mem_cons.mp h
    exact (isMatched_single ho hc).append (ih hspan)

theorem partsBetween_series (series : Series) :
    partsBetween [.comma] (series.tokens.map .token) = series.names.map fun t => [.token t] := by
  obtain ⟨first, others⟩ := series
  have halone : ∀ mark : Mark .name,
      partsBetween [.comma] [.token mark.token] = [[.token mark.token]] := by
    intro mark
    refine partsBetween_of_plain ?_
    simp [depths, separator?, Token.hasKindIn, mark.isKind]
  induction others generalizing first with
  | nil => exact halone first
  | cons other others ih =>
    obtain ⟨comma, next⟩ := other
    have hfirst : IsBalanced [.token first.token] := by
      simp [IsBalanced, Depth.after, first.isKind]
    have happend := @partsBetween_append [.comma] _ ((Series.mk next others).tokens.map .token)
      comma.token hfirst (by simp [Token.hasKindIn, comma.isKind])
      (by simp [Depth.after, comma.isKind])
    rw [halone, ih next] at happend
    exact happend

theorem mapM_soleName? (series : Series) :
    (series.names.map fun t => [Tree.token t]).mapM soleName? =
      some (series.names.map (·.text)) := by
  have hname : ∀ mark : Mark .name, soleName? [.token mark.token] = some mark.token.text := by
    intro mark
    simp [soleName?, Tree.name?, mark.isKind]
  obtain ⟨first, others⟩ := series
  have hothers : ((others.map (·.2.token)).map fun t => [Tree.token t]).mapM soleName? =
      some ((others.map (·.2.token)).map (·.text)) := by
    induction others with
    | nil => rfl
    | cons other others ih =>
      rw [List.map_cons, List.map_cons, List.mapM_cons, hname, ih]
      rfl
  rw [Series.names, List.map_cons, List.mapM_cons, hname, hothers]
  rfl

namespace LambdaHead

theorem isFlat (head : LambdaHead) : IsFlat (head.tokens.map .token) := by
  intro tree hm
  obtain ⟨t, ht, rfl⟩ := List.mem_map.mp hm
  have hkind : t.kind = .name ∨ t.kind = .openParen ∨ t.kind = .comma ∨ t.kind = .closeParen := by
    cases head with
    | single name =>
      obtain rfl := List.mem_singleton.mp ht
      exact .inl name.isKind
    | listed parameters =>
      rcases parameters.kind_of_mem ht with hk | hk | hk | hk <;> simp [hk]
  refine ⟨t, rfl, ?_, introducedBy?_eq_none ?_⟩ <;>
    rcases hkind with hk | hk | hk | hk <;> simp [hk]

theorem parameters?_grouped (head : LambdaHead) : parameters? head.grouped = some head.names := by
  cases head with
  | single name => simp [grouped, names, parameters?, leaves, Tree.leaves, soleName?, Tree.name?,
      name.isKind]
  | listed parameters =>
    have hleaves : leaves (listed parameters).grouped =
        parameters.opener.token :: (parameters.inner ++ [parameters.closer.token]) := by
      simp [grouped, leaves, Tree.leaves, leaves_map_token]
    rw [parameters?_of_leaves hleaves parameters.opener.isKind parameters.closer.isKind, names,
      Enclosed.inner, Enclosed.names]
    cases parameters.series with
    | none => rfl
    | some series =>
      have hsplit : split [.comma] false (series.tokens.map .token) =
          partsBetween [.comma] (series.tokens.map .token) :=
        if_neg (by simp [Series.tokens])
      rw [Option.map_some, Option.getD_some, hsplit, partsBetween_series, mapM_soleName?]
      rfl

theorem refined_append (head : LambdaHead) (ha : arrow.kind = .arrow)
    (h : readBlock block = .ok b) :
    refined (head.tokens.map .token ++ .token arrow :: block) =
      head.grouped ++ .token arrow :: block := by
  have hnone : BlockForm.introducedBy? arrow = none := introducedBy?_eq_none (by simp [ha])
  have harrow : refined (.token arrow :: block) = .token arrow :: block := by
    rw [refined_token (by simp [ha]) (by simp [ha]) hnone, refined_of_readBlock h]
  rw [refined, head.isFlat.spread_append]
  cases head with
  | single name =>
    have hname : BlockForm.introducedBy? name.token = none :=
      introducedBy?_eq_none (by simp [name.isKind])
    show regroup (.token name.token :: (spread (.token arrow :: block)).1) = _
    rw [regroup_cons_of_none (by simp [name.isKind]) hname]
    exact congrArg _ harrow
  | listed parameters =>
    have hplain : ∀ tree ∈ parameters.inner.map Tree.token,
        tree.hasKind .openParen = false ∧ tree.hasKind .closeParen = false := by
      intro tree hm
      obtain ⟨t, ht, rfl⟩ := List.mem_map.mp hm
      rcases parameters.kind_of_mem_inner ht with hk | hk <;> simp [Tree.hasKind, hk]
    have hgroup := (isMatched_of_plain hplain).regroup_enclosed parameters.opener.isKind
      parameters.closer.isKind (spread (.token arrow :: block)).1
    rw [regroup_of_no_paren fun tree hm => (hplain tree hm).1,
      show regroup (spread (.token arrow :: block)).1 = _ from harrow] at hgroup
    simpa [tokens, grouped, Enclosed.tokens] using hgroup

/-- No arrow stands in a head, and its brackets are closed. -/
theorem isUndivided_grouped (head : LambdaHead) :
    IsUndivided [.arrow] .top head.grouped ∧ IsBalanced head.grouped := by
  cases head with
  | single name =>
    simp [grouped, IsUndivided, IsBalanced, depths, separator?, Token.hasKindIn, Depth.after,
      name.isKind]
  | listed parameters =>
    simp [grouped, IsUndivided, IsBalanced, depths, separator?, Token.hasKindIn, Depth.after,
      parameters.opener.isKind, parameters.closer.isKind, Depth.top]

theorem inParens?_append (head : LambdaHead) (rest : List Tree) :
    inParens? (head.tokens.map .token ++ .token arrow :: rest) = none ∧
      inParens? (head.grouped ++ .token arrow :: rest) = none := by
  cases head with
  | single name => exact ⟨inParens?_of_tokens _ _ _, inParens?_of_tokens _ _ _⟩
  | listed parameters =>
    refine ⟨?_, rfl⟩
    rw [tokens, Enclosed.tokens]
    cases parameters.inner <;> exact inParens?_of_tokens _ _ _

end LambdaHead

theorem readValue_lambda_block (plain : ∀ tree ∈ block, tree.hasKind .newline = false)
    (h : readBlock block = .ok b) (head : LambdaHead) (ha : arrow.kind = .arrow) :
    readValue (head.tokens.map .token ++ .token arrow :: block) =
      .ok (.construct (.lambda head.names (.block b))) := by
  obtain ⟨first, more, hfirst⟩ : ∃ first more, head.tokens = first :: more := by
    cases head <;> exact ⟨_, _, rfl⟩
  have hplain : ∀ tree ∈ .token arrow :: block, tree.hasKind .newline = false := by
    refine List.forall_mem_cons.mpr ⟨?_, plain⟩
    simp [Tree.hasKind, ha]
  have hopens : Tree.opensBlock (.token first) = false := by
    obtain ⟨t, ht, -, hnone⟩ := head.isFlat (.token first) (by simp [hfirst])
    obtain rfl := Tree.token.inj ht
    exact not_opensBlock_of_introducedBy? hnone
  obtain ⟨hbare, hbare'⟩ := @LambdaHead.inParens?_append arrow head block
  rw [readValue_eq_readConstruct (plain_append head.isFlat hplain) (by simp [hfirst]; omega)
    (by simpa [hfirst] using hopens) hbare (head.refined_append ha h) ?_ hbare']
  · obtain ⟨hundivided, hbalanced⟩ := head.isUndivided_grouped
    refine readConstruct_of_shape?
      (shape?_of_parameters? head.parameters?_grouped hundivided hbalanced ha block) ?_
    have hbody := Readers.valueAt_of_ok (readValue_of_readBlock plain h) arrow.span.start
    exact bind_eq_ok.mpr ⟨_, hbody, rfl⟩
  · cases head <;> simp [LambdaHead.grouped]

theorem readBlock_otherwise_block {word : Token}
    (plain : ∀ tree ∈ block, tree.hasKind .newline = false) (h : readBlock block = .ok b)
    (hk : word.kind = .keyword) (ht : word.text = "else") :
    readBlock (.token word :: block) = .ok (.otherwise ⟨[], word.span.start⟩ (.block b)) := by
  have hdeclarations : declarations? block = some ([], block) := by
    obtain ⟨keyword, rest, form, rfl, hform⟩ := exists_cons_of_readBlock h
    simp [declarations?, Tree.hasKind, kind_of_introducedBy? hform]
  have hheading : heading? .otherwise (.token word :: block) =
      some (⟨[], word.span.start⟩, block) := by
    simp [heading?, hk, ht, BlockForm.keyword, hdeclarations]
  rw [readBlock_eq, blockStep_eq_readBody hheading]
  have hvalue := Readers.valueAt_of_ok (readValue_of_readBlock plain h) word.span.start
  exact bind_eq_ok.mpr ⟨_, hvalue, rfl⟩

/-- A block keeps the whole of its span after `return`, an assignment sign, an arrow and `else`,
whatever stands in it. -/
theorem inline_block_keeps_span (plain : ∀ tree ∈ block, tree.hasKind .newline = false)
    (h : readBlock block = .ok b) :
    (∀ word : Token, word.kind = .returnWord →
      readValue (.token word :: block) = .ok (.construct (.returning (.block b)))) ∧
    (∀ t sign : Token, t.kind.isValue = true → sign.kind = .assignment →
      readValue (.token t :: .token sign :: block) =
        .ok (.construct (.assignment (.literal t) sign (.block b)))) ∧
    (∀ (head : LambdaHead) (arrow : Token), arrow.kind = .arrow →
      readValue (head.tokens.map .token ++ .token arrow :: block) =
        .ok (.construct (.lambda head.names (.block b)))) ∧
    ∀ word : Token, word.kind = .keyword → word.text = "else" →
      readBlock (.token word :: block) = .ok (.otherwise ⟨[], word.span.start⟩ (.block b)) :=
  ⟨fun _ hw => readValue_return_block plain h hw,
    fun _ _ ht hs => readValue_assignment_block plain h ht hs,
    fun head _ ha => readValue_lambda_block plain h head ha,
    fun _ hk ht => readBlock_otherwise_block plain h hk ht⟩

/-- The steps `do a.b, x = y => f(z)` have dots, commas, an assignment sign and an arrow among them,
and end like a call. -/
theorem inline_block_keeps_steps :
    let token (kind : Kind) (text : String) : Token := ⟨kind, text, default⟩
    let comma : Mark .comma := ⟨token .comma ",", rfl⟩
    let name (text : String) : Mark .name := ⟨token .name text, rfl⟩
    let head : LambdaHead := .listed
      ⟨⟨token .openParen "(", rfl⟩, some ⟨name "p", [(comma, name "q")]⟩, ⟨token .closeParen ")", rfl⟩⟩
    let block : List Tree := [.token (token .keyword "do"), .token (token .name "a"),
      .token (token .dot "."), .token (token .name "b"), .token (token .comma ","),
      .token (token .name "x"), .token (token .assignment "="), .token (token .name "y"),
      .token (token .arrow "=>"), .token (token .name "f"), .token (token .openParen "("),
      .group [.token (token .name "z")], .token (token .closeParen ")")]
    ∃ b, readBlock block = .ok b ∧
      readValue (.token (token .returnWord "return") :: block) =
        .ok (.construct (.returning (.block b))) ∧
      readValue (.token (token .name "g") :: .token (token .assignment "+=") :: block) =
        .ok (.construct (.assignment (.literal (token .name "g")) (token .assignment "+=")
          (.block b))) ∧
      readValue (head.tokens.map .token ++ .token (token .arrow "=>") :: block) =
        .ok (.construct (.lambda ["p", "q"] (.block b))) ∧
      readBlock (.token (token .keyword "else") :: block) =
        .ok (.otherwise ⟨[], .unknown⟩ (.block b)) := by
  intro token comma name head block
  have hplain : ∀ tree ∈ block, tree.hasKind .newline = false := by decide
  obtain ⟨b, hb⟩ : ∃ b, readBlock block = .ok b := by
    have hsome : (readBlock block).toOption.isSome = true := by cbv
    cases hr : readBlock block with
    | ok b => exact ⟨b, rfl⟩
    | error d =>
      rw [hr] at hsome
      cases hsome
  obtain ⟨hreturn, hassignment, hlambda, helse⟩ := inline_block_keeps_span hplain hb
  exact ⟨b, hb, hreturn _ rfl, hassignment _ _ rfl rfl, hlambda head _ rfl, helse _ rfl rfl⟩

end

end Offside
