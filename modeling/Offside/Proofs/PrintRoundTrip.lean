import Mathlib
import Offside.Proofs.PrintedReading

namespace Offside

/-! An operation is printed with its operands in parentheses, so that the operators are what
divides it. -/

section

variable {kinds : List Kind} {xs ys : List Tree} {t : Token}

theorem cut_append (balanced : IsBalanced xs) (undivided : IsUndivided kinds .top xs) :
    cut kinds (xs ++ ys) = (xs ++ (cut kinds ys).1, (cut kinds ys).2) := by
  have hd : depths .top (xs ++ ys) = depths .top xs ++ depths .top ys := by
    rw [depths_append, balanced]
  rw [cut, cut, hd, sections_append_plain undivided]
  simp only [List.map_append, map_fst_depths]

theorem cut_cons (ht : t.hasKindIn kinds = true) (flat : Depth.top.after (.token t) = .top) :
    cut kinds (.token t :: xs) = ([], (t, (cut kinds xs).1) :: (cut kinds xs).2) := by
  have hs : separator? kinds (.token t, .top) = some t := by simp [separator?, ht]
  rw [cut, cut, depths, flat, sections]
  simp only [hs]
  rfl

end

variable {place : Span} {elements : List Element}

/-- An element of an operation, with an operand in parentheses. -/
def Element.lay (place : Span) : Element → List Tree
  | operator t => [.token t]
  | operand v => grouped place (v.print place)

/-- Whether the operators are ones, and the operands are read as they were printed. -/
structure AreReadable (place : Span) (elements : List Element) : Prop where
  operators : ∀ t, .operator t ∈ elements → t.kind = .operator ∧ (rankOf? t.text).isSome
  operands : ∀ v, .operand v ∈ elements → ReadsAs (v.print place) v

theorem AreReadable.tail {x : Element} (h : AreReadable place (x :: elements)) :
    AreReadable place elements :=
  ⟨fun t hm => h.operators t (List.mem_cons_of_mem _ hm),
    fun v hm => h.operands v (List.mem_cons_of_mem _ hm)⟩

theorem AreReadable.groups (h : AreReadable place elements) :
    Groups (elements.flatMap (Element.print place)) (elements.flatMap (Element.lay place)) := by
  induction elements with
  | nil => exact groups_nil
  | cons x elements ih =>
    cases x with
    | operator t =>
      have hk := (h.operators t List.mem_cons_self).1
      exact (ih h.tail).cons (by rw [hk]; rfl)
    | operand v =>
      exact ((h.operands v List.mem_cons_self).groups_parenthesized place).append (ih h.tail)

theorem mem_lay {u : Token} (h : .token u ∈ elements.flatMap (Element.lay place)) :
    .operator u ∈ elements ∨ u.kind = .openParen ∨ u.kind = .closeParen := by
  obtain ⟨x, hx, hu⟩ := List.mem_flatMap.mp h
  cases x with
  | operator t =>
    obtain rfl := Tree.token.inj (List.mem_singleton.mp hu)
    exact .inl hx
  | operand v => exact .inr (kind_of_mem_enclosed hu)

/-- Dividing what was laid out at its operators gives the elements again. -/
theorem AreReadable.elements_eq (h : AreReadable place elements) {missing : Bool}
    (phrase : IsPhrase missing elements) :
    (missing = false → (cut [.operator] (elements.flatMap (Element.lay place))).1 = []) ∧
      (∀ part ∈ partsBetween [.operator] (elements.flatMap (Element.lay place)),
        readers.Accepts part) ∧
      Offside.elements readers (elements.flatMap (Element.lay place)) = elements := by
  induction elements generalizing missing with
  | nil =>
    refine ⟨fun _ => rfl, fun part hm => ?_, rfl⟩
    obtain rfl := List.mem_singleton.mp hm
    exact fun hne => absurd rfl hne
  | cons x elements ih =>
    cases x with
    | operator t =>
      have hk := (h.operators t List.mem_cons_self).1
      have hflat : Depth.top.after (.token t) = .top := by simp [Depth.after, hk]
      obtain ⟨-, hparts, helements⟩ := ih h.tail phrase
      have hcut : cut [.operator] ((Element.operator t :: elements).flatMap (Element.lay place)) =
          ([], (t, (cut [.operator] (elements.flatMap (Element.lay place))).1) ::
            (cut [.operator] (elements.flatMap (Element.lay place))).2) :=
        cut_cons (by simp [Token.hasKindIn, hk]) hflat
      refine ⟨fun _ => by rw [hcut], fun part hm => ?_, ?_⟩
      · rw [partsBetween, hcut] at hm
        rcases List.mem_cons.mp hm with rfl | hm
        · exact fun hne => absurd rfl hne
        · exact hparts part hm
      · rw [Offside.elements, hcut, clauseElements_cons, ← Offside.elements, helements]
        rfl
    | operand v =>
      obtain ⟨rfl, phrase⟩ := phrase
      have hread := h.operands v List.mem_cons_self
      obtain ⟨hfirst, hparts, helements⟩ := ih h.tail phrase
      have hcut : cut [.operator] ((Element.operand v :: elements).flatMap (Element.lay place)) =
          (grouped place (v.print place),
            (cut [.operator] (elements.flatMap (Element.lay place))).2) := by
        have hc := @cut_append [.operator] (grouped place (v.print place))
          (elements.flatMap (Element.lay place)) rfl (topIndex?_eq_none_iff.mp rfl)
        rw [hfirst rfl, List.append_nil] at hc
        exact hc
      refine ⟨Bool.noConfusion, fun part hm => ?_, ?_⟩
      · rw [partsBetween, hcut] at hm
        rcases List.mem_cons.mp hm with rfl | hm
        · exact fun _ => ⟨v, hread.reads_grouped place⟩
        · exact hparts part (List.mem_cons_of_mem _ hm)
      · rw [Offside.elements, hfirst rfl] at helements
        have hoperand : operandIn readers (grouped place (v.print place)) = [.operand v] :=
          operandIn_of_ok (List.cons_ne_nil _ _) (hread.reads_grouped place)
        rw [Offside.elements, hcut, hoperand]
        exact congrArg (Element.operand v :: ·) helements

theorem exists_last_of_isPhrase {missing : Bool} (phrase : IsPhrase missing elements) :
    (elements = [] ∧ missing = false) ∨ ∃ init v, elements = init ++ [.operand v] := by
  induction elements generalizing missing with
  | nil => exact .inl ⟨rfl, phrase⟩
  | cons x elements ih =>
    cases x with
    | operator t =>
      rcases ih phrase with ⟨-, hm⟩ | ⟨init, v, rfl⟩
      · cases hm
      · exact .inr ⟨.operator t :: init, v, rfl⟩
    | operand v =>
      rcases ih phrase.2 with ⟨rfl, -⟩ | ⟨init, w, rfl⟩
      · exact .inr ⟨[], v, rfl⟩
      · exact .inr ⟨.operand v :: init, w, rfl⟩

theorem isUndivided_enclosed {kinds : List Kind} {items : List Tree} (h : .closeParen ∉ kinds) :
    IsUndivided kinds .top (enclosed place items) := by
  have hopen : separator? kinds (.token ⟨.openParen, "(", place⟩, ⟨1, 0, 0⟩) = none := by
    simp [separator?, Depth.top]
  exact isUndivided_cons.mpr ⟨hopen, isUndivided_cons.mpr ⟨rfl,
    isUndivided_cons.mpr ⟨separator?_of_not_mem h, isUndivided_nil⟩⟩⟩

/-- Where the first operator stands. -/
theorem AreReadable.divide?_eq {kinds : List Kind} (h : AreReadable place elements)
    (hasOperator : ∃ t, .operator t ∈ elements) (hk : .operator ∈ kinds)
    (hp : .closeParen ∉ kinds) : ∃ left t right,
      divide? kinds (elements.flatMap (Element.lay place)) = some (left, t, right) ∧
        t.kind = .operator := by
  have hsplit : ∃ left t right, elements.flatMap (Element.lay place) = left ++ .token t :: right ∧
      IsUndivided kinds .top left ∧ IsBalanced left ∧ t.kind = .operator := by
    induction elements with
    | nil =>
      obtain ⟨t, ht⟩ := hasOperator
      cases ht
    | cons x elements ih =>
      cases x with
      | operator t =>
        exact ⟨[], t, _, rfl, isUndivided_nil, rfl, (h.operators t List.mem_cons_self).1⟩
      | operand v =>
        obtain ⟨t, ht⟩ := hasOperator
        obtain ⟨left, u, right, hl, hundivided, hbalanced, hu⟩ :=
          ih h.tail ⟨t, (List.mem_cons.mp ht).resolve_left Element.noConfusion⟩
        refine ⟨grouped place (v.print place) ++ left, u, right, ?_,
          isUndivided_append.mpr ⟨isUndivided_enclosed hp, hundivided⟩, hbalanced, hu⟩
        rw [List.flatMap_cons, hl, List.append_assoc]
        rfl
  obtain ⟨left, t, right, hl, hundivided, hbalanced, ht⟩ := hsplit
  refine ⟨left, t, right, divide?_eq_some_iff.mpr ⟨hl, hundivided, ?_⟩, ht⟩
  rw [hbalanced]
  exact separator?_eq_some_iff.mpr ⟨by rwa [ht], by simp [Depth.after, ht]⟩

theorem AreReadable.shape?_eq (h : AreReadable place elements) (phrase : IsPhrase true elements)
    (hasOperator : ∃ t, .operator t ∈ elements) :
    shape? (elements.flatMap (Element.lay place)) =
      some (.operation (elements.flatMap (Element.lay place))) := by
  have hkinds : ∀ kind, kind ∉ [Kind.operator, .openParen, .closeParen] →
      ∀ t, .token t ∈ elements.flatMap (Element.lay place) → t.kind ≠ kind := by
    rintro kind hk t hm rfl
    apply hk
    rcases mem_lay hm with ht | ht | ht
    · simp [(h.operators t ht).1]
    · simp [ht]
    · simp [ht]
  obtain ⟨hmissing, -⟩ | ⟨init, v, rfl⟩ := exists_last_of_isPhrase phrase
  · rw [hmissing] at phrase
    cases phrase
  have hlast : (init ++ [Element.operand v]).flatMap (Element.lay place) =
      init.flatMap (Element.lay place) ++ grouped place (v.print place) := by
    rw [List.flatMap_append, List.flatMap_singleton]
    rfl
  have hinit : AreReadable place init :=
    ⟨fun t hm => h.operators t (List.mem_append_left _ hm),
      fun v hm => h.operands v (List.mem_append_left _ hm)⟩
  have hcall : call? ((init ++ [Element.operand v]).flatMap (Element.lay place)) = none := by
    -- an operator stands before the last operand, so that operand is no list of arguments
    have hsubject : canBeSubject (init.flatMap (Element.lay place)) = false := by
      obtain ⟨t, ht⟩ := hasOperator
      have hbefore : .operator t ∈ init := by simpa using ht
      obtain ⟨left, u, right, hd, -⟩ :=
        @AreReadable.divide?_eq _ _ [.operator, .assignment, .arrow] hinit ⟨t, hbefore⟩ (by simp)
          (by simp)
      cases hi : topIndex? [.operator, .assignment, .arrow] (init.flatMap (Element.lay place)) with
      | none =>
        rw [divide?, hi] at hd
        cases hd
      | some i =>
        rw [canBeSubject, hi]
        exact Bool.and_false _
    have hreverse : ((init ++ [Element.operand v]).flatMap (Element.lay place)).reverse =
        .token ⟨.closeParen, ")", place⟩ :: .group (regroup ((v.print place).map .token)) ::
          .token ⟨.openParen, "(", place⟩ :: (init.flatMap (Element.lay place)).reverse := by
      rw [hlast, List.reverse_append]
      rfl
    rw [call?, hreverse]
    simp [hsubject]
  have haccess : access? ((init ++ [Element.operand v]).flatMap (Element.lay place)) = none := by
    refine access?_eq_none fun last hm => ?_
    have hl : (init.flatMap (Element.lay place) ++ grouped place (v.print place)).getLast? =
        some (.token ⟨.closeParen, ")", place⟩) := by
      simp [grouped, enclosed]
    rw [hlast, hl] at hm
    obtain rfl := Option.some.inj hm
    rfl
  have hoperation : operation? ((init ++ [Element.operand v]).flatMap (Element.lay place)) =
      some (.operation ((init ++ [Element.operand v]).flatMap (Element.lay place))) := by
    obtain ⟨left, t, right, hd, ht⟩ :=
      @AreReadable.divide?_eq _ _ [.operator, .assignment] h hasOperator (by simp) (by simp)
    rw [operation?, hd]
    simp [ht]
  simp only [shape?, ConstructForm.inOrder, ConstructForm.shape?, List.findSome?_cons,
    returning?_eq_none (hkinds .returnWord (by decide)), hcall, haccess,
    chain?_eq_none (hkinds .dot (by decide)), lambda?_eq_none (hkinds .arrow (by decide)),
    dictionary?_eq_none (hkinds .openCurly (by decide)), hoperation]

theorem AreReadable.readPostfix_eq (h : AreReadable place elements)
    (phrase : IsPhrase true elements) :
    readPostfix readers (elements.flatMap (Element.lay place)) =
      .ok (shunt [] (tag true elements)) := by
  obtain ⟨-, hparts, helements⟩ := h.elements_eq phrase
  obtain ⟨hmissing, -⟩ | ⟨init, v, rfl⟩ := exists_last_of_isPhrase phrase
  · rw [hmissing] at phrase
    cases phrase
  have hne : (init ++ [Element.operand v]).flatMap (Element.lay place) ≠ [] := by
    rw [List.flatMap_append]
    exact List.append_ne_nil_of_right_ne_nil _ (List.cons_ne_nil _ _)
  have hranked : ∀ t ∈ topOperators ((init ++ [Element.operand v]).flatMap (Element.lay place)),
      (rankOf? t.text).isSome := by
    intro t hm
    obtain ⟨item, hi, ht⟩ := List.mem_filterMap.mp hm
    have hmem := mem_of_mem_depths hi
    rw [token_of_separator? ht] at hmem
    have hkind : t.kind = .operator := by simpa using (kind_of_separator? ht).1
    rcases mem_lay hmem with ho | ho | ho
    · exact (h.operators t ho).2
    · rw [hkind] at ho
      cases ho
    · rw [hkind] at ho
      cases ho
  have hdue : due? ((init ++ [Element.operand v]).flatMap (Element.lay place)) = none := by
    refine due?_eq_none_iff.mpr ⟨hne, ?_⟩
    rw [trailingOperator?, List.flatMap_append, depths_append, List.flatMap_singleton,
      List.getLast?_append]
    rfl
  have hread := readParts_eq hranked (by rwa [split_of_ne_nil hne, ← partsBetween])
  rw [hdue, helements] at hread
  rw [readPostfix, hread]
  rfl

theorem AreReadable.readsAs {tree : Expression} (h : AreReadable place elements)
    (phrase : IsPhrase true elements) (isTree : precedenceTree? elements = some tree)
    (hasOperator : ∃ t, .operator t ∈ elements) :
    ReadsAs ((Construct.operation tree.postorder).print place)
      (.construct (.operation tree.postorder)) := by
  obtain ⟨other, hother, hinorder, hshunt⟩ := precedenceTree_of_isPhrase phrase
  obtain rfl : tree = other := Option.some.inj (isTree.symm.trans hother)
  have hread := h.readPostfix_eq phrase
  have hshape := h.shape?_eq phrase hasOperator
  rw [hshunt] at hread
  rw [print_operation, hinorder]
  obtain ⟨t, ht⟩ := hasOperator
  have hmem : .token t ∈ elements.flatMap (Element.lay place) :=
    List.mem_flatMap.mpr ⟨_, ht, List.mem_singleton_self _⟩
  have hkind := (h.operators t ht).1
  refine .of_shape h.groups ?_ ?_ hshape ?_
  · unfold literal?
    split
    next u hs =>
      rw [hs] at hmem
      obtain rfl := Tree.token.inj (List.mem_singleton.mp hmem)
      simp [hkind, Kind.isValue]
    next => rfl
  · unfold inParens?
    split
    next left items right hs =>
      rw [hs] at hmem
      have hend : left = .token t ∨ right = .token t := by
        simp only [List.mem_cons, reduceCtorEq, List.not_mem_nil, or_false, false_or] at hmem
        exact hmem.imp Eq.symm Eq.symm
      rcases hend with rfl | rfl <;> simp [Tree.hasKind, hkind]
    next => rfl
  · rw [Shape.read, hread]
    rfl

theorem Value.IsWellFormed.readsAs {v : Value} (h : v.IsWellFormed) (place : Span) :
    ReadsAs (v.print place) v := by
  induction h with
  | literal isValue =>
    rw [Value.print]
    exact readsAs_literal isValue
  | returning wf ih =>
    rw [Value.print, Construct.print]
    exact ih.returning
  | call wf wfs distinct ih ihs =>
    rw [Value.print, Construct.print]
    exact ih.call ihs distinct
  | access wf wfKey ih ihKey =>
    rw [Value.print, Construct.print]
    exact ih.access ihKey
  | chain wf nonempty areValues ih =>
    rw [Value.print, Construct.print]
    exact ih.chain nonempty areValues
  | lambda wf ih =>
    rw [Value.print, Construct.print]
    exact ih.lambda _
  | dictionary wfKeys wfs distinct ihKeys ihs =>
    rw [Value.print, Construct.print]
    exact .dictionary ihKeys ihs distinct
  | operation phrase isTree hasOperator operators wfs ihs =>
    rw [Value.print]
    exact AreReadable.readsAs ⟨operators, ihs⟩ phrase isTree hasOperator
  | assignment wf isAssignment wfRight ih ihRight =>
    rw [Value.print, Construct.print]
    exact ih.assignment isAssignment ihRight

/-- Reading undoes printing. -/
theorem readValue_print {v : Value} (h : v.IsWellFormed) (place : Span) :
    readValue ((v.print place).map .token) = .ok v := by
  have hread := h.readsAs place
  rw [hread.groups.isFlat.readValue_eq (mt List.map_eq_nil_iff.mp hread.nonempty), hread.reads]

/-- The call `f(- a ** b, key: {k: (p, q) => p})`. -/
theorem readValue_print_call :
    let word (kind : Kind) (text : String) : Token := ⟨kind, text, default⟩
    let name (text : String) : Value := .literal (word .name text)
    let power : Value := .construct (.operation [.operand (name "a"), .operand (name "b"),
      .operator (word .operator "**"), .unary (word .operator "-")])
    let pairing : Value := .construct (.dictionary
      [(name "k", .construct (.lambda ["p", "q"] (name "p")))])
    let call : Value := .construct (.call (name "f") [("0", power), ("key", pairing)])
    call.IsWellFormed ∧ readValue ((call.print default).map .token) = .ok call := by
  intro word name power pairing call
  have hname : ∀ text, (name text).IsWellFormed := fun _ => .literal rfl
  have hpower : power.IsWellFormed := by
    have hphrase : IsPhrase true [.operator (word .operator "-"), .operand (name "a"),
        .operator (word .operator "**"), .operand (name "b")] := ⟨rfl, rfl, rfl⟩
    refine @Value.IsWellFormed.operation _ (.unary (word .operator "-")
      (.binary (.operand (name "a")) (word .operator "**") (.operand (name "b")))) hphrase ?_
      ⟨_, List.mem_cons_self⟩ ?_ ?_
    · cbv
    · intro t ht
      obtain rfl | rfl : t = word .operator "-" ∨ t = word .operator "**" := by simpa using ht
      · exact ⟨rfl, rfl⟩
      · exact ⟨rfl, rfl⟩
    · intro v hv
      obtain rfl | rfl : v = name "a" ∨ v = name "b" := by simpa using hv
      · exact hname "a"
      · exact hname "b"
  have hpairing : pairing.IsWellFormed := by
    refine .dictionary ?_ ?_ (List.pairwise_singleton _ _)
    · exact List.forall_mem_singleton.mpr (hname "k")
    · exact List.forall_mem_singleton.mpr (.lambda (hname "p"))
  have hcall : call.IsWellFormed := by
    refine .call (hname "f") ?_ (by decide)
    exact List.forall_mem_cons.mpr ⟨hpower, List.forall_mem_singleton.mpr hpairing⟩
  exact ⟨hcall, readValue_print hcall default⟩

end Offside
