import Mathlib.Data.List.Induction
import Offside.Proofs.Printing

namespace Offside

/-- Whether a span is one part where commas divide it. -/
structure IsPart (part : List Tree) : Prop where
  nonempty : part ≠ []
  balanced : IsBalanced part
  kinds : ∀ t, .token t ∈ part → t.kind ∈ [.name, .colon, .openParen, .closeParen]

theorem isUndivided_of_not_mem {kinds : List Kind} {depth : Depth} {span : List Tree}
    (h : ∀ t, .token t ∈ span → t.kind ∉ kinds) : IsUndivided kinds depth span := by
  rintro ⟨tree, d⟩ hm
  cases tree with
  | token t => exact separator?_of_not_mem (h t (mem_of_mem_depths hm))
  | group items => rfl

theorem IsPart.isUndivided {part : List Tree} (h : IsPart part) :
    IsUndivided [.comma] .top part := by
  refine isUndivided_of_not_mem fun t hm => ?_
  have hk := h.kinds t hm
  revert hk
  cases t.kind <;> decide

section

variable {c : Token} {parts : List (List Tree)}

theorem intercalate_cons (c : Token) (part : List Tree) (parts : List (List Tree)) :
    List.intercalate [.token c] (part :: parts) = part ++ parts.flatMap (.token c :: ·) := by
  induction parts generalizing part with
  | nil => rw [List.intercalate_singleton, List.flatMap_nil, List.append_nil]
  | cons next parts ih =>
    rw [List.intercalate_cons_cons, ih, List.flatMap_cons, List.append_assoc]
    rfl

/-- Commas divide what stands between them, each part with its brackets closed and no comma
outside of them. -/
theorem partsBetween_commas {first : List Tree} {others : List (Token × List Tree)}
    (hfirst : IsBalanced first ∧ IsUndivided [.comma] .top first)
    (hothers : ∀ other ∈ others, other.1.kind = .comma ∧ IsBalanced other.2 ∧
      IsUndivided [.comma] .top other.2) :
    partsBetween [.comma] (first ++ others.flatMap fun other => .token other.1 :: other.2) =
      first :: others.map Prod.snd := by
  induction others generalizing first with
  | nil =>
    rw [List.flatMap_nil, List.append_nil]
    exact partsBetween_of_plain hfirst.2
  | cons other others ih =>
    obtain ⟨⟨hc, hother⟩, hothers⟩ := List.forall_mem_cons.mp hothers
    rw [List.flatMap_cons, List.cons_append, partsBetween_append hfirst.1
      (by simp [Token.hasKindIn, hc]) (by simp [Depth.after, hc]), partsBetween_of_plain hfirst.2,
      ih hother hothers]
    rfl

theorem partsBetween_intercalate (hc : c.kind = .comma) (h : ∀ part ∈ parts, IsPart part)
    (hne : parts ≠ []) :
    partsBetween [.comma] (List.intercalate [.token c] parts) = parts := by
  obtain ⟨part, parts, rfl⟩ := List.exists_cons_of_ne_nil hne
  obtain ⟨hpart, hparts⟩ := List.forall_mem_cons.mp h
  have hone : ∀ {part : List Tree}, IsPart part →
      IsBalanced part ∧ IsUndivided [.comma] .top part :=
    fun hpart => ⟨hpart.balanced, hpart.isUndivided⟩
  have hcommas := @partsBetween_commas part (parts.map (c, ·)) (hone hpart) <|
    List.forall_mem_map.mpr fun part hm => ⟨hc, hone (hparts part hm)⟩
  rw [List.flatMap_map, List.map_map] at hcommas
  rw [intercalate_cons, hcommas]
  simp [Function.comp_def]

theorem split_intercalate (hc : c.kind = .comma) (h : ∀ part ∈ parts, IsPart part) :
    split [.comma] false (List.intercalate [.token c] parts) = parts := by
  cases parts with
  | nil => rfl
  | cons part parts =>
    have hne : List.intercalate [.token c] (part :: parts) ≠ [] := by
      obtain ⟨tree, rest, hp⟩ := List.exists_cons_of_ne_nil (h part List.mem_cons_self).nonempty
      cases parts <;> simp [List.intercalate, hp]
    rw [split_of_ne_nil hne, ← partsBetween, partsBetween_intercalate hc h (List.cons_ne_nil _ _)]

theorem kind_of_mem_intercalate (hc : c.kind = .comma) (h : ∀ part ∈ parts, IsPart part)
    {t : Token} (ht : .token t ∈ List.intercalate [.token c] parts) :
    t.kind ∈ [.comma, .name, .colon, .openParen, .closeParen] := by
  have hpart : ∀ part ∈ parts, .token t ∈ part →
      t.kind ∈ [.comma, .name, .colon, .openParen, .closeParen] :=
    fun part hm ht => List.mem_cons_of_mem _ ((h part hm).kinds t ht)
  cases parts with
  | nil => cases ht
  | cons part parts =>
    rw [intercalate_cons] at ht
    rcases List.mem_append.mp ht with hm | hm
    · exact hpart part List.mem_cons_self hm
    · obtain ⟨next, hnext, hm⟩ := List.mem_flatMap.mp hm
      rcases List.mem_cons.mp hm with he | hm
      · obtain rfl := Tree.token.inj he
        exact hc ▸ List.mem_cons_self
      · exact hpart next (List.mem_cons_of_mem _ hnext) hm

end

/-- Whether an element is read from some tokens that stand at a position in a list. -/
structure ReadsListed {α : Type} (read : List Tree → Nat → Outcome α) (i : Nat)
    (tokens : List Token) (part : List Tree) (x : α) : Prop where
  groups : Groups tokens part
  isPart : IsPart part
  reads : read part i = .ok x

/-- Elements that are printed with commas between them are read one after another. -/
theorem readListed_commaSeparated {α : Type} (place : Span) {read : List Tree → Nat → Outcome α}
    {print : α → Nat → List Token} {xs : List α}
    (h : ∀ x ∈ xs, ∀ i, ∃ part, ReadsListed read i (print x i) part x) :
    ∃ trees, Groups (commaSeparated place (xs.zipIdx.map fun (x, i) => print x i)) trees ∧
      (∀ t, .token t ∈ trees → t.kind ∈ [.comma, .name, .colon, .openParen, .closeParen]) ∧
      readListed read trees = .ok xs := by
  have key : ∀ i, ∃ parts, List.Forall₂ Groups ((xs.zipIdx i).map fun (x, i) => print x i) parts ∧
      (∀ part ∈ parts, IsPart part) ∧
      (parts.zipIdx i).mapM (fun entry => read entry.1 entry.2) = .ok xs := by
    induction xs with
    | nil => exact fun i => ⟨[], .nil, fun part hm => (List.not_mem_nil hm).elim, rfl⟩
    | cons x xs ih =>
      intro i
      obtain ⟨hx, hxs⟩ := List.forall_mem_cons.mp h
      obtain ⟨part, hpart⟩ := hx i
      obtain ⟨parts, hgroups, hparts, hreads⟩ := ih hxs (i + 1)
      refine ⟨part :: parts, ?_, List.forall_mem_cons.mpr ⟨hpart.isPart, hparts⟩, ?_⟩
      · rw [List.zipIdx_cons, List.map_cons]
        exact .cons hpart.groups hgroups
      · rw [List.zipIdx_cons, List.mapM_cons, hreads]
        dsimp only
        rw [hpart.reads]
        rfl
  obtain ⟨parts, hgroups, hparts, hreads⟩ := key 0
  refine ⟨_, groups_commaSeparated hgroups, ?_, ?_⟩
  · exact fun t ht => kind_of_mem_intercalate rfl hparts ht
  · rw [readListed, split_intercalate rfl hparts]
    exact hreads

section

variable {κ ν : Type} {same : κ → κ → Bool}

theorem put_of_distinct {entries : List (κ × ν)} {pair : κ × ν}
    (h : ∀ entry ∈ entries, same entry.1 pair.1 = false) :
    put same pair.1 pair.2 entries = entries ++ [pair] := by
  induction entries with
  | nil => rfl
  | cons entry entries ih =>
    obtain ⟨hentry, hentries⟩ := List.forall_mem_cons.mp h
    rw [put, if_neg (by simp [hentry]), ih hentries, List.cons_append]

theorem collect_of_distinct {pairs : List (κ × ν)}
    (h : pairs.Pairwise fun a b => same a.1 b.1 = false) : collect same pairs = pairs := by
  induction pairs using List.reverseRecOn with
  | nil => rfl
  | append_singleton pairs pair ih =>
    obtain ⟨hpairs, -, hpair⟩ := List.pairwise_append.mp h
    rw [collect_append, ih hpairs]
    exact put_of_distinct fun entry hm => hpair entry hm pair List.mem_cons_self

end

/-- Whether a value is read from some tokens, their parentheses grouped. -/
structure ReadsAs (tokens : List Token) (v : Value) : Prop where
  groups : Groups tokens (regroup (tokens.map .token))
  nonempty : tokens ≠ []
  reads : readValue (regroup (tokens.map .token)) = .ok v

section

variable {place : Span} {tokens tokens' : List Token} {trees : List Tree} {v v' : Value}

/-- What stands for some tokens in parentheses. -/
def grouped (place : Span) (tokens : List Token) : List Tree :=
  enclosed place (regroup (tokens.map .token))

theorem ReadsAs.groups_parenthesized (h : ReadsAs tokens v) (place : Span) :
    Groups (parenthesized place tokens) (grouped place tokens) :=
  h.groups.parenthesized place

theorem ReadsAs.reads_grouped (h : ReadsAs tokens v) (place : Span) :
    readValue (grouped place tokens) = .ok v := by
  rw [grouped, enclosed, readValue_parens rfl rfl, h.reads]

theorem ReadsAs.reads_groupedAt (h : ReadsAs tokens v) (place : Span) (p : Position) :
    readers.valueAt (grouped place tokens) p = .ok v :=
  Readers.valueAt_of_ok (h.reads_grouped place) p

theorem ReadsAs.of_groups (h : Groups tokens trees) (hne : tokens ≠ [])
    (hv : readValue trees = .ok v) : ReadsAs tokens v := by
  obtain rfl := h.regroup_eq
  exact ⟨h, hne, hv⟩

theorem ReadsAs.of_shape {shape : Shape} {c : Construct} (h : Groups tokens trees)
    (hliteral : literal? trees = none) (hparens : inParens? trees = none)
    (hshape : shape? trees = some shape) (hread : shape.read readers = .ok c) :
    ReadsAs tokens (.construct c) := by
  have hne : tokens ≠ [] := by
    rintro rfl
    rw [← h.regroup_eq, List.map_nil, regroup] at hshape
    cases hshape
  refine .of_groups h hne ?_
  have hr := h.isFlat.readValue_regroup (mt List.map_eq_nil_iff.mp hne)
  rw [h.regroup_eq] at hr
  rw [hr, readSimple, hliteral, hparens]
  dsimp only
  rw [readConstruct, hshape]
  dsimp only
  rw [hread]
  rfl

theorem Kind.isInert_of_accessor {kind : Kind} (h : kind = .dot ∨ kind.isValue = true) :
    kind.isInert = true := by
  cases kind <;> simp_all [isValue, isInert]

theorem readsAs_literal {t : Token} (h : t.kind.isValue = true) : ReadsAs [t] (.literal t) :=
  .of_groups (groups_nil.cons (Kind.isInert_of_accessor (.inr h))) (List.cons_ne_nil _ _)
    (readValue_literal h)

/-! What a composite value is printed as is taken by its own form, and by none tried before. -/

theorem ReadsAs.returning (h : ReadsAs tokens v) :
    ReadsAs (⟨.returnWord, "return", place⟩ :: parenthesized place tokens)
      (.construct (.returning v)) := by
  refine .of_shape ((h.groups_parenthesized place).cons rfl) rfl rfl rfl ?_
  rw [Shape.read, h.reads_groupedAt]
  rfl

theorem ReadsAs.access (h : ReadsAs tokens v) (h' : ReadsAs tokens' v') :
    ReadsAs (parenthesized place tokens ++ ⟨.openBracket, "[", place⟩ ::
      (parenthesized place tokens' ++ [⟨.closeBracket, "]", place⟩]))
      (.construct (.access v v')) := by
  have hcloser : Groups [⟨.closeBracket, "]", place⟩] [.token ⟨.closeBracket, "]", place⟩] :=
    groups_nil.cons rfl
  have hkey := (h'.groups_parenthesized place).append hcloser
  refine .of_shape ((h.groups_parenthesized place).append (hkey.cons rfl)) rfl rfl rfl ?_
  show (readers.valueAt (grouped place tokens') _ >>= fun key =>
    readValue (grouped place tokens) >>= fun value => pure (Construct.access value key)) = _
  rw [h'.reads_groupedAt, h.reads_grouped]
  rfl

theorem ReadsAs.assignment {t : Token} (h : ReadsAs tokens v) (ht : t.kind = .assignment)
    (h' : ReadsAs tokens' v') :
    ReadsAs (parenthesized place tokens ++ t :: parenthesized place tokens')
      (.construct (.assignment v t v')) := by
  obtain ⟨kind, text, span⟩ := t
  obtain rfl : kind = .assignment := ht
  refine .of_shape ((h.groups_parenthesized place).append ((h'.groups_parenthesized place).cons rfl))
    rfl rfl rfl ?_
  show (readers.valueAt (grouped place tokens) _ >>= fun target =>
    readers.valueAt (grouped place tokens') _ >>= fun value =>
      pure (Construct.assignment target ⟨.assignment, text, span⟩ value)) = _
  rw [h.reads_groupedAt, h'.reads_groupedAt]
  rfl

theorem isPart_enclosed (items : List Tree) : IsPart (enclosed place items) := by
  refine ⟨List.cons_ne_nil _ _, rfl, fun t hm => ?_⟩
  simp only [enclosed, List.mem_cons, reduceCtorEq, List.not_mem_nil, or_false, false_or,
    Tree.token.injEq] at hm
  rcases hm with rfl | rfl <;> simp

theorem IsPart.cons {part : List Tree} {t : Token} (h : IsPart part)
    (ht : t.kind = .name ∨ t.kind = .colon) : IsPart (.token t :: part) := by
  have hflat : Depth.top.after (.token t) = .top := by
    rcases ht with hk | hk <;> simp [Depth.after, hk]
  refine ⟨List.cons_ne_nil _ _, ?_, fun u hm => ?_⟩
  · rw [IsBalanced, List.foldl_cons, hflat]
    exact h.balanced
  · rcases List.mem_cons.mp hm with he | hm
    · obtain rfl := Tree.token.inj he
      rcases ht with hk | hk <;> simp [hk]
    · exact h.kinds u hm

theorem IsPart.append {part part' : List Tree} (h : IsPart part) (h' : IsPart part') :
    IsPart (part ++ part') := by
  refine ⟨List.append_ne_nil_of_left_ne_nil h.nonempty _, ?_, fun t hm => ?_⟩
  · rw [IsBalanced, List.foldl_append, h.balanced]
    exact h'.balanced
  · exact (List.mem_append.mp hm).elim (h.kinds t) (h'.kinds t)

theorem ReadsAs.argument (h : ReadsAs tokens v) (name : String) (i : Nat) (p : Position) :
    ∃ part, ReadsListed (readArgument readers p) i (printArgument place name i tokens) part
      (name, v) := by
  rw [printArgument]
  split
  next hname =>
    refine ⟨_, h.groups_parenthesized place, isPart_enclosed _, ?_⟩
    show (readers.valueAt (grouped place tokens) p >>= fun value =>
      pure (toString i, value)) = _
    rw [h.reads_groupedAt, hname]
    rfl
  next =>
    refine ⟨_, ((h.groups_parenthesized place).cons rfl).cons rfl,
      ((isPart_enclosed _).cons (.inr rfl)).cons (.inl rfl), ?_⟩
    show (readers.valueAt (grouped place tokens) _ >>= fun value =>
      pure (name, value)) = _
    rw [h.reads_groupedAt]
    rfl

theorem ReadsAs.entry (h : ReadsAs tokens v) (h' : ReadsAs tokens' v') (i : Nat) (p : Position) :
    ∃ part, ReadsListed (readEntry readers p) i (printEntry place tokens tokens') part (v, v') := by
  rw [printEntry]
  refine ⟨_, (h.groups_parenthesized place).append ((h'.groups_parenthesized place).cons rfl),
    (isPart_enclosed _).append ((isPart_enclosed _).cons (.inr rfl)), ?_⟩
  show (readers.valueAt (grouped place tokens) _ >>= fun key =>
    readers.valueAt (grouped place tokens') _ >>= fun value => pure (key, value)) = _
  rw [h.reads_groupedAt, h'.reads_groupedAt]
  rfl

theorem printArguments_eq (place : Span) (arguments : List (String × Value)) (i : Nat) :
    printArguments place i arguments =
      (arguments.zipIdx i).map fun (a, i) => printArgument place a.1 i (a.2.print place) := by
  induction arguments generalizing i with
  | nil => rw [printArguments, List.zipIdx_nil, List.map_nil]
  | cons a arguments ih => rw [printArguments, ih, List.zipIdx_cons, List.map_cons]

theorem printEntries_eq (place : Span) (entries : List (Value × Value)) :
    printEntries place entries =
      entries.zipIdx.map fun (e, _) => printEntry place (e.1.print place) (e.2.print place) := by
  have key : ∀ i, printEntries place entries = (entries.zipIdx i).map fun (e, _) =>
      printEntry place (e.1.print place) (e.2.print place) := by
    induction entries with
    | nil => exact fun i => by rw [printEntries, List.zipIdx_nil, List.map_nil]
    | cons e entries ih =>
      exact fun i => by rw [printEntries, ih (i + 1), List.zipIdx_cons, List.map_cons]
  exact key 0

theorem ReadsAs.call {arguments : List (String × Value)} (h : ReadsAs tokens v)
    (ha : ∀ a ∈ arguments, ReadsAs (a.2.print place) a.2)
    (distinct : (arguments.map Prod.fst).Nodup) :
    ReadsAs (parenthesized place tokens ++
      parenthesized place (commaSeparated place (printArguments place 0 arguments)))
      (.construct (.call v arguments)) := by
  obtain ⟨trees, hgroups, -, hread⟩ := readListed_commaSeparated place
    fun a hm i => (ha a hm).argument a.1 i place.start
  have hcollect : collect (· == ·) arguments = arguments := by
    refine collect_of_distinct ((List.pairwise_map.mp distinct).imp ?_)
    intro a b hne
    simpa using hne
  rw [printArguments_eq]
  refine .of_shape ((h.groups_parenthesized place).append (hgroups.parenthesized place)) rfl rfl rfl ?_
  show (readListed (readArgument readers place.start) trees >>= fun arguments =>
    readValue (grouped place tokens) >>= fun value =>
      pure (Construct.call value (collect (· == ·) arguments))) = _
  rw [hread, h.reads_grouped]
  show Except.ok (Construct.call v (collect (· == ·) arguments)) = _
  rw [hcollect]

theorem returning?_eq_none (h : ∀ t, .token t ∈ trees → t.kind ≠ .returnWord) :
    returning? trees = none := by
  match trees with
  | [] => rfl
  | .group items :: rest => rfl
  | .token t :: rest =>
    exact if_neg (by simpa [Tree.hasKind] using h t List.mem_cons_self)

theorem call?_eq_none (h : ∀ last ∈ trees.getLast?, last.hasKind .closeParen = false) :
    call? trees = none := by
  rw [List.getLast?_eq_head?_reverse] at h
  rw [call?]
  split
  next closer arguments opener before he =>
    rw [he] at h
    simp [h closer rfl]
  next => rfl

theorem access?_eq_none (h : ∀ last ∈ trees.getLast?, last.hasKind .closeBracket = false) :
    access? trees = none := by
  have hopen : openOfLast? trees = none := by
    rw [List.getLast?_eq_head?_reverse] at h
    rw [openOfLast?]
    split
    next => rfl
    next last rest he =>
      rw [he] at h
      simp [h last rfl]
  rw [access?, hopen]
  rfl

theorem chain?_eq_none (h : ∀ t, .token t ∈ trees → t.kind ≠ .dot) : chain? trees = none := by
  have hd : divide? [.dot] trees = none :=
    divide?_eq_none_iff.mpr (isUndivided_of_not_mem fun t hm => by simpa using h t hm)
  rw [chain?, hd]
  rfl

theorem lambda?_eq_none (h : ∀ t, .token t ∈ trees → t.kind ≠ .arrow) : lambda? trees = none := by
  have hd : divide? [.arrow] trees = none :=
    divide?_eq_none_iff.mpr (isUndivided_of_not_mem fun t hm => by simpa using h t hm)
  rw [lambda?, hd]
  rfl

theorem dictionary?_eq_none (h : ∀ t, .token t ∈ trees → t.kind ≠ .openCurly) :
    dictionary? trees = none := by
  match trees with
  | [] => rfl
  | .group items :: rest => rfl
  | .token t :: rest =>
    have ht : Tree.hasKind .openCurly (.token t) = false := by
      simpa [Tree.hasKind] using h t List.mem_cons_self
    simp [dictionary?, ht]

section

variable {α : Type} {dot value : α → Token} {xs : List α}
  (hd : ∀ x ∈ xs, (dot x).kind = .dot) (hv : ∀ x ∈ xs, (value x).kind.isValue = true)

include hd hv

theorem kind_of_mem_accessors {t : Token} (h : t ∈ xs.flatMap fun x => [dot x, value x]) :
    t.kind = .dot ∨ t.kind.isValue = true := by
  obtain ⟨x, hx, ht⟩ := List.mem_flatMap.mp h
  rcases List.mem_cons.mp ht with rfl | ht
  · exact .inl (hd x hx)
  · obtain rfl := List.mem_singleton.mp ht
    exact .inr (hv x hx)

theorem accessors?_flatMap :
    accessors? ((xs.flatMap fun x => [dot x, value x]).map .token) = some (xs.map value) := by
  induction xs with
  | nil => rfl
  | cons x xs ih =>
    obtain ⟨hdot, hd⟩ := List.forall_mem_cons.mp hd
    obtain ⟨hvalue, hv⟩ := List.forall_mem_cons.mp hv
    have hne : (value x).kind ≠ .dot := by
      intro hk
      rw [hk] at hvalue
      cases hvalue
    rw [List.flatMap_cons, List.cons_append, List.singleton_append, List.map_cons, List.map_cons,
      accessors?, if_pos hdot, accessors?, if_neg hne, if_pos hvalue, ih hd hv]
    rfl

theorem groups_accessors : Groups (xs.flatMap fun x => [dot x, value x])
    ((xs.flatMap fun x => [dot x, value x]).map .token) := by
  have hinert : ∀ t ∈ xs.flatMap fun x => [dot x, value x], t.kind.isInert = true :=
    fun t ht => Kind.isInert_of_accessor (kind_of_mem_accessors hd hv ht)
  generalize (xs.flatMap fun x => [dot x, value x]) = tokens at hinert
  induction tokens with
  | nil => exact groups_nil
  | cons t tokens ih =>
    obtain ⟨ht, htokens⟩ := List.forall_mem_cons.mp hinert
    exact (ih htokens).cons ht

end

/-- The accessors of a chain, each after a dot. -/
def dotted (place : Span) (accessors : List Token) : List Tree :=
  accessors.flatMap fun t => [.token ⟨.dot, ".", place⟩, .token t]

theorem map_token_dotted (place : Span) (accessors : List Token) :
    (accessors.flatMap fun t => [⟨.dot, ".", place⟩, t]).map Tree.token =
      dotted place accessors := by
  rw [dotted, List.map_flatMap]
  rfl

theorem accessors?_dotted {accessors : List Token}
    (areValues : ∀ t ∈ accessors, t.kind.isValue = true) :
    accessors? (dotted place accessors) = some accessors := by
  have h := @accessors?_flatMap _ (fun _ => ⟨.dot, ".", place⟩) id _ (fun _ _ => rfl) areValues
  rw [List.map_id] at h
  rw [← map_token_dotted]
  exact h

theorem groups_dotted {accessors : List Token}
    (areValues : ∀ t ∈ accessors, t.kind.isValue = true) :
    Groups (accessors.flatMap fun t => [⟨.dot, ".", place⟩, t]) (dotted place accessors) := by
  rw [← map_token_dotted]
  exact groups_accessors (fun _ _ => rfl) areValues

theorem kind_of_mem_dotted {accessors : List Token}
    (areValues : ∀ t ∈ accessors, t.kind.isValue = true) {t : Token}
    (h : .token t ∈ dotted place accessors) : t.kind = .dot ∨ t.kind.isValue = true := by
  rw [← map_token_dotted] at h
  obtain ⟨u, hu, he⟩ := List.mem_map.mp h
  obtain rfl := Tree.token.inj he
  exact kind_of_mem_accessors (fun _ _ => rfl) areValues hu

theorem kind_of_mem_enclosed {items : List Tree} {t : Token}
    (h : .token t ∈ enclosed place items) : t.kind = .openParen ∨ t.kind = .closeParen := by
  simp only [enclosed, List.mem_cons, reduceCtorEq, List.not_mem_nil, or_false, false_or,
    Tree.token.injEq] at h
  rcases h with rfl | rfl
  · exact .inl rfl
  · exact .inr rfl

theorem tokens_of_accessors? {span : List Tree} {accessors : List Token}
    (h : accessors? span = some accessors) : ∃ ts : List Token, span = ts.map .token ∧
      ∀ t ∈ ts, t.kind = .dot ∨ t.kind.isValue = true := by
  induction span generalizing accessors with
  | nil => exact ⟨[], rfl, fun t ht => by cases ht⟩
  | cons tree span ih =>
    cases tree with
    | group items => cases h
    | token t =>
      rw [accessors?] at h
      split at h
      next hd =>
        obtain ⟨ts, rfl, hts⟩ := ih h
        exact ⟨t :: ts, rfl, List.forall_mem_cons.mpr ⟨.inl hd, hts⟩⟩
      next =>
        split at h
        next hv =>
          obtain ⟨others, ho, -⟩ := Option.map_eq_some_iff.mp h
          obtain ⟨ts, rfl, hts⟩ := ih ho
          exact ⟨t :: ts, rfl, List.forall_mem_cons.mpr ⟨.inr hv, hts⟩⟩
        next => cases h

theorem kind_ne_of_accessor {t : Token} {kind : Kind} (h : t.kind = .dot ∨ t.kind.isValue = true)
    (hd : kind ≠ .dot) (hv : kind.isValue = false) : t.kind ≠ kind := by
  rintro rfl
  rcases h with h | h
  · exact hd h
  · rw [h] at hv
    cases hv

/-- Accessors behind the first dot make a chain: no bracket is closed at its end. -/
theorem shape?_of_accessors {subject rest : List Tree} {dot : Token} {accessors : List Token}
    (hreturn : returning? trees = none) (harrow : hasArrow trees = false)
    (hdivide : divide? [.dot] trees = some (subject, dot, rest))
    (hsubject : canBeSubject subject = true) (names : accessors? rest = some accessors)
    (nonempty : accessors ≠ []) : shape? trees = some (.chain subject accessors) := by
  have hlast : ∃ t : Token, (t.kind = .dot ∨ t.kind.isValue = true) ∧
      trees.getLast? = some (.token t) := by
    obtain ⟨rfl, -, hdot⟩ := divide?_eq_some_iff.mp hdivide
    have hk := List.mem_singleton.mp (separator?_eq_some_iff.mp hdot).1
    obtain ⟨ts, rfl, hts⟩ := tokens_of_accessors? names
    obtain rfl | ⟨others, t, rfl⟩ := List.eq_nil_or_concat ts
    · exact ⟨dot, .inl hk, List.getLast?_concat⟩
    · exact ⟨t, hts t (by simp), by simp [List.getLast?_cons]⟩
  have hclosed : ∀ kind : Kind, kind ≠ .dot → kind.isValue = false →
      ∀ last ∈ trees.getLast?, last.hasKind kind = false := by
    intro kind hd hk last hm
    obtain ⟨t, ht, hl⟩ := hlast
    obtain rfl := Option.some.inj (hl.symm.trans hm)
    exact beq_eq_false_iff_ne.mpr (kind_ne_of_accessor ht hd hk)
  have hchain : chain? trees = some (.chain subject accessors) := by
    rw [chain?, hdivide]
    simp [harrow, hsubject, names, nonempty]
  simp only [shape?, ConstructForm.inOrder, ConstructForm.shape?, List.findSome?_cons, hreturn,
    call?_eq_none (hclosed .closeParen (by decide) rfl),
    access?_eq_none (hclosed .closeBracket (by decide) rfl), hchain]

theorem shape?_of_chain {items : List Tree} {accessors : List Token} (nonempty : accessors ≠ [])
    (areValues : ∀ t ∈ accessors, t.kind.isValue = true)
    (hspan : trees = enclosed place items ++ dotted place accessors) :
    shape? trees = some (.chain (enclosed place items) accessors) := by
  have harrow : hasArrow trees = false := by
    refine hasArrow_eq_false (isUndivided_of_not_mem fun t hm => ?_)
    rw [hspan] at hm
    rw [List.mem_singleton]
    rcases List.mem_append.mp hm with hm | hm
    · intro hk
      have hp := kind_of_mem_enclosed hm
      simp [hk] at hp
    · exact kind_ne_of_accessor (kind_of_mem_dotted areValues hm) (by decide) rfl
  obtain ⟨first, others, rfl⟩ := List.exists_cons_of_ne_nil nonempty
  have hdivide : divide? [.dot] trees = some (enclosed place items, ⟨.dot, ".", place⟩,
      .token first :: dotted place others) :=
    divide?_eq_some_iff.mpr ⟨hspan, topIndex?_eq_none_iff.mp rfl, rfl⟩
  have hnames : accessors? (.token first :: dotted place others) = some (first :: others) :=
    (accessors?_dotted areValues : accessors? (dotted place (first :: others)) = _)
  have hreturn : returning? trees = none := by
    rw [hspan]
    rfl
  exact shape?_of_accessors hreturn harrow hdivide rfl hnames nonempty

theorem ReadsAs.chain {accessors : List Token} (h : ReadsAs tokens v) (nonempty : accessors ≠ [])
    (areValues : ∀ t ∈ accessors, t.kind.isValue = true) :
    ReadsAs (parenthesized place tokens ++
      accessors.flatMap fun t => [⟨.dot, ".", place⟩, t]) (.construct (.chain v accessors)) := by
  have hshape := @shape?_of_chain place _ (regroup (tokens.map .token)) _ nonempty areValues rfl
  obtain ⟨first, others, rfl⟩ := List.exists_cons_of_ne_nil nonempty
  refine .of_shape ((h.groups_parenthesized place).append (groups_dotted areValues)) rfl rfl hshape ?_
  show (readValue (grouped place tokens) >>= fun value =>
    pure (Construct.chain value (first :: others))) = _
  rw [h.reads_grouped]
  rfl

theorem forall₂_names (place : Span) (names : List String) :
    List.Forall₂ Groups (names.map fun name => [⟨.name, name, place⟩])
      (names.map fun name => [.token ⟨.name, name, place⟩]) := by
  induction names with
  | nil => exact .nil
  | cons name names ih => exact .cons (groups_nil.cons rfl) ih

theorem map_commaSeparated (place : Span) (parts : List (List Token)) :
    (commaSeparated place parts).map Tree.token =
      List.intercalate [.token ⟨.comma, ",", place⟩] (parts.map (List.map .token)) := by
  induction parts with
  | nil => rfl
  | cons part parts ih =>
    cases parts with
    | nil => simp [commaSeparated]
    | cons next parts =>
      rw [commaSeparated, List.intercalate_cons_cons, ← commaSeparated, List.map_append, ih]
      simp [List.intercalate_cons_cons]

theorem parameters?_of_leaves {opener closer : Token} {inner : List Token}
    (h : leaves trees = opener :: (inner ++ [closer])) (ho : opener.kind = .openParen)
    (hc : closer.kind = .closeParen) :
    parameters? trees = (split [.comma] false (inner.map .token)).mapM soleName? := by
  have hlast : (inner ++ [closer]).getLast?.any (·.kind == .closeParen) = true := by simp [hc]
  have hinit : (inner ++ [closer]).dropLast = inner := List.dropLast_concat
  rw [parameters?, h]
  cases hr : inner ++ [closer] with
  | nil => simp at hr
  | cons second rest =>
    rw [hr] at hlast hinit
    simp only [ho, hlast, hinit, beq_self_eq_true, Bool.and_self, if_true]

theorem parameters?_commaSeparated (place : Span) (names : List String) :
    ∃ inner, Groups (commaSeparated place (names.map fun name => [⟨.name, name, place⟩])) inner ∧
      parameters? (enclosed place inner) = some names := by
  have hgroups := @groups_commaSeparated place _ _ (forall₂_names place names)
  refine ⟨_, hgroups, ?_⟩
  have hleaves := congrArg leaves hgroups.regroup_eq
  rw [leaves_regroup, leaves_map_token] at hleaves
  have henclosed : leaves (enclosed place (List.intercalate [.token ⟨.comma, ",", place⟩]
      (names.map fun name => [.token ⟨.name, name, place⟩]))) =
      ⟨.openParen, "(", place⟩ :: (commaSeparated place
        (names.map fun name => [⟨.name, name, place⟩]) ++ [⟨.closeParen, ")", place⟩]) := by
    rw [hleaves]
    rfl
  have hparts : ∀ part ∈ names.map fun name => [Tree.token ⟨.name, name, place⟩], IsPart part := by
    intro part hm
    obtain ⟨name, -, rfl⟩ := List.mem_map.mp hm
    exact ⟨List.cons_ne_nil _ _, rfl, by simp⟩
  have hnames : (names.map fun name => [Tree.token ⟨.name, name, place⟩]).mapM soleName? =
      some names := by
    clear * -
    induction names with
    | nil => rfl
    | cons name names ih =>
      rw [List.map_cons, List.mapM_cons, ih]
      rfl
  rw [parameters?_of_leaves henclosed rfl rfl, map_commaSeparated, List.map_map]
  exact (congrArg (List.mapM soleName?) (split_intercalate rfl hparts)).trans hnames

theorem shape?_of_lambda {inner body : List Tree} {names : List String}
    (hnames : parameters? (enclosed place inner) = some names)
    (hspan : trees = enclosed place inner ++ .token ⟨.arrow, "=>", place⟩ :: enclosed place body) :
    shape? trees = some (.lambda names ⟨.arrow, "=>", place⟩ (enclosed place body)) := by
  have hreturn : returning? trees = none := by
    rw [hspan]
    rfl
  have hcall : call? trees = none := by
    rw [hspan]
    rfl
  have haccess : access? trees = none := by
    rw [hspan]
    rfl
  have hchain : chain? trees = none := by
    rw [hspan]
    rfl
  have hlambda : lambda? trees =
      some (.lambda names ⟨.arrow, "=>", place⟩ (enclosed place body)) := by
    rw [hspan]
    show (parameters? (enclosed place inner) >>= fun names =>
      some (Shape.lambda names ⟨.arrow, "=>", place⟩ (enclosed place body))) = _
    rw [hnames]
    rfl
  simp only [shape?, ConstructForm.inOrder, ConstructForm.shape?, List.findSome?_cons, hreturn,
    hcall, haccess, hchain, hlambda]

theorem ReadsAs.lambda (h : ReadsAs tokens v) (parameters : List String) :
    ReadsAs (parenthesized place
      (commaSeparated place (parameters.map fun name => [⟨.name, name, place⟩])) ++
        ⟨.arrow, "=>", place⟩ :: parenthesized place tokens)
      (.construct (.lambda parameters v)) := by
  obtain ⟨inner, hgroups, hnames⟩ := parameters?_commaSeparated place parameters
  refine .of_shape ((hgroups.parenthesized place).append ((h.groups_parenthesized place).cons rfl))
    rfl rfl (shape?_of_lambda hnames rfl) ?_
  show (readers.valueAt (grouped place tokens) _ >>= fun body =>
    pure (Construct.lambda parameters body)) = _
  rw [h.reads_groupedAt]
  rfl

theorem shape?_of_dictionary {opener closer : Token} {inner : List Tree}
    (ho : opener.kind = .openCurly) (hc : closer.kind = .closeCurly)
    (hinner : ∀ t, .token t ∈ inner →
      t.kind ∈ [.comma, .name, .colon, .openParen, .closeParen])
    (hspan : trees = .token opener :: (inner ++ [.token closer])) :
    shape? trees = some (.dictionary (.token opener) inner) := by
  have hkinds : ∀ t, .token t ∈ trees →
      t.kind ∈ [.openCurly, .closeCurly, .comma, .name, .colon, .openParen, .closeParen] := by
    intro t hm
    rw [hspan] at hm
    rcases List.mem_cons.mp hm with he | hm
    · obtain rfl := Tree.token.inj he
      exact ho ▸ List.mem_cons_self
    · rcases List.mem_append.mp hm with hm | hm
      · exact List.mem_cons_of_mem _ (List.mem_cons_of_mem _ (hinner t hm))
      · obtain rfl := Tree.token.inj (List.mem_singleton.mp hm)
        exact hc ▸ List.mem_cons_of_mem _ List.mem_cons_self
  have hnot : ∀ kind, kind ∉ [Kind.openCurly, .closeCurly, .comma, .name, .colon, .openParen,
      .closeParen] → ∀ t, .token t ∈ trees → t.kind ≠ kind := by
    rintro kind hk t hm rfl
    exact hk (hkinds t hm)
  have hlast : ∀ last ∈ trees.getLast?, last = .token closer := by
    rw [hspan, ← List.cons_append, List.getLast?_concat]
    rintro last hm
    exact (Option.some.inj hm).symm
  have hplain : ∀ tree ∈ inner, tree.hasKind .openCurly = false ∧
      tree.hasKind .closeCurly = false := by
    intro tree hm
    cases tree with
    | token t =>
      have hk := hinner t hm
      constructor <;> simp only [Tree.hasKind] <;> revert hk <;> cases t.kind <;> decide
    | group items => exact ⟨rfl, rfl⟩
  have hclose : closeOf? trees 0 = some (inner.length + 1) := by
    have hindex : closerIndex? .openCurly .closeCurly 0 (inner ++ [.token closer]) =
        some inner.length :=
      closerIndex?_of_plain hplain (by simp [Tree.hasKind, hc]) (by simp [Tree.hasKind, hc])
    rw [hspan, closeOf?, List.drop_zero]
    simp [ho, Kind.closer?, hindex, Nat.add_comm]
  have hdictionary : dictionary? trees = some (.dictionary (.token opener) inner) := by
    rw [hspan] at hclose ⊢
    rw [dictionary?, hclose]
    simp [Tree.hasKind, ho]
  have hcall : call? trees = none := by
    refine call?_eq_none fun last hm => ?_
    rw [hlast last hm]
    simp [Tree.hasKind, hc]
  have haccess : access? trees = none := by
    refine access?_eq_none fun last hm => ?_
    rw [hlast last hm]
    simp [Tree.hasKind, hc]
  simp only [shape?, ConstructForm.inOrder, ConstructForm.shape?, List.findSome?_cons,
    returning?_eq_none (hnot .returnWord (by decide)), hcall, haccess,
    chain?_eq_none (hnot .dot (by decide)), lambda?_eq_none (hnot .arrow (by decide)), hdictionary]

theorem ReadsAs.dictionary {entries : List (Value × Value)}
    (hk : ∀ e ∈ entries, ReadsAs (e.1.print place) e.1)
    (hv : ∀ e ∈ entries, ReadsAs (e.2.print place) e.2)
    (distinct : entries.Pairwise fun e e' => e.1.same e'.1 = false) :
    ReadsAs (⟨.openCurly, "\x7b", place⟩ ::
      (commaSeparated place (printEntries place entries) ++ [⟨.closeCurly, "\x7d", place⟩]))
      (.construct (.dictionary entries)) := by
  have hentry : ∀ e ∈ entries, ∀ i, ∃ part, ReadsListed (readEntry readers place.start) i
      (printEntry place (e.1.print place) (e.2.print place)) part e :=
    fun e hm i => (hk e hm).entry (hv e hm) i place.start
  obtain ⟨inner, hgroups, hinner, hread⟩ :=
    @readListed_commaSeparated _ place _ (fun e _ => printEntry place _ _) _ hentry
  rw [printEntries_eq]
  have hcloser : Groups [⟨.closeCurly, "\x7d", place⟩] [.token ⟨.closeCurly, "\x7d", place⟩] :=
    groups_nil.cons rfl
  refine .of_shape ((hgroups.append hcloser).cons rfl) ?_ ?_
    (shape?_of_dictionary rfl rfl hinner rfl) ?_
  · cases inner <;> rfl
  · unfold inParens?
    split
    next left items right he =>
      obtain ⟨rfl, -⟩ := List.cons.inj he
      rfl
    next => rfl
  show (readListed (readEntry readers place.start) inner >>= fun entries =>
    pure (Construct.dictionary (collect Value.same entries))) = _
  rw [hread]
  show Except.ok (Construct.dictionary (collect Value.same entries)) = _
  rw [collect_of_distinct distinct]

end

end Offside
