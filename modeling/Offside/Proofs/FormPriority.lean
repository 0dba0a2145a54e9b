import Offside.Proofs.NonnegativeDepth
import Offside.Proofs.PrintedReading

namespace Offside

/-- What comes of trying a span for one form: nothing where the form does not fit. -/
def ConstructForm.attempt (r : Readers) (form : ConstructForm) (span : List Tree) :
    Outcome (Option Construct) :=
  match form.shape? span with
  | some shape => do
    let construct ← shape.read r
    return some construct
  | none => .ok none

/-- Whether a form takes a span for its own, for a composite expression or for an error. -/
def ConstructForm.Answers (form : ConstructForm) (span : List Tree) : Prop :=
  form.attempt readers span ≠ .ok none

theorem ConstructForm.answers_iff {form : ConstructForm} {span : List Tree} :
    form.Answers span ↔ (form.shape? span).isSome := by
  rw [Answers, attempt]
  cases form.shape? span with
  | none => simp
  | some shape =>
    dsimp only
    cases shape.read readers with
    | error d => exact iff_of_true nofun rfl
    | ok construct => exact iff_of_true nofun rfl

instance (form : ConstructForm) (span : List Tree) : Decidable (form.Answers span) :=
  decidable_of_iff _ ConstructForm.answers_iff.symm

section

variable {span : List Tree} {shape : Shape} {form : ConstructForm}

theorem isUndivided_of_kinds {kinds : List Kind} {depth : Depth} {tokens : List Token}
    (h : ∀ t ∈ tokens, t.kind ∉ kinds) : IsUndivided kinds depth (tokens.map .token) := by
  refine isUndivided_of_not_mem fun t ht => ?_
  obtain ⟨u, hu, he⟩ := List.mem_map.mp ht
  obtain rfl := Tree.token.inj he
  exact h u hu

/-- The forms that end in a bracket or an accessor hold what could divide them in brackets. -/
theorem isUndivided_of_shape? (hf : form ∈ [.call, .access, .chain, .dictionary])
    (h : form.shape? span = some shape) (hn : NeverNegative span) :
    IsUndivided [.operator, .assignment, .arrow] .top span := by
  have hnone : ∀ {t : Token} {kind : Kind} {depth : Depth}, t.kind = kind →
      kind ∉ [Kind.operator, .assignment, .arrow] →
        separator? [.operator, .assignment, .arrow] (.token t, depth) = none :=
    fun hk hkind => separator?_of_not_mem (hk ▸ hkind)
  simp only [List.mem_cons, List.not_mem_nil, or_false] at hf
  rcases hf with rfl | rfl | rfl | rfl
  · obtain ⟨callee, opener, arguments, closer, rfl, ho, hc, -, hsubject, -⟩ := call?_eq_some h
    refine isUndivided_append.mpr ⟨(canBeSubject_iff.mp hsubject).2, ?_⟩
    exact isUndivided_cons.mpr ⟨hnone ho (by decide), isUndivided_cons.mpr ⟨rfl,
      isUndivided_cons.mpr ⟨hnone hc (by decide), isUndivided_nil⟩⟩⟩
  · obtain ⟨subject, opener, key, closer, rfl, ho, hc, hcloses, -, hsubject, -⟩ := access?_eq_some h
    have hlevel := hn.foldl.2.1
    refine isUndivided_append.mpr ⟨(canBeSubject_iff.mp hsubject).2,
      isUndivided_cons.mpr ⟨hnone ho (by decide), isUndivided_append.mpr ⟨?_,
        isUndivided_cons.mpr ⟨hnone hc (by decide), isUndivided_nil⟩⟩⟩⟩
    refine hcloses.of_reverse.isUndivided counts_brackets ?_
    rw [counts_brackets.after]
    simp only [Tree.hasKind, ho]
    simp
    omega
  · obtain ⟨subject, dot, rest, accessors, hd, -, hsubject, names, -, -⟩ := chain?_eq_some h
    obtain ⟨rfl, -, hdot⟩ := divide?_eq_some_iff.mp hd
    have hdot := List.mem_singleton.mp (separator?_eq_some_iff.mp hdot).1
    obtain ⟨tokens, rfl, hkinds⟩ := tokens_of_accessors? names
    refine isUndivided_append.mpr ⟨(canBeSubject_iff.mp hsubject).2,
      isUndivided_cons.mpr ⟨hnone hdot (by decide), isUndivided_of_kinds fun t ht hm => ?_⟩⟩
    rcases hkinds t ht with hk | hk <;> simp [hk] at hm
    rcases hm with hm | hm | hm <;> simp [hm, Kind.isValue] at hk
  · obtain ⟨opener, entries, closer, rfl, ho, hc, hcloses, -⟩ := dictionary?_eq_some h
    refine isUndivided_cons.mpr ⟨hnone ho (by decide), isUndivided_append.mpr ⟨?_,
      isUndivided_cons.mpr ⟨hnone hc (by decide), isUndivided_nil⟩⟩⟩
    refine hcloses.isUndivided counts_braces ?_
    rw [counts_braces.after]
    simp [Tree.hasKind, ho, Depth.top]

/-- The form that a last token of a kind leaves possible besides those with a sign inside. -/
def Kind.formEnded? : Kind → Option ConstructForm
  | closeParen => some .call
  | closeBracket => some .access
  | closeCurly => some .dictionary
  | kind => if kind = dot ∨ kind.isValue then some .chain else none

theorem Kind.formEnded?_of_accessor {kind : Kind} (h : kind = dot ∨ kind.isValue = true) :
    kind.formEnded? = some .chain := by
  cases kind <;> first | rfl | simp [isValue] at h

theorem last_of_shape? (hf : form ∈ [.call, .access, .chain, .dictionary])
    (h : form.shape? span = some shape) :
    ∃ t : Token, span.getLast? = some (.token t) ∧ t.kind.formEnded? = some form := by
  simp only [List.mem_cons, List.not_mem_nil, or_false] at hf
  rcases hf with rfl | rfl | rfl | rfl
  · obtain ⟨callee, opener, arguments, closer, rfl, -, hc, -⟩ := call?_eq_some h
    exact ⟨closer, by simp, by rw [hc]; rfl⟩
  · obtain ⟨subject, opener, key, closer, rfl, -, hc, -⟩ := access?_eq_some h
    exact ⟨closer, by simp [List.getLast?_append, List.getLast?_cons], by rw [hc]; rfl⟩
  · obtain ⟨subject, dot, rest, accessors, hd, -, -, names, -⟩ := chain?_eq_some h
    obtain ⟨rfl, -, hdot⟩ := divide?_eq_some_iff.mp hd
    have hdot := List.mem_singleton.mp (separator?_eq_some_iff.mp hdot).1
    obtain ⟨tokens, rfl, hkinds⟩ := tokens_of_accessors? names
    obtain rfl | ⟨init, t, rfl⟩ := List.eq_nil_or_concat tokens
    · exact ⟨dot, List.getLast?_concat, Kind.formEnded?_of_accessor (.inl hdot)⟩
    · exact ⟨t, by simp [List.getLast?_cons], Kind.formEnded?_of_accessor (hkinds t (by simp))⟩
  · obtain ⟨opener, entries, closer, rfl, -, hc, -⟩ := dictionary?_eq_some h
    exact ⟨closer, by simp [List.getLast?_cons], by rw [hc]; rfl⟩

theorem ConstructForm.ends_or_divides
    (h : form ∈ [.call, .access, .chain, .dictionary, .operation, .assignment]) :
    form ∈ [.call, .access, .chain, .dictionary] ∨ form = .operation ∨ form = .assignment := by
  revert h
  cases form <;> decide

theorem divided_of_shape? (hf : form ∈ [.lambda, .operation, .assignment])
    (h : form.shape? span = some shape) :
    ¬IsUndivided [.operator, .assignment, .arrow] .top span := by
  intro hn
  have hnone : ∀ kinds ⊆ [Kind.operator, .assignment, .arrow], divide? kinds span = none :=
    fun kinds hs => divide?_eq_none_iff.mpr (hn.of_subset hs)
  simp only [List.mem_cons, List.not_mem_nil, or_false] at hf
  rcases hf with rfl | rfl | rfl
  · obtain ⟨head, arrow, body, parameters, hd, -⟩ := lambda?_eq_some h
    cases (hnone _ (by decide)).symm.trans hd
  · obtain ⟨left, t, right, hd, -⟩ := operation?_eq_some h
    cases (hnone _ (by decide)).symm.trans hd
  · obtain ⟨left, t, right, hd, -⟩ := assignment?_eq_some h
    cases (hnone _ (by decide)).symm.trans hd

theorem not_operation_and_assignment {other : Shape} (h : operation? span = some shape)
    (h' : assignment? span = some other) : False := by
  obtain ⟨left, t, right, hd, hk, -⟩ := operation?_eq_some h
  obtain ⟨left', t', right', hd', hk', -⟩ := assignment?_eq_some h'
  cases hd.symm.trans hd'
  cases hk.symm.trans hk'

/-- Only one of these forms takes a span. -/
theorem shape?_unique {f g : ConstructForm} {other : Shape}
    (hf : f ∈ [.call, .access, .chain, .dictionary, .operation, .assignment])
    (hg : g ∈ [.call, .access, .chain, .dictionary, .operation, .assignment])
    (h : f.shape? span = some shape) (h' : g.shape? span = some other) (hn : NeverNegative span) :
    f = g := by
  have hsign : ∀ {form : ConstructForm}, form = .operation ∨ form = .assignment →
      form ∈ [.lambda, .operation, .assignment] := by
    rintro form (rfl | rfl) <;> decide
  rcases ConstructForm.ends_or_divides hf with hf | hf <;>
    rcases ConstructForm.ends_or_divides hg with hg | hg
  · obtain ⟨t, ht, hfe⟩ := last_of_shape? hf h
    obtain ⟨u, hu, hge⟩ := last_of_shape? hg h'
    cases ht.symm.trans hu
    exact Option.some.inj (hfe.symm.trans hge)
  · exact absurd (isUndivided_of_shape? hf h hn) (divided_of_shape? (hsign hg) h')
  · exact absurd (isUndivided_of_shape? hg h' hn) (divided_of_shape? (hsign hf) h)
  · rcases hf with rfl | rfl <;> rcases hg with rfl | rfl
    · rfl
    · exact (not_operation_and_assignment h h').elim
    · exact (not_operation_and_assignment h' h).elim
    · rfl

end

section

variable {α : Type} {p : α → Bool} {x : α} {xs : List α}

/-- A search finds what stands before everything else that it could find. -/
theorem find?_eq_some_of_first (nodup : xs.Nodup) (hm : x ∈ xs) (hp : p x = true)
    (first : ∀ y ∈ xs, p y = true → y ≠ x → [x, y].Sublist xs) : xs.find? p = some x := by
  induction xs with
  | nil => cases hm
  | cons z xs ih =>
    obtain ⟨hz, nodup⟩ := List.nodup_cons.mp nodup
    by_cases hzx : z = x
    · rw [List.find?_cons_of_pos (hzx ▸ hp), hzx]
    · have behind : ∀ y, [x, y].Sublist (z :: xs) → [x, y].Sublist xs := by
        intro y hs
        cases hs with
        | cons _ hs => exact hs
        | cons_cons _ hs => exact absurd rfl hzx
      have hneg : ¬p z = true := by
        intro hpz
        have hs := behind z (first z List.mem_cons_self hpz hzx)
        exact hz (hs.subset (by simp))
      rw [List.find?_cons_of_neg hneg]
      refine ih nodup ((List.mem_cons.mp hm).resolve_left (Ne.symm hzx)) fun y hy hpy hyx => ?_
      exact behind y (first y (List.mem_cons_of_mem _ hy) hpy hyx)

theorem findSome?_eq_bind_find? {β : Type} (f : α → Option β) (xs : List α) :
    xs.findSome? f = (xs.find? fun x => (f x).isSome).bind f := by
  induction xs with
  | nil => rfl
  | cons x xs ih =>
    cases hx : f x with
    | none => rw [List.findSome?_cons, hx, List.find?_cons_of_neg (by simp [hx]), ih]
    | some y =>
      rw [List.findSome?_cons, hx, List.find?_cons_of_pos (by simp [hx]), Option.bind_some, hx]

end

section

variable {span : List Tree} {form other : ConstructForm}

theorem answers_unique (hn : NeverNegative span)
    (hf : form ∈ [.call, .access, .chain, .dictionary, .operation, .assignment])
    (ho : other ∈ [.call, .access, .chain, .dictionary, .operation, .assignment])
    (h : form.Answers span) (h' : other.Answers span) : form = other := by
  obtain ⟨shape, hshape⟩ := Option.isSome_iff_exists.mp (ConstructForm.answers_iff.mp h)
  obtain ⟨shape', hshape'⟩ := Option.isSome_iff_exists.mp (ConstructForm.answers_iff.mp h')
  exact shape?_unique hf ho hshape hshape' hn

theorem not_answers_of_lambda (hn : NeverNegative span) (h : ConstructForm.lambda.Answers span)
    (hf : form ∈ [.call, .access, .chain, .dictionary]) : ¬form.Answers span := by
  intro h'
  obtain ⟨shape, hshape⟩ := Option.isSome_iff_exists.mp (ConstructForm.answers_iff.mp h)
  obtain ⟨shape', hshape'⟩ := Option.isSome_iff_exists.mp (ConstructForm.answers_iff.mp h')
  exact divided_of_shape? (by decide) hshape (isUndivided_of_shape? hf hshape' hn)

theorem not_answers_returning (h : ∀ tree ∈ span.head?, tree.hasKind .returnWord = false) :
    ¬ConstructForm.returning.Answers span := by
  intro hr
  obtain ⟨shape, hshape⟩ := Option.isSome_iff_exists.mp (ConstructForm.answers_iff.mp hr)
  obtain ⟨keyword, value, rfl, hk, -⟩ := returning?_eq_some hshape
  simpa [Tree.hasKind, hk] using h _ rfl

theorem ConstructForm.cases_lambda (form : ConstructForm) : form = .returning ∨ form = .lambda ∨
    form ∈ [.call, .access, .chain, .dictionary, .operation, .assignment] := by
  cases form <;> decide

variable {order : List ConstructForm}

/-- The form that is found does not depend on the rest of an order in which lambdas come before
operations and assignments. -/
theorem find?_answers_eq_some_iff (hn : NeverNegative span)
    (hreturn : ∀ tree ∈ span.head?, tree.hasKind .returnWord = false)
    (hperm : order.Perm ConstructForm.inOrder)
    (hoperation : [.lambda, .operation].Sublist order)
    (hassignment : [.lambda, .assignment].Sublist order) :
    order.find? (·.Answers span) = some form ↔
      form.Answers span ∧ (ConstructForm.lambda.Answers span → form = .lambda) := by
  have hnodup : order.Nodup := hperm.nodup_iff.mpr (by decide)
  have hmem : ∀ form, form ∈ order := by
    intro form
    refine hperm.mem_iff.mpr ?_
    cases form <;> decide
  have hfound : ∀ form : ConstructForm, form.Answers span →
      (ConstructForm.lambda.Answers span → form = .lambda) →
        order.find? (·.Answers span) = some form := by
    intro form hform hlambda
    refine find?_eq_some_of_first hnodup (hmem form) (by simpa using hform) fun other _ ho hne => ?_
    have ho : other.Answers span := by simpa using ho
    obtain rfl | rfl | hsix := other.cases_lambda
    · exact absurd ho (not_answers_returning hreturn)
    · exact absurd (hlambda ho).symm hne
    · obtain rfl | rfl | hsix' := form.cases_lambda
      · exact absurd hform (not_answers_returning hreturn)
      · obtain hf | rfl | rfl := ConstructForm.ends_or_divides hsix
        · exact absurd ho (not_answers_of_lambda hn hform hf)
        · exact hoperation
        · exact hassignment
      · exact absurd (answers_unique hn hsix hsix' ho hform) hne
  constructor
  · intro h
    refine ⟨by simpa using List.find?_some h, fun hlambda => ?_⟩
    exact Option.some.inj (h.symm.trans (hfound .lambda hlambda fun _ => rfl))
  · rintro ⟨hform, hlambda⟩
    exact hfound form hform hlambda

/-- The order of the forms matters between lambdas on the one side and operations and assignments on
the other, and for `return`: besides these no two forms take the same span. -/
theorem forms_overlap_by_priority (hn : NeverNegative span) :
    (∀ f ∈ [ConstructForm.call, .access, .chain, .dictionary, .operation, .assignment],
      ∀ g ∈ [ConstructForm.call, .access, .chain, .dictionary, .operation, .assignment],
        f.Answers span → g.Answers span → f = g) ∧
    (ConstructForm.lambda.Answers span →
      ∀ f ∈ [ConstructForm.call, .access, .chain, .dictionary], ¬f.Answers span) ∧
    ((∀ tree ∈ span.head?, tree.hasKind .returnWord = false) →
      ∀ order : List ConstructForm, order.Perm ConstructForm.inOrder →
        [.lambda, .operation].Sublist order → [.lambda, .assignment].Sublist order →
          order.find? (·.Answers span) = ConstructForm.inOrder.find? (·.Answers span) ∧
            order.findSome? (·.shape? span) = shape? span) := by
  refine ⟨fun f hf g hg h h' => answers_unique hn hf hg h h',
    fun h f hf => not_answers_of_lambda hn h hf, fun hreturn order hperm hoperation hassignment => ?_⟩
  have hfind : order.find? (·.Answers span) = ConstructForm.inOrder.find? (·.Answers span) := by
    refine Option.ext fun form => ?_
    rw [find?_answers_eq_some_iff hn hreturn hperm hoperation hassignment,
      find?_answers_eq_some_iff hn hreturn (.refl _) (by decide) (by decide)]
  refine ⟨hfind, ?_⟩
  simp only [ConstructForm.answers_iff, Bool.decide_eq_true] at hfind
  rw [shape?, findSome?_eq_bind_find?, findSome?_eq_bind_find?, hfind]

/-- The span `x => a + b` is a lambda and an operation, and is taken for a lambda by every order that
has lambdas in front. -/
theorem forms_overlap_by_priority_in_lambda :
    let word (kind : Kind) (text : String) : Tree := .token ⟨kind, text, default⟩
    let span : List Tree := [word .name "x", word .arrow "=>", word .name "a", word .operator "+",
      word .name "b"]
    let order : List ConstructForm :=
      [.dictionary, .lambda, .assignment, .operation, .chain, .access, .call, .returning]
    NeverNegative span ∧ order.Perm ConstructForm.inOrder ∧
      ConstructForm.lambda.Answers span ∧ ConstructForm.operation.Answers span ∧
      (∀ f ∈ [ConstructForm.call, .access, .chain, .dictionary], ¬f.Answers span) ∧
      order.find? (·.Answers span) = ConstructForm.inOrder.find? (·.Answers span) := by
  intro word span order
  have hn : NeverNegative span := by decide
  have hlambda : ConstructForm.lambda.Answers span := ConstructForm.answers_iff.mpr (by decide)
  have hoperation : ConstructForm.operation.Answers span := ConstructForm.answers_iff.mpr (by decide)
  have hperm : order.Perm ConstructForm.inOrder := by decide
  obtain ⟨-, hothers, horder⟩ := forms_overlap_by_priority hn
  exact ⟨hn, hperm, hlambda, hoperation, hothers hlambda,
    (horder (by decide) order hperm (by decide) (by decide)).1⟩

end

end Offside
