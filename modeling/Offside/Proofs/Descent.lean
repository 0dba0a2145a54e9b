import Offside.Proofs.ShapeInversion
import Offside.Reading

namespace Offside

theorem leafCount_append (xs ys : List Tree) :
    leafCount (xs ++ ys) = leafCount xs + leafCount ys := by
  rw [leafCount, leaves_append, List.length_append]
  rfl

theorem leafCount_cons (tree : Tree) (span : List Tree) :
    leafCount (tree :: span) = tree.leaves.length + leafCount span := by
  rw [leafCount, leaves, List.length_append]
  rfl

theorem leafCount_token_cons (t : Token) (span : List Tree) :
    leafCount (.token t :: span) = leafCount span + 1 := by
  rw [leafCount_cons, Nat.add_comm]
  rfl

theorem leafCount_group_cons (items span : List Tree) :
    leafCount (.group items :: span) = leafCount items + leafCount span := by
  rw [leafCount_cons]
  rfl

theorem leafCount_le_of_sublist {xs ys : List Tree} (h : xs.Sublist ys) :
    leafCount xs ≤ leafCount ys :=
  (leaves_sublist h).length_le

theorem kind_of_separator? {kinds : List Kind} {item : Tree × Depth} {t : Token}
    (h : separator? kinds item = some t) : t.kind ∈ kinds ∧ item.2 = .top := by
  obtain ⟨tree, depth⟩ := item
  cases tree with
  | group items => cases h
  | token u =>
    rw [separator?] at h
    split at h
    next hk =>
      obtain rfl := Option.some.inj h
      simpa [Token.hasKindIn] using hk
    next => cases h

theorem kind_of_mem_cut {kinds : List Kind} {span : List Tree} {c : Token × List Tree}
    (h : c ∈ (cut kinds span).2) : c.1.kind ∈ kinds := by
  obtain ⟨item, -, hs⟩ := List.mem_filterMap.mp (separator_of_mem_cut h)
  exact (kind_of_separator? hs).1

/-- How a shape takes a span apart. -/
inductive Shape.Divides : Shape → List Tree → Prop where
  | returning {keyword : Tree} {value : List Tree} (word : keyword.hasKind .returnWord = true) :
    Divides (.returning keyword value) (keyword :: value)
  | call {callee arguments : List Tree} {opener closer : Tree}
    (opens : opener.hasKind .openParen = true) (closes : closer.hasKind .closeParen = true) :
    Divides (.call callee opener arguments) (callee ++ [opener, .group arguments, closer])
  | access {subject key : List Tree} {opener closer : Tree}
    (opens : opener.hasKind .openBracket = true) (closes : closer.hasKind .closeBracket = true) :
    Divides (.access subject opener key) (subject ++ opener :: (key ++ [closer]))
  | chain {subject rest : List Tree} {dot : Token} {accessors : List Token}
    (names : accessors? rest = some accessors) (isDot : dot.kind = .dot) :
    Divides (.chain subject accessors) (subject ++ .token dot :: rest)
  | lambda {head body : List Tree} {arrow : Token} {parameters : List String}
    (names : parameters? head = some parameters) (isArrow : arrow.kind = .arrow) :
    Divides (.lambda parameters arrow body) (head ++ .token arrow :: body)
  | dictionary {entries : List Tree} {opener closer : Tree}
    (opens : opener.hasKind .openCurly = true) (closes : closer.hasKind .closeCurly = true) :
    Divides (.dictionary opener entries) (opener :: (entries ++ [closer]))
  | operation {span left right : List Tree} {t : Token}
    (first : divide? [.operator, .assignment] span = some (left, t, right))
    (operator : t.kind = .operator) : Divides (.operation span) span
  | assignment {left right : List Tree} {t : Token} (sign : t.kind = .assignment) :
    Divides (.assignment left t right) (left ++ .token t :: right)

section

variable {span : List Tree} {shape : Shape}

theorem ConstructForm.divides {form : ConstructForm} (h : form.shape? span = some shape) :
    shape.Divides span := by
  have hkind : ∀ {t : Token} {kind : Kind}, t.kind = kind → Tree.hasKind kind (.token t) = true :=
    fun hk => beq_iff_eq.mpr hk
  cases form with
  | returning =>
    obtain ⟨keyword, value, rfl, hk, rfl⟩ := returning?_eq_some h
    exact .returning (hkind hk)
  | call =>
    obtain ⟨callee, opener, arguments, closer, rfl, ho, hc, -, -, rfl⟩ := call?_eq_some h
    exact .call (hkind ho) (hkind hc)
  | access =>
    obtain ⟨subject, opener, key, closer, rfl, ho, hc, -, -, -, rfl⟩ := access?_eq_some h
    exact .access (hkind ho) (hkind hc)
  | chain =>
    obtain ⟨subject, dot, rest, accessors, hd, -, -, ha, -, rfl⟩ := chain?_eq_some h
    obtain ⟨rfl, -, ht⟩ := divide?_eq_some_iff.mp hd
    exact .chain ha (List.mem_singleton.mp (kind_of_separator? ht).1)
  | lambda =>
    obtain ⟨head, arrow, body, parameters, hd, hp, rfl⟩ := lambda?_eq_some h
    obtain ⟨rfl, -, ht⟩ := divide?_eq_some_iff.mp hd
    exact .lambda hp (List.mem_singleton.mp (kind_of_separator? ht).1)
  | dictionary =>
    obtain ⟨opener, entries, closer, rfl, ho, hc, -, rfl⟩ := dictionary?_eq_some h
    exact .dictionary (hkind ho) (hkind hc)
  | operation =>
    obtain ⟨left, t, right, hd, hk, rfl⟩ := operation?_eq_some h
    exact .operation hd hk
  | assignment =>
    obtain ⟨left, t, right, hd, hk, rfl⟩ := assignment?_eq_some h
    obtain rfl := eq_of_divide? hd
    exact .assignment hk

theorem divides_of_shape? (h : shape? span = some shape) : shape.Divides span := by
  obtain ⟨form, -, hf⟩ := List.exists_of_findSome?_eq_some h
  exact form.divides hf

end

/-- Whether what a shape is read from comes from some tokens in their order. -/
def Shape.DrawnFrom (tokens : List Token) : Shape → Prop
  | returning _ value => (leaves value).Sublist tokens
  | call callee _ arguments => (leaves callee).Sublist tokens ∧ (leaves arguments).Sublist tokens
  | access subject _ key => (leaves subject).Sublist tokens ∧ (leaves key).Sublist tokens
  | chain subject accessors => (leaves subject).Sublist tokens ∧ ∀ t ∈ accessors, t ∈ tokens
  | lambda _ _ body => (leaves body).Sublist tokens
  | dictionary opener entries =>
    opener.start ∈ tokens.map (·.span.start) ∧ (leaves entries).Sublist tokens
  | operation span => (leaves span).Sublist tokens
  | assignment left t right =>
    (leaves left).Sublist tokens ∧ t ∈ tokens ∧ (leaves right).Sublist tokens

theorem Shape.Divides.drawnFrom {span : List Tree} {shape : Shape} (h : shape.Divides span) :
    shape.DrawnFrom (leaves span) := by
  cases h with
  | returning word => exact List.sublist_append_right _ _
  | @call callee arguments opener closer opens closes =>
    rw [leaves_append]
    have harguments : (leaves arguments).Sublist (leaves [opener, .group arguments, closer]) :=
      (List.sublist_append_left _ _).trans (List.sublist_append_right _ _)
    exact ⟨List.sublist_append_left _ _, harguments.trans (List.sublist_append_right _ _)⟩
  | access opens closes =>
    exact ⟨leaves_sublist (List.sublist_append_left _ _),
      leaves_sublist ((List.sublist_append_left _ _).trans (sublist_behind _ _ _))⟩
  | chain names isDot =>
    refine ⟨leaves_sublist (List.sublist_append_left _ _), fun t ht => ?_⟩
    have hm := mem_of_accessors? names t ht
    exact mem_leaves_of_token_mem (List.mem_append_right _ (List.mem_cons_of_mem _ hm))
  | lambda names isArrow => exact leaves_sublist (sublist_behind _ _ _)
  | dictionary opens closes =>
    obtain ⟨t, rfl, -⟩ := token_of_hasKind opens
    exact ⟨List.mem_cons_self, leaves_sublist ((List.sublist_append_left _ _).cons _)⟩
  | operation first operator => exact .refl _
  | assignment sign =>
    refine ⟨leaves_sublist (List.sublist_append_left _ _), ?_, leaves_sublist (sublist_behind _ _ _)⟩
    exact mem_leaves_of_token_mem (List.mem_append_right _ List.mem_cons_self)

theorem drawnFrom_of_shape? {span : List Tree} {shape : Shape} (h : shape? span = some shape) :
    shape.DrawnFrom (leaves span) :=
  (divides_of_shape? h).drawnFrom

/-- Whether two ways of reading agree on all spans of fewer tokens than a bound. -/
structure Readers.AgreeBelow (r r' : Readers) (bound : Nat) : Prop where
  value : ∀ part, leafCount part < bound → r.value part = r'.value part
  block : ∀ part, leafCount part < bound → r.block part = r'.block part

/-- Whether everything that a shape is read from has fewer tokens than a bound. -/
def Shape.IsBelow (bound : Nat) : Shape → Prop
  | returning _ value => leafCount value < bound
  | call callee _ arguments => leafCount callee < bound ∧ leafCount arguments < bound
  | access subject _ key => leafCount subject < bound ∧ leafCount key < bound
  | chain subject _ => leafCount subject < bound
  | lambda _ _ body => leafCount body < bound
  | dictionary _ entries => leafCount entries < bound
  | operation span =>
    leafCount (cut [.operator] span).1 < bound ∧
      ∀ c ∈ (cut [.operator] span).2, leafCount c.2 < bound
  | assignment left _ right => leafCount left < bound ∧ leafCount right < bound

theorem leafCount_sections {kinds : List Kind} (items : List (Tree × Depth)) :
    leafCount ((sections (separator? kinds) items).1.map Prod.fst) +
        (sections (separator? kinds) items).2.length ≤ leafCount (items.map Prod.fst) ∧
      ∀ c ∈ (sections (separator? kinds) items).2,
        leafCount (c.2.map Prod.fst) < leafCount (items.map Prod.fst) := by
  induction items with
  | nil => exact ⟨Nat.le_refl _, fun c hc => by cases hc⟩
  | cons item items ih =>
    obtain ⟨ihf, iho⟩ := ih
    rw [List.map_cons, leafCount_cons]
    cases hs : separator? kinds item with
    | some t =>
      have hone : item.1.leaves.length = 1 := by
        rw [token_of_separator? hs]
        rfl
      simp only [sections, hs, List.map_nil, List.length_cons, List.mem_cons]
      refine ⟨?_, ?_⟩
      · show 0 + _ ≤ _
        omega
      · rintro c (rfl | hc)
        · dsimp only
          omega
        · have := iho c hc
          omega
    | none =>
      simp only [sections, hs, List.map_cons, leafCount_cons]
      refine ⟨by omega, ?_⟩
      intro c hc
      have := iho c hc
      omega

/-- Parts between separators are shorter than the span, once there is a separator. -/
theorem leafCount_cut_lt {kinds : List Kind} {span : List Tree} (h : (cut kinds span).2 ≠ []) :
    leafCount (cut kinds span).1 < leafCount span ∧
      ∀ c ∈ (cut kinds span).2, leafCount c.2 < leafCount span := by
  have hs := @leafCount_sections kinds (depths .top span)
  rw [map_fst_depths] at hs
  have hpos : 0 < (sections (separator? kinds) (depths .top span)).2.length := by
    apply List.length_pos_iff.mpr
    intro he
    exact h (List.map_eq_nil_iff.mpr he)
  refine ⟨?_, ?_⟩
  · show leafCount ((sections (separator? kinds) (depths .top span)).1.map Prod.fst) < _
    omega
  · intro c hc
    obtain ⟨d, hd, rfl⟩ := List.mem_map.mp hc
    exact hs.2 d hd

theorem sections_snd_ne_nil {kinds : List Kind} {items : List (Tree × Depth)}
    (h : ∃ item ∈ items, ∃ t, separator? kinds item = some t) :
    (sections (separator? kinds) items).2 ≠ [] := by
  induction items with
  | nil =>
    obtain ⟨item, hm, -⟩ := h
    cases hm
  | cons first items ih =>
    obtain ⟨item, hm, t, ht⟩ := h
    cases hs : separator? kinds first with
    | some u => simp [sections, hs]
    | none =>
      rcases List.mem_cons.mp hm with rfl | hm
      · cases hs.symm.trans ht
      · simpa [sections, hs] using ih ⟨item, hm, t, ht⟩

theorem cut_snd_ne_nil {kinds : List Kind} {span : List Tree}
    (h : ∃ item ∈ depths .top span, ∃ t, separator? kinds item = some t) :
    (cut kinds span).2 ≠ [] :=
  fun he => sections_snd_ne_nil h (List.map_eq_nil_iff.mp he)

theorem Shape.Divides.isBelow {span : List Tree} {shape : Shape} (h : shape.Divides span) :
    shape.IsBelow (leafCount span) := by
  have one : ∀ {kind : Kind} {tree : Tree}, tree.hasKind kind = true → tree.leaves.length = 1 := by
    intro kind tree hk
    obtain ⟨t, rfl, _⟩ := token_of_hasKind hk
    rfl
  cases h with
  | returning word =>
    rw [leafCount_cons, one word]
    exact Nat.lt_add_of_pos_left Nat.one_pos
  | call opens closes =>
    have hc := one closes
    have ho := one opens
    simp only [leafCount_append, leafCount_cons, Shape.IsBelow]
    refine ⟨by omega, ?_⟩
    show _ < _ + (_ + (leafCount _ + _))
    omega
  | access opens closes =>
    have hc := one closes
    simp only [leafCount_append, leafCount_cons, Shape.IsBelow]
    omega
  | chain names =>
    simp only [leafCount_append, leafCount_token_cons, Shape.IsBelow]
    omega
  | lambda names =>
    simp only [leafCount_append, leafCount_token_cons, Shape.IsBelow]
    omega
  | dictionary opens closes =>
    have hc := one closes
    simp only [leafCount_append, leafCount_cons, Shape.IsBelow]
    omega
  | @operation span left right t first operator =>
    apply leafCount_cut_lt
    -- the operator that the span is divided at is a separator of the operands too
    obtain ⟨rfl, -, hs⟩ := divide?_eq_some_iff.mp first
    have htop := (kind_of_separator? hs).2
    apply cut_snd_ne_nil
    rw [depths_append, depths]
    exact ⟨_, List.mem_append_right _ List.mem_cons_self, t,
      separator?_eq_some_iff.mpr ⟨List.mem_singleton.mpr operator, htop⟩⟩
  | assignment sign =>
    simp only [leafCount_append, leafCount_token_cons, Shape.IsBelow]
    omega

end Offside
