import Offside.Proofs.Labels
import Offside.Proofs.WellBracketed

namespace Offside

/-- Tokens that are read as a value. Their brackets close each other, and none begins a block. -/
structure Passage where
  tokens : List Token
  value : Value
  bracketed : IsWellBracketed (tokens.map .token)
  blockFree : ∀ t ∈ tokens, BlockForm.introducedBy? t = none
  reads : readValue (tokens.map .token) = .ok value

/-- A value between commas. -/
structure PlainArgument extends Passage where
  undivided : topIndex? [.comma] (tokens.map .token) = none

/-- Values with commas between them. -/
structure ArgumentList where
  first : PlainArgument
  others : List (Mark .comma × PlainArgument)

namespace ArgumentList

def all (arguments : ArgumentList) : List PlainArgument :=
  arguments.first :: arguments.others.map (·.2)

def tokens (arguments : ArgumentList) : List Token :=
  arguments.first.tokens ++ arguments.others.flatMap fun other => other.1.token :: other.2.tokens

end ArgumentList

/-- What can stand behind a value: arguments in parentheses, or a key in square brackets. -/
inductive Suffix where
  | call (opener : Mark .openParen) (arguments : Option ArgumentList) (closer : Mark .closeParen)
  | access (opener : Mark .openBracket) (key : Passage) (closer : Mark .closeBracket)

/-- A value behind a dot. -/
structure Accessor where
  dot : Mark .dot
  token : Token
  isValue : token.kind.isValue = true

/-- Arguments without labels, each with its position for its name. -/
def positional (arguments : List PlainArgument) : List (String × Value) :=
  arguments.zipIdx.map fun (a, i) => (toString i, a.value)

namespace Suffix

def tokens : Suffix → List Token
  | call opener arguments closer =>
    opener.token :: ((arguments.map ArgumentList.tokens).getD [] ++ [closer.token])
  | access opener key closer => opener.token :: (key.tokens ++ [closer.token])

/-- The arguments of a call, none if nothing stands between the parentheses. -/
def listed (arguments : Option ArgumentList) : List PlainArgument :=
  (arguments.map ArgumentList.all).getD []

def construct (v : Value) : Suffix → Construct
  | call _ arguments _ => .call v (positional (listed arguments))
  | access _ key _ => .access v key.value

/-- A value with a suffix behind it. -/
def attach (v : Value) (suffix : Suffix) : Value :=
  .construct (suffix.construct v)

end Suffix

def Accessor.tokens (accessor : Accessor) : List Token :=
  [accessor.dot.token, accessor.token]

/-- Some tokens without their line breaks. -/
def onOneLine (tokens : List Token) : List Token :=
  tokens.filter (·.kind != .newline)

section

variable {xs ys : List Token} {t : Token}

theorem onOneLine_append (xs ys : List Token) :
    onOneLine (xs ++ ys) = onOneLine xs ++ onOneLine ys :=
  List.filter_append ..

theorem onOneLine_cons (h : t.kind ≠ .newline) (xs : List Token) :
    onOneLine (t :: xs) = t :: onOneLine xs :=
  List.filter_cons_of_pos (by simpa using h)

theorem map_onOneLine (xs : List Token) :
    (onOneLine xs).map Tree.token = joinLines (xs.map .token) := by
  rw [onOneLine, joinLines, List.filter_map]
  congr 1

end

namespace Passage

variable (p : Passage)

/-- A passage with its parentheses grouped. -/
def trees : List Tree :=
  regroup ((onOneLine p.tokens).map .token)

theorem isFlat : IsFlat ((onOneLine p.tokens).map .token) := by
  intro tree hm
  obtain ⟨t, ht, rfl⟩ := List.mem_map.mp hm
  obtain ⟨hmem, hk⟩ := List.mem_filter.mp ht
  exact ⟨t, rfl, by simpa using hk, p.blockFree t hmem⟩

theorem bracketed_onOneLine : IsWellBracketed ((onOneLine p.tokens).map .token) := by
  rw [map_onOneLine]
  exact p.bracketed.joinLines

theorem groups : Groups (onOneLine p.tokens) p.trees :=
  p.bracketed_onOneLine.groups p.isFlat

theorem bracketed_trees : IsWellBracketed p.trees :=
  (p.bracketed_onOneLine.regroup p.isFlat).2.1

theorem readsAs : ReadsAs (onOneLine p.tokens) p.value := by
  have hread : readValue ((onOneLine p.tokens).map .token) = .ok p.value := by
    rw [map_onOneLine, readValue_joinLines, p.reads]
  have hne : onOneLine p.tokens ≠ [] := by
    intro he
    rw [he] at hread
    cases hread
  rw [p.isFlat.readValue_eq (mt List.map_eq_nil_iff.mp hne)] at hread
  exact ⟨p.groups, hne, hread⟩

theorem trees_ne_nil : p.trees ≠ [] := by
  intro he
  have hread := p.readsAs.reads
  rw [← trees, he] at hread
  cases hread

theorem valueAt_trees (place : Position) : readers.valueAt p.trees place = .ok p.value :=
  Readers.valueAt_of_ok p.readsAs.reads place

end Passage

namespace PlainArgument

variable (a : PlainArgument)

theorem undivided_trees : IsUndivided [.comma] .top a.trees := by
  have hu := (topIndex?_eq_none_iff.mp a.undivided).joinLines
  rw [← map_onOneLine] at hu
  exact (a.bracketed_onOneLine.regroup a.isFlat).2.2 hu

theorem labelled?_trees : labelled? a.trees = none := by
  refine Option.eq_none_iff_forall_ne_some.mpr ?_
  rintro ⟨t, rest⟩ h
  obtain ⟨colon, hspan, hc⟩ := eq_of_labelled? h
  have hn : t.kind = .name := by
    rw [labelled?.eq_def, hspan] at h
    obtain ⟨u, hu, h⟩ := Option.bind_eq_some_iff.mp h
    split at h
    next =>
      obtain ⟨rfl, -⟩ := Prod.mk.inj (Option.some.inj h)
      exact kind_of_name? hu
    next => cases h
  have hread := a.readsAs.reads
  exact readValue_refuses_label hn hc rest a.value (hspan ▸ hread)

theorem readArgument_trees (opener : Position) (i : Nat) :
    readArgument readers opener a.trees i = .ok (toString i, a.value) := by
  rw [readArgument, a.labelled?_trees]
  show (readers.valueAt a.trees opener >>= fun value => pure (toString i, value)) = _
  rw [a.valueAt_trees]
  rfl

end PlainArgument

namespace ArgumentList

variable (arguments : ArgumentList)

def trees : List Tree :=
  arguments.first.trees ++ arguments.others.flatMap fun other =>
    .token other.1.token :: other.2.trees

theorem groups : Groups (onOneLine arguments.tokens) arguments.trees := by
  obtain ⟨first, others⟩ := arguments
  have hothers : Groups (onOneLine (others.flatMap fun other => other.1.token :: other.2.tokens))
      (others.flatMap fun other => .token other.1.token :: other.2.trees) := by
    induction others with
    | nil => exact groups_nil
    | cons other others ih =>
      obtain ⟨comma, a⟩ := other
      rw [List.flatMap_cons, List.flatMap_cons, onOneLine_append,
        onOneLine_cons (by simp [comma.isKind])]
      exact (a.groups.cons (by simp [comma.isKind, Kind.isInert])).append ih
  rw [tokens, onOneLine_append]
  exact first.groups.append hothers

theorem split_trees : split [.comma] false arguments.trees = arguments.all.map (·.trees) := by
  obtain ⟨first, others⟩ := arguments
  have hne : trees ⟨first, others⟩ ≠ [] := List.append_ne_nil_of_left_ne_nil first.trees_ne_nil _
  have hpart : ∀ a : PlainArgument, IsBalanced a.trees ∧ IsUndivided [.comma] .top a.trees :=
    fun a => ⟨a.bracketed_trees.isBalanced, a.undivided_trees⟩
  have hcommas := @partsBetween_commas first.trees
    (others.map fun other => (other.1.token, other.2.trees)) (hpart first) <|
      List.forall_mem_map.mpr fun other _ => ⟨other.1.isKind, hpart other.2⟩
  rw [List.flatMap_map, List.map_map] at hcommas
  rw [split_of_ne_nil hne, ← partsBetween, trees, hcommas, all, List.map_cons, List.map_map]
  rfl

end ArgumentList

theorem mapM_readArgument (opener : Position) (arguments : List PlainArgument) :
    (arguments.map (·.trees)).zipIdx.mapM (fun (part, i) => readArgument readers opener part i) =
      .ok (positional arguments) := by
  rw [List.zipIdx_map, List.mapM_map]
  have hread : ∀ entry ∈ arguments.zipIdx,
      ((fun (part, i) => readArgument readers opener part i) ∘ Prod.map (·.trees) id) entry =
        pure (toString entry.2, entry.1.value) :=
    fun entry _ => entry.1.readArgument_trees opener entry.2
  rw [mapM_congr hread, List.mapM_pure]
  rfl

/-- Positions are pairwise different names. -/
theorem collect_positional (arguments : List PlainArgument) :
    collect (· == ·) (positional arguments) = positional arguments := by
  refine collect_of_distinct (List.pairwise_map.mpr ?_)
  have hdistinct := List.pairwise_map.mp (List.nodup_zipIdx_map_snd arguments)
  refine hdistinct.imp fun {entry entry'} hne => ?_
  exact beq_eq_false_iff_ne.mpr fun he => hne (Nat.repr_inj.mp he)

namespace Suffix

variable (suffix : Suffix)

def trees : Suffix → List Tree
  | call opener arguments closer =>
    [.token opener.token, .group ((arguments.map ArgumentList.trees).getD []), .token closer.token]
  | access opener key closer => .token opener.token :: (key.trees ++ [.token closer.token])

/-- A span with a suffix behind it, taken apart. -/
def shape (subject : List Tree) : Suffix → Shape
  | call opener arguments _ =>
    .call subject (.token opener.token) ((arguments.map ArgumentList.trees).getD [])
  | access opener key _ => .access subject (.token opener.token) key.trees

theorem groups : Groups (onOneLine suffix.tokens) suffix.trees := by
  cases suffix with
  | call opener arguments closer =>
    have harguments : Groups (onOneLine ((arguments.map ArgumentList.tokens).getD []))
        ((arguments.map ArgumentList.trees).getD []) := by
      cases arguments with
      | none => exact groups_nil
      | some arguments => exact arguments.groups
    rw [tokens, onOneLine_cons (by simp [opener.isKind]), onOneLine_append,
      onOneLine_cons (by simp [closer.isKind])]
    exact harguments.inParens opener.isKind closer.isKind
  | access opener key closer =>
    rw [tokens, onOneLine_cons (by simp [opener.isKind]), onOneLine_append,
      onOneLine_cons (by simp [closer.isKind])]
    have hcloser : Groups [closer.token] [.token closer.token] :=
      groups_nil.cons (by simp [closer.isKind, Kind.isInert])
    exact (key.groups.append hcloser).cons (by simp [opener.isKind, Kind.isInert])

/-- A suffix is a pair of brackets around what they close. -/
theorem exists_pair : ∃ (opener closer : Token) (inside : List Tree),
    opener.kind.closer? = some closer.kind ∧ IsWellBracketed inside ∧
      suffix.trees = .token opener :: (inside ++ [.token closer]) := by
  cases suffix with
  | call opener arguments closer =>
    exact ⟨_, _, _, by simp [opener.isKind, closer.isKind, Kind.closer?], .item rfl .nil, rfl⟩
  | access opener key closer =>
    exact ⟨_, _, _, by simp [opener.isKind, closer.isKind, Kind.closer?], key.bracketed_trees, rfl⟩

theorem isBalanced : IsBalanced suffix.trees := by
  obtain ⟨opener, closer, inside, closes, hinside, htrees⟩ := suffix.exists_pair
  rw [htrees]
  exact (IsWellBracketed.pair closes hinside .nil).isBalanced

theorem isUndivided {kinds : List Kind} (outside : ∀ kind ∈ kinds, kind.isBracket = false) :
    IsUndivided kinds .top suffix.trees := by
  obtain ⟨opener, closer, inside, closes, hinside, htrees⟩ := suffix.exists_pair
  have hbracket := Kind.closer?_isBracket closes
  have hnone : ∀ (t : Token) (depth : Depth), t.kind.isBracket = true →
      separator? kinds (.token t, depth) = none := by
    intro t depth ht
    refine separator?_of_not_mem fun hm => ?_
    rw [outside _ hm] at ht
    cases ht
  have hdepth : Depth.IsInside (Depth.top.after (.token opener)) :=
    Depth.IsNonneg.after_opener ⟨by decide, by decide, by decide⟩ closes
  rw [htrees, isUndivided_cons, isUndivided_append, hinside.foldl, isUndivided_cons]
  exact ⟨hnone _ _ hbracket.1, hinside.isUndivided hdepth, hnone _ _ hbracket.2, isUndivided_nil⟩

theorem trees_ne_nil : suffix.trees ≠ [] := by
  obtain ⟨opener, closer, inside, -, -, htrees⟩ := suffix.exists_pair
  rw [htrees]
  exact List.cons_ne_nil _ _

/-- A subject with a suffix is taken apart where the suffix begins. -/
theorem shape?_append {subject : List Tree} (hreturn : returning? (subject ++ suffix.trees) = none)
    (harrow : hasArrow (subject ++ suffix.trees) = false) (hsubject : canBeSubject subject = true) :
    shape? (subject ++ suffix.trees) = some (suffix.shape subject) := by
  cases suffix with
  | call opener arguments closer =>
    have hcall : call? (subject ++ trees (.call opener arguments closer)) =
        some (shape subject (.call opener arguments closer)) := by
      rw [trees] at harrow ⊢
      rw [call?_append opener.isKind closer.isKind, harrow, hsubject]
      rfl
    simp only [shape?, ConstructForm.inOrder, ConstructForm.shape?, List.findSome?_cons, hreturn,
      hcall]
  | access opener key closer =>
    have hcall : call? (subject ++ trees (.access opener key closer)) = none := by
      refine call?_eq_none fun last hm => ?_
      rw [trees, ← List.cons_append, ← List.append_assoc, List.getLast?_concat] at hm
      obtain rfl := Option.some.inj hm
      simp [Tree.hasKind, closer.isKind]
    have haccess : access? (subject ++ trees (.access opener key closer)) =
        some (shape subject (.access opener key closer)) := by
      rw [trees] at harrow ⊢
      rw [access?, key.bracketed_trees.openOfLast?_eq opener.isKind closer.isKind]
      simp [harrow, hsubject, shape]
    simp only [shape?, ConstructForm.inOrder, ConstructForm.shape?, List.findSome?_cons, hreturn,
      hcall, haccess]

theorem read_shape {subject : List Tree} {v : Value} (h : readValue subject = .ok v) :
    (suffix.shape subject).read readers = .ok (suffix.construct v) := by
  cases suffix with
  | call opener arguments closer =>
    have hread : readListed (readArgument readers opener.token.span.start)
        ((arguments.map ArgumentList.trees).getD []) = .ok (positional (listed arguments)) := by
      cases arguments with
      | none => rfl
      | some arguments =>
        show readListed _ arguments.trees = _
        rw [readListed, arguments.split_trees]
        exact mapM_readArgument _ arguments.all
    show (readListed (readArgument readers opener.token.span.start) _ >>= fun arguments =>
      readValue subject >>= fun value =>
        pure (Construct.call value (collect (· == ·) arguments))) = _
    rw [hread, h]
    exact congrArg (fun a => Except.ok (Construct.call v a)) (collect_positional _)
  | access opener key closer =>
    show (readers.valueAt key.trees _ >>= fun key => readValue subject >>= fun value =>
      pure (Construct.access value key)) = _
    rw [key.valueAt_trees, h]
    rfl

end Suffix

/-- The tokens of a list of accessors. -/
def dots (accessors : List Accessor) : List Token :=
  accessors.flatMap Accessor.tokens

/-- A value with accessors behind it. -/
def chained (v : Value) (accessors : List Accessor) : Value :=
  .construct (.chain v (accessors.map Accessor.token))

section

variable (accessors : List Accessor)

theorem kind_of_mem_dots {t : Token} (h : t ∈ dots accessors) :
    t.kind = .dot ∨ t.kind.isValue = true :=
  kind_of_mem_accessors (fun accessor _ => accessor.dot.isKind)
    (fun accessor _ => accessor.isValue) h

theorem accessors?_dots :
    accessors? ((dots accessors).map .token) = some (accessors.map Accessor.token) :=
  accessors?_flatMap (fun accessor _ => accessor.dot.isKind) fun accessor _ => accessor.isValue

theorem groups_dots : Groups (dots accessors) ((dots accessors).map .token) :=
  groups_accessors (fun accessor _ => accessor.dot.isKind) fun accessor _ => accessor.isValue

theorem isBalanced_dots : IsBalanced ((dots accessors).map .token) := by
  have hplain : ∀ tree ∈ (dots accessors).map Tree.token, tree.isBracket = false := by
    intro tree hm
    obtain ⟨t, ht, rfl⟩ := List.mem_map.mp hm
    have hk := kind_of_mem_dots accessors ht
    rw [Tree.isBracket]
    revert hk
    cases t.kind <;> decide
  exact (IsWellBracketed.of_plain hplain).isBalanced

theorem isUndivided_dots {kinds : List Kind} {depth : Depth} (hdot : .dot ∉ kinds)
    (hvalue : ∀ kind ∈ kinds, kind.isValue = false) :
    IsUndivided kinds depth ((dots accessors).map .token) := by
  refine isUndivided_of_not_mem fun t ht hk => ?_
  obtain ⟨u, hu, he⟩ := List.mem_map.mp ht
  obtain rfl := Tree.token.inj he
  have hne : Kind.dot ≠ u.kind := fun hd => hdot (hd ▸ hk)
  exact kind_ne_of_accessor (kind_of_mem_dots accessors hu) hne.symm (hvalue _ hk) rfl

theorem onOneLine_dots : onOneLine (dots accessors) = dots accessors :=
  List.filter_eq_self.mpr fun t ht =>
    bne_iff_ne.mpr (kind_ne_of_accessor (kind_of_mem_dots accessors ht) (by decide) rfl)

end

/-- Whether a value that more can stand behind is read from some tokens: they begin with a value,
close their brackets, and have no token of some kinds outside of them. -/
structure IsSubject (kinds : List Kind) (tokens : List Token) (trees : List Tree) (v : Value) :
    Prop where
  groups : Groups tokens trees
  starts : ∃ (x : Token) (rest : List Tree), trees = .token x :: rest ∧ x.kind.isValue = true
  balanced : IsBalanced trees
  undivided : IsUndivided kinds .top trees
  reads : readValue trees = .ok v

namespace IsSubject

variable {kinds : List Kind} {tokens : List Token} {trees : List Tree} {v : Value}

theorem canBeSubject (h : IsSubject kinds tokens trees v)
    (covers : [.operator, .assignment, .arrow] ⊆ kinds) : canBeSubject trees = true := by
  obtain ⟨x, rest, rfl, -⟩ := h.starts
  exact canBeSubject_iff.mpr ⟨List.cons_ne_nil _ _, h.undivided.of_subset covers⟩

/-- A span that begins with a value and goes on is a composite expression, and returns nothing. -/
theorem isComposite {more : List Tree} (h : IsSubject kinds tokens trees v) (hne : more ≠ []) :
    literal? (trees ++ more) = none ∧ inParens? (trees ++ more) = none ∧
      returning? (trees ++ more) = none := by
  obtain ⟨x, rest, rfl, hx⟩ := h.starts
  have hkind : ∀ {kind : Kind}, kind ≠ .dot → kind.isValue = false →
      Tree.hasKind kind (.token x) = false :=
    fun hd hv => beq_eq_false_iff_ne.mpr (kind_ne_of_accessor (.inr hx) hd hv)
  refine ⟨literal?_of_long ?_, inParens?_eq_none (hkind (by decide) rfl), if_neg ?_⟩
  · have hlength := List.length_pos_iff.mpr hne
    simp only [List.length_append, List.length_cons]
    omega
  · rw [hkind (by decide) rfl]
    exact Bool.false_ne_true

theorem literal {x : Token} (hx : x.kind.isValue = true) :
    IsSubject [.operator, .assignment, .arrow, .dot] [x] [.token x] (.literal x) := by
  have hdepth : Depth.top.after (.token x) = .top := by
    cases hk : x.kind <;> simp_all [Kind.isValue, Depth.after]
  exact ⟨groups_nil.cons (Kind.isInert_of_accessor (.inr hx)), ⟨x, [], rfl, hx⟩, hdepth,
    isUndivided_of_value hx (by decide), readValue_literal hx⟩

/-- A subject with one more form of composite expression behind it is read as that form. -/
theorem extend {more : List Token} {moreTrees : List Tree} {shape : Shape} {c : Construct}
    {kinds' : List Kind} (h : IsSubject kinds tokens trees v) (hgroups : Groups more moreTrees)
    (hne : moreTrees ≠ []) (hbalanced : IsBalanced moreTrees)
    (hundivided : IsUndivided kinds' .top (trees ++ moreTrees))
    (hshape : returning? (trees ++ moreTrees) = none → shape? (trees ++ moreTrees) = some shape)
    (hread : shape.read readers = .ok c) :
    IsSubject kinds' (tokens ++ more) (trees ++ moreTrees) (.construct c) := by
  obtain ⟨hliteral, hparens, hreturn⟩ := h.isComposite hne
  have hall := h.groups.append hgroups
  have hreads := (ReadsAs.of_shape hall hliteral hparens (hshape hreturn) hread).reads
  rw [hall.regroup_eq] at hreads
  refine ⟨hall, ?_, ?_, hundivided, hreads⟩
  · obtain ⟨x, rest, rfl, hx⟩ := h.starts
    exact ⟨x, rest ++ moreTrees, rfl, hx⟩
  · rw [IsBalanced, List.foldl_append, h.balanced]
    exact hbalanced

/-- A suffix takes all that stands before it for its subject. -/
theorem attach (h : IsSubject kinds tokens trees v)
    (covers : [.operator, .assignment, .arrow] ⊆ kinds)
    (outside : ∀ kind ∈ kinds, kind.isBracket = false) (suffix : Suffix) :
    IsSubject kinds (tokens ++ onOneLine suffix.tokens) (trees ++ suffix.trees)
      (suffix.attach v) := by
  have hundivided : IsUndivided kinds .top (trees ++ suffix.trees) := by
    rw [isUndivided_append, h.balanced]
    exact ⟨h.undivided, suffix.isUndivided outside⟩
  have harrow : hasArrow (trees ++ suffix.trees) = false :=
    hasArrow_eq_false (hundivided.of_subset fun kind hm => covers (by simp_all))
  exact h.extend suffix.groups suffix.trees_ne_nil suffix.isBalanced hundivided
    (fun hreturn => suffix.shape?_append hreturn harrow (h.canBeSubject covers))
    (suffix.read_shape h.reads)

/-- Suffixes associate to the left: by induction on them, each one finds a subject before it. -/
theorem attachAll (h : IsSubject kinds tokens trees v)
    (covers : [.operator, .assignment, .arrow] ⊆ kinds)
    (outside : ∀ kind ∈ kinds, kind.isBracket = false) (suffixes : List Suffix) :
    ∃ trees', IsSubject kinds (tokens ++ onOneLine (suffixes.flatMap Suffix.tokens)) trees'
      (suffixes.foldl Suffix.attach v) := by
  induction suffixes generalizing tokens trees v with
  | nil =>
    refine ⟨trees, ?_⟩
    rw [List.flatMap_nil, onOneLine, List.filter_nil, List.append_nil]
    exact h
  | cons suffix suffixes ih =>
    obtain ⟨trees', htrees⟩ := ih (h.attach covers outside suffix)
    refine ⟨trees', ?_⟩
    rw [List.flatMap_cons, onOneLine_append, ← List.append_assoc]
    exact htrees

/-- Accessors take all that stands before them for their subject, unless it has accessors. -/
theorem chain (h : IsSubject kinds tokens trees v)
    (covers : [.operator, .assignment, .arrow] ⊆ kinds) (hdot : .dot ∈ kinds)
    {accessors : List Accessor} (hne : accessors ≠ []) :
    IsSubject [.operator, .assignment, .arrow] (tokens ++ dots accessors)
      (trees ++ (dots accessors).map .token) (chained v accessors) := by
  have hundivided : IsUndivided [.operator, .assignment, .arrow] .top
      (trees ++ (dots accessors).map .token) := by
    rw [isUndivided_append]
    exact ⟨h.undivided.of_subset covers, isUndivided_dots accessors (by decide) (by decide)⟩
  have harrow : hasArrow (trees ++ (dots accessors).map .token) = false :=
    hasArrow_eq_false (hundivided.of_subset (by simp))
  have hdots : (dots accessors).map Tree.token ≠ [] := by
    obtain ⟨accessor, others, rfl⟩ := List.exists_cons_of_ne_nil hne
    exact List.cons_ne_nil _ _
  have hread : (Shape.chain trees (accessors.map Accessor.token)).read readers =
      .ok (.chain v (accessors.map Accessor.token)) := by
    show (readValue trees >>= fun value =>
      pure (Construct.chain value (accessors.map Accessor.token))) = _
    rw [h.reads]
    rfl
  refine h.extend (groups_dots accessors) hdots (isBalanced_dots accessors) hundivided
    (fun hreturn => ?_) hread
  obtain ⟨accessor, others, rfl⟩ := List.exists_cons_of_ne_nil hne
  have hk := accessor.dot.isKind
  have hdivide : divide? [.dot] (trees ++ (dots (accessor :: others)).map .token) =
      some (trees, accessor.dot.token, .token accessor.token :: (dots others).map .token) := by
    refine divide?_eq_some_iff.mpr ⟨rfl, h.undivided.of_subset (by simpa using hdot), ?_⟩
    rw [h.balanced]
    exact separator?_eq_some_iff.mpr ⟨by simp [hk], by simp [Depth.after, hk]⟩
  refine shape?_of_accessors hreturn harrow hdivide (h.canBeSubject covers) ?_ (by simp)
  have hnames := accessors?_dots (accessor :: others)
  show accessors? (.token accessor.token :: (dots others).map .token) = _
  rw [← hnames]
  exact (if_pos hk).symm

/-- What a subject is read as does not depend on line breaks and parentheses that are grouped. -/
theorem readValue_eq (h : IsSubject kinds tokens trees v) {written : List Token}
    (hw : onOneLine written = tokens) : readValue (written.map .token) = .ok v := by
  have hne : tokens ≠ [] := by
    rintro rfl
    obtain ⟨x, rest, hx, -⟩ := h.starts
    rw [← h.groups.regroup_eq, List.map_nil, Offside.regroup] at hx
    cases hx
  rw [← readValue_joinLines, ← map_onOneLine, hw,
    h.groups.isFlat.readValue_eq (mt List.map_eq_nil_iff.mp hne), h.groups.regroup_eq, h.reads]

end IsSubject

/-- Calls and accesses associate to the left, and so does a list of accessors in front of them or
behind them. The arguments need not be told from labelled ones: no value begins with a label. -/
theorem readValue_suffixes {x : Token} (hx : x.kind.isValue = true) (suffixes : List Suffix) :
    readValue ((x :: suffixes.flatMap Suffix.tokens).map .token) =
        .ok (suffixes.foldl Suffix.attach (.literal x)) ∧
      ∀ accessors : List Accessor, accessors ≠ [] →
        readValue ((x :: (dots accessors ++ suffixes.flatMap Suffix.tokens)).map .token) =
            .ok (suffixes.foldl Suffix.attach (chained (.literal x) accessors)) ∧
          readValue ((x :: (suffixes.flatMap Suffix.tokens ++ dots accessors)).map .token) =
            .ok (chained (suffixes.foldl Suffix.attach (.literal x)) accessors) := by
  have hline : ∀ tokens : List Token, onOneLine (x :: tokens) = x :: onOneLine tokens :=
    fun tokens => onOneLine_cons (by rintro hk; rw [hk] at hx; cases hx) tokens
  have hliteral := IsSubject.literal hx
  obtain ⟨trees, hsuffixes⟩ := hliteral.attachAll (by simp) (by decide) suffixes
  refine ⟨hsuffixes.readValue_eq (hline _), fun accessors hne => ⟨?_, ?_⟩⟩
  · have hchain := hliteral.chain (by simp) (by simp) hne
    obtain ⟨trees', h⟩ := hchain.attachAll (by simp) (by decide) suffixes
    refine h.readValue_eq ?_
    rw [hline, onOneLine_append, onOneLine_dots]
    rfl
  · refine (hsuffixes.chain (by simp) (by simp) hne).readValue_eq ?_
    rw [hline, onOneLine_append, onOneLine_dots]
    rfl

/-- The chain `f(a + b, x => y)[k].g`. -/
theorem readValue_suffixes_call_access :
    let token (kind : Kind) (text : String) : Token := ⟨kind, text, default⟩
    let name (text : String) : Token := token .name text
    let sum : Value := .construct (.operation [.operand (.literal (name "a")),
      .operand (.literal (name "b")), .operator (token .operator "+")])
    let function : Value := .construct (.lambda ["x"] (.literal (name "y")))
    let call : Value := .construct (.call (.literal (name "f")) [("0", sum), ("1", function)])
    (name "f").kind.isValue = true ∧
      readValue ([name "f", token .openParen "(", name "a", token .operator "+", name "b",
        token .comma ",", name "x", token .arrow "=>", name "y", token .closeParen ")",
        token .openBracket "[", name "k", token .closeBracket "]", token .dot ".",
        name "g"].map .token) =
        .ok (.construct (.chain (.construct (.access call (.literal (name "k")))) [name "g"])) := by
  intro token name sum function call
  let first : PlainArgument := ⟨⟨[name "a", token .operator "+", name "b"], sum,
    .item rfl (.item rfl (.item rfl .nil)), by decide, by cbv⟩, by decide⟩
  let second : PlainArgument := ⟨⟨[name "x", token .arrow "=>", name "y"], function,
    .item rfl (.item rfl (.item rfl .nil)), by decide, by cbv⟩, by decide⟩
  let key : Passage := ⟨[name "k"], .literal (name "k"), .item rfl .nil, by decide,
    readValue_literal rfl⟩
  let suffixes : List Suffix := [
    .call ⟨token .openParen "(", rfl⟩ (some ⟨first, [(⟨token .comma ",", rfl⟩, second)]⟩)
      ⟨token .closeParen ")", rfl⟩,
    .access ⟨token .openBracket "[", rfl⟩ key ⟨token .closeBracket "]", rfl⟩]
  let accessor : Accessor := ⟨⟨token .dot ".", rfl⟩, name "g", rfl⟩
  have hvalue : (name "f").kind.isValue = true := rfl
  obtain ⟨-, hchain⟩ := readValue_suffixes hvalue suffixes
  exact ⟨hvalue, (hchain [accessor] (List.cons_ne_nil _ _)).2⟩

end Offside
