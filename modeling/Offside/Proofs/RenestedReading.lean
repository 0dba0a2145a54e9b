import Offside.Proofs.RenestedShape

namespace Offside

/-- Whether a span is read as one argument without a label. -/
structure IsSoleArgument (span : List Tree) : Prop where
  nonempty : span ≠ []
  undivided : IsUndivided [.comma] .top span
  unlabelled : labelled? span = none

/-- Whether all pairs of renested spans of fewer tokens than a bound are read alike. -/
def AreReadAlike (bound : Nat) : Prop :=
  ∀ part part', Renested false part part' → leafCount part < bound → readValue part = readValue part'

section

variable {xs ys items items' : List Tree} {even : Bool} {bound n k : Nat}

theorem unwrap_group (items : List Tree) : unwrap [.group items] = unwrap items := by
  rw [unwrap]
  rfl

theorem readValue_enclose (n : Nat) (span : List Tree) :
    readValue (enclose n span) = readValue span := by
  induction n with
  | zero => rfl
  | succ n ih =>
    rw [← ih]
    exact readValue_congr (unwrap_group _)

theorem isSoleArgument_group (items : List Tree) : IsSoleArgument [.group items] :=
  ⟨List.cons_ne_nil _ _, isUndivided_cons.mpr ⟨rfl, isUndivided_nil⟩, rfl⟩

theorem readListed_of_isSoleArgument (h : IsSoleArgument xs) (opener : Position) :
    readListed (readArgument readers opener) xs =
      (readers.valueAt xs opener).map fun v => [("0", v)] := by
  rw [readListed, split, if_neg (by simpa using h.nonempty), cut_of_isUndivided h.undivided]
  simp only [List.map_nil, List.zipIdx_cons, List.zipIdx_nil, List.mapM_cons, List.mapM_nil,
    readArgument, h.unlabelled]
  cases readers.valueAt xs opener <;> rfl

theorem mapM_zipIdx_eq {m : Type → Type} [Monad m] [LawfulMonad m] {α β : Type}
    {r : α → α → Prop} {f : α → Nat → m β} {ps qs : List α}
    (h : List.Forall₂ r ps qs) (hf : ∀ p q, p ∈ ps → r p q → ∀ i, f p i = f q i) :
    (ps.zipIdx.mapM fun (p, i) => f p i) = qs.zipIdx.mapM fun (q, i) => f q i := by
  have key : ∀ start, ((ps.zipIdx start).mapM fun (p, i) => f p i) =
      (qs.zipIdx start).mapM fun (q, i) => f q i := by
    induction h with
    | nil => exact fun _ => rfl
    | @cons p q ps qs hr _ ih =>
      intro start
      rw [List.zipIdx_cons, List.zipIdx_cons, List.mapM_cons, List.mapM_cons,
        ih fun p q hm => hf p q (List.mem_cons_of_mem _ hm)]
      simp only [hf p q List.mem_cons_self hr start]
  exact key 0

theorem AreReadAlike.value (alike : AreReadAlike bound) (h : Renested even xs ys)
    (hb : leafCount xs < bound) : readers.value xs = readers.value ys :=
  alike xs ys h.uneven hb

theorem AreReadAlike.valueAt (alike : AreReadAlike bound) (h : Renested even xs ys)
    (hb : leafCount xs < bound) (p : Position) : readers.valueAt xs p = readers.valueAt ys p := by
  rw [Readers.valueAt, Readers.valueAt, alike.value h hb]

theorem Renested.origin_eq (h : Renested even xs ys) : origin xs = origin ys := by
  rw [origin, origin, firstLeaf?, firstLeaf?, h.leaves_eq]

theorem Renested.readListed_eq {α : Type} {read : List Tree → Nat → Outcome α}
    (hread : ∀ part part', Renested even part part' → leafCount part < bound → ∀ i,
      read part i = read part' i)
    (h : Renested even xs ys) (hb : leafCount xs < bound) :
    readListed read xs = readListed read ys := by
  refine mapM_zipIdx_eq (h.split (by decide) (by decide)) fun part part' hm hr i => ?_
  have hle := leafCount_le_of_sublist (sublist_of_mem_split hm)
  exact hread part part' hr (by omega) i

theorem Renested.readArgument_eq (alike : AreReadAlike bound) (h : Renested even xs ys)
    (hb : leafCount xs < bound) (opener : Position) (i : Nat) :
    readArgument readers opener xs i = readArgument readers opener ys i := by
  have hl := h.labelled?
  rw [readArgument, readArgument]
  cases hx : Offside.labelled? xs with
  | none =>
    rw [hx] at hl
    generalize Offside.labelled? ys = o at hl
    cases hl
    dsimp only
    rw [alike.valueAt h hb]
  | some d =>
    obtain ⟨t, rest⟩ := d
    have hle := leafCount_le_of_sublist (labelled?_parts hx).2
    rw [hx] at hl
    generalize Offside.labelled? ys = o at hl
    cases hl with
    | @some _ d' hd =>
      obtain ⟨t', rest'⟩ := d'
      obtain ⟨rfl, hrest⟩ := hd
      dsimp only at hrest ⊢
      rw [alike.valueAt hrest (by omega)]

theorem Renested.readEntry_eq (alike : AreReadAlike bound) (h : Renested even xs ys)
    (hb : leafCount xs < bound) (opener : Position) (i : Nat) :
    readEntry readers opener xs i = readEntry readers opener ys i := by
  have hd := @Renested.divide? _ _ _ [.colon] h (by decide) (by decide)
  rw [readEntry, readEntry]
  cases hx : Offside.divide? [.colon] xs with
  | none =>
    rw [hx] at hd
    generalize Offside.divide? [.colon] ys = o at hd
    cases hd
    dsimp only
    rw [h.origin_eq, alike.valueAt h hb]
  | some d =>
    obtain ⟨left, colon, right⟩ := d
    have hspan := eq_of_divide? hx
    rw [hspan, leafCount_append, leafCount_token_cons] at hb
    rw [hx] at hd
    generalize Offside.divide? [.colon] ys = o at hd
    cases hd with
    | @some _ d' hd =>
      obtain ⟨left', colon', right'⟩ := d'
      obtain ⟨rfl, hleft, hright⟩ := hd
      dsimp only at hleft hright ⊢
      rw [alike.valueAt hleft (by omega), alike.valueAt hright (by omega)]

theorem readClauses_renested (alike : AreReadAlike bound) {clauses clauses' : List (Token × List Tree)}
    (h : List.Forall₂ (fun c c' => c.1 = c'.1 ∧ Renested even c.2 c'.2) clauses clauses')
    (hb : ∀ c ∈ clauses, leafCount c.2 < bound) (missing : Option Position) :
    readClauses readers missing clauses = readClauses readers missing clauses' := by
  induction h generalizing missing with
  | nil => rfl
  | @cons c c' clauses clauses' hc _ ih =>
    obtain ⟨t, operand⟩ := c
    obtain ⟨t', operand'⟩ := c'
    obtain ⟨rfl, hc⟩ := hc
    have ih := fun missing => ih (fun c hm => hb c (List.mem_cons_of_mem _ hm)) missing
    rw [readClauses, readClauses, isEmpty_eq_of_sameOutside hc.sameOutside, hc.origin_eq,
      alike.valueAt hc (hb _ List.mem_cons_self), ih none, ih (some t.span.start)]

theorem Renested.readParts_eq (alike : AreReadAlike bound) (h : Renested even xs ys)
    (hb : (Shape.operation xs).IsBelow bound) : readParts readers xs = readParts readers ys := by
  obtain ⟨hbfirst, hbclauses⟩ := hb
  obtain ⟨hfirst, hclauses⟩ := @Renested.cut _ _ _ h [.operator] (by decide) (by decide)
  rw [readParts, readParts]
  rcases hx : Offside.cut [.operator] xs with ⟨first, clauses⟩
  rcases hy : Offside.cut [.operator] ys with ⟨first', clauses'⟩
  rw [hx, hy] at hfirst hclauses
  rw [hx] at hbfirst hbclauses
  cases first with
  | nil =>
    obtain rfl := hfirst.eq_nil
    dsimp only
    rw [h.origin_eq, readClauses_renested alike hclauses hbclauses]
  | cons tree first =>
    cases first' with
    | nil => cases hfirst.sameOutside
    | cons tree' first' =>
      dsimp only
      rw [hfirst.origin_eq, alike.valueAt hfirst hbfirst, readClauses_renested alike hclauses hbclauses]

/-- Renested arguments are read alike, unless those of a call become a single one. -/
theorem readArguments_eq (alike : AreReadAlike bound) (h : Renested false items items')
    (hb : leafCount items < bound) (hk : n = 0 → k = 0 ∨ IsSoleArgument items)
    (opener : Position) :
    readListed (readArgument readers opener) (enclose n items) =
      readListed (readArgument readers opener) (enclose (n + k) items') := by
  have hvalue : readers.valueAt (enclose n items) opener =
      readers.valueAt (enclose (n + k) items') opener := by
    have heq : readValue (enclose n items) = readValue (enclose (n + k) items') := by
      rw [readValue_enclose, readValue_enclose, alike items items' h hb]
    have heq : readers.value (enclose n items) = readers.value (enclose (n + k) items') := heq
    rw [Readers.valueAt, Readers.valueAt, heq]
  have sole : IsSoleArgument (enclose n items) → n + k ≠ 0 →
      readListed (readArgument readers opener) (enclose n items) =
        readListed (readArgument readers opener) (enclose (n + k) items') := by
    intro hx hne
    have hy : IsSoleArgument (enclose (n + k) items') := by
      obtain ⟨m, hm⟩ := Nat.exists_eq_succ_of_ne_zero hne
      rw [hm]
      exact isSoleArgument_group _
    rw [readListed_of_isSoleArgument hx, readListed_of_isSoleArgument hy, hvalue]
  cases n with
  | succ n => exact sole (isSoleArgument_group _) (by omega)
  | zero =>
    by_cases hzero : k = 0
    · subst hzero
      exact h.readListed_eq (fun part part' hr hp i => hr.readArgument_eq alike hp opener i) hb
    · exact sole ((hk rfl).resolve_left hzero) (by omega)

theorem Shape.Renested.read_eq {shape shape' : Shape} (alike : AreReadAlike bound)
    (h : shape.Renested even shape') (hb : shape.IsBelow bound)
    (sole : even = false → ∀ callee opener arguments, shape = .call callee opener arguments →
      (∀ tree ∈ callee, tree.opensBlock = false) → IsSoleArgument arguments) : shape.read readers = shape'.read readers := by
  cases h with
  | returning h => rw [Shape.read, Shape.read, alike.valueAt h hb]
  | @call callee callee' items items' opener n k h more inside =>
    obtain ⟨hcallee, harguments⟩ := hb
    rw [leafCount, leaves_enclose, ← leafCount] at harguments
    have hk : n = 0 → k = 0 ∨ IsSoleArgument items := by
      intro hn
      by_cases hmore : even = true ∨ ∃ tree ∈ callee, tree.opensBlock = true
      · exact .inl (more hmore hn)
      · obtain ⟨heven, hblock⟩ := not_or.mp hmore
        have hs := sole (by simpa using heven) _ _ _ rfl (by simpa using hblock)
        rw [hn] at hs
        exact .inr hs
    rw [Shape.read, Shape.read, readArguments_eq alike inside harguments hk, alike.value h hcallee]
  | access h hkey => rw [Shape.read, Shape.read, alike.valueAt hkey hb.2, alike.value h hb.1]
  | chain h => rw [Shape.read, Shape.read, alike.value h hb]
  | lambda h => rw [Shape.read, Shape.read, alike.valueAt h hb]
  | @dictionary opener entries entries' h =>
    rw [Shape.read, Shape.read,
      h.readListed_eq (fun part part' hr hp i => hr.readEntry_eq alike hp opener.start i) hb]
  | operation h =>
    rw [Shape.read, Shape.read, readPostfix, readPostfix, h.readParts_eq alike hb]
  | assignment h hright =>
    rw [Shape.read, Shape.read, alike.valueAt h hb.1, alike.valueAt hright hb.2]

theorem Renested.readConstruct_eq (alike : AreReadAlike (leafCount xs)) (h : Renested even xs ys)
    (sole : even = false → ∀ callee opener arguments,
      Offside.shape? xs = some (.call callee opener arguments) →
        (∀ tree ∈ callee, tree.opensBlock = false) → IsSoleArgument arguments) :
    readConstruct readers xs = readConstruct readers ys := by
  have hs := h.shape?
  rw [readConstruct, readConstruct]
  cases hx : Offside.shape? xs with
  | none =>
    rw [hx] at hs
    generalize Offside.shape? ys = o at hs
    cases hs
    dsimp only
    rw [firstLeaf?, firstLeaf?, h.leaves_eq, h.origin_eq]
  | some shape =>
    rw [hx] at hs
    generalize Offside.shape? ys = o at hs
    cases hs with
    | some hs =>
      dsimp only
      rw [hs.read_eq alike (divides_of_shape? hx).isBelow]
      intro he callee opener arguments hcall
      exact sole he callee opener arguments (hx.trans (congrArg some hcall))

theorem Renested.literal?_eq (h : Renested even xs ys) : literal? xs = literal? ys := by
  cases h with
  | same => rfl
  | @item _ tree xs ys plain paired rest =>
    cases rest.sameOutside with
    | nil => rfl
    | cons => cases tree <;> rfl
  | parens => rfl
  | unclosed => rfl

theorem inParens?_eq_none {tree : Tree} (h : tree.hasKind .openParen = false) :
    inParens? (tree :: xs) = none := by
  unfold inParens?
  split
  next he =>
    rw [← (List.cons.inj he).1, h]
    rfl
  next => rfl

/-- What stands in parentheses is read alike, and so is anything else if it is a composite
expression that is read alike. -/
theorem Renested.readSimple_eq (alike : AreReadAlike (leafCount xs)) (h : Renested even xs ys)
    {compound compound' : List Tree → Outcome Value} (hc : compound xs = compound' ys) :
    readSimple readers xs compound = readSimple readers ys compound' := by
  rw [readSimple, readSimple, h.literal?_eq]
  split
  next => rfl
  next =>
    cases h with
    | same span => rw [hc]
    | item plain paired rest =>
      rw [inParens?_eq_none plain.notOpener, inParens?_eq_none plain.notOpener]
      exact hc
    | @parens _ n k opener closer items items' xs ys opens closes paired more inside rest =>
      cases rest.sameOutside with
      | cons => exact hc
      | nil =>
        have hparens : ∀ items, inParens? [.token opener, .group items, .token closer] =
            some items := by
          intro items
          simp [inParens?, Tree.hasKind, opens, closes]
        have hlt : leafCount items <
            leafCount [.token opener, .group (enclose n items), .token closer] := by
          rw [leafCount_token_cons, leafCount_group_cons, leafCount, leafCount, leaves_enclose]
          omega
        have heq : readValue (enclose n items) = readValue (enclose (n + k) items') := by
          rw [readValue_enclose, readValue_enclose, alike items items' inside hlt]
        rw [hparens, hparens]
        exact heq
    | unclosed => exact hc

theorem Renested.joinLines (h : Renested even xs ys) :
    Renested even (joinLines xs) (joinLines ys) := by
  induction h with
  | same span => exact .same _
  | @item even tree xs ys plain paired rest ih =>
    cases hk : tree.hasKind .newline with
    | true =>
      rw [joinLines_cons_of_newline hk, joinLines_cons_of_newline hk]
      exact ih
    | false =>
      rw [joinLines_cons hk, joinLines_cons hk]
      exact .item plain (paired.imp_right IsBlockless.joinLines) ih
  | parens opens closes paired more inside rest ihin ih =>
    rw [joinLines_parens opens closes, joinLines_parens opens closes]
    exact .parens opens closes (paired.imp_right (And.imp_right IsBlockless.joinLines)) more inside ih
  | unclosed opens closed inside ih =>
    rw [joinLines_opener_group opens, joinLines_opener_group opens]
    exact .unclosed opens closed inside

end

section

variable {span : List Tree}

theorem joinLines_joinLines (span : List Tree) : joinLines (joinLines span) = joinLines span := by
  rw [joinLines, joinLines, List.filter_filter]
  simp

theorem unwrap_joinLines (span : List Tree) : unwrap (joinLines span) = unwrap span := by
  induction span with
  | nil => rfl
  | cons tree span ih =>
    cases h : tree.hasKind .newline with
    | true =>
      have hj : joinLines (tree :: span) = joinLines span := List.filter_cons_of_neg (by simp [h])
      rw [hj, ih, unwrap, h]
      rfl
    | false =>
      have hj : joinLines (tree :: span) = tree :: joinLines span :=
        List.filter_cons_of_pos (by simp [h])
      rw [hj, unwrap, unwrap, h, joinLines_joinLines]
      rfl

theorem readValue_joinLines (span : List Tree) : readValue (joinLines span) = readValue span :=
  readValue_congr (unwrap_joinLines span)

theorem joinLines_eq_self (h : ∀ tree ∈ span, tree.hasKind .newline = false) :
    joinLines span = span :=
  List.filter_eq_self.mpr fun tree hm => by simp [h tree hm]

theorem readValue_of_long (plain : ∀ tree ∈ span, tree.hasKind .newline = false)
    (long : 2 ≤ span.length) (first : ∀ tree ∈ span.head?, tree.opensBlock = false) :
    readValue span = readSimple readers span (readFlat readers) := by
  match span with
  | tree :: next :: rest =>
    obtain ⟨htree, hrest⟩ := List.forall_mem_cons.mp plain
    have hunwrap : unwrap (tree :: next :: rest) = tree :: next :: rest := by
      rw [unwrap, htree, joinLines_eq_self hrest]
      rfl
    rw [readValue_eq, valueStep, hunwrap]
    simp [first tree rfl]

theorem literal?_of_long (long : 2 ≤ span.length) : literal? span = none := by
  match span with
  | .token _ :: _ :: _ => rfl
  | .group _ :: _ :: _ => rfl

end

section

variable {xs ys : List Tree} {even : Bool}

theorem Renested.eq_or_long (h : Renested even xs ys) : xs = ys ∨ 2 ≤ xs.length ∧
    (∀ tree ∈ xs.head?, tree.opensBlock = false) ∧ ∀ tree ∈ ys.head?, tree.opensBlock = false := by
  have paren : ∀ {t : Token}, t.kind = .openParen → (Tree.token t).opensBlock = false :=
    fun ht => not_opensBlock_of_introducedBy? (introducedBy?_eq_none (by simp [ht]))
  cases h with
  | same => exact .inl rfl
  | item plain paired rest =>
    cases rest.sameOutside with
    | nil => exact .inl rfl
    | cons => simp [plain.not_opensBlock]
  | parens opens => simp [paren opens]
  | unclosed opens => simp [paren opens]

/-- Renested spans are read alike. -/
theorem Renested.readValue_eq (h : Renested even xs ys) : readValue xs = readValue ys := by
  induction hlen : leafCount xs using Nat.strong_induction_on generalizing xs ys even with
  | _ length ih =>
    have hjoined := h.joinLines
    have hle : leafCount (Offside.joinLines xs) ≤ length :=
      hlen ▸ leafCount_le_of_sublist List.filter_sublist
    have plain : ∀ span, ∀ tree ∈ Offside.joinLines span, tree.hasKind .newline = false :=
      fun span tree hm => hasKind_newline_of_mem_joinLines hm
    have alike : ∀ {bound}, bound ≤ length → AreReadAlike bound :=
      fun hb part part' hr hp => ih (leafCount part) (by omega) hr rfl
    have hsame := hjoined.sameOutside.length_eq
    rw [← readValue_joinLines xs, ← readValue_joinLines ys]
    rcases hjoined.eq_or_long with heq | ⟨long, hx, hy⟩
    · rw [heq]
    · have hrefined : leafCount (Offside.refined (Offside.joinLines xs)) ≤ length := by
        rw [Offside.refined, leafCount_regroup]
        exact Nat.le_trans (leafCount_spread_le _) hle
      rw [readValue_of_long (plain xs) long hx, readValue_of_long (plain ys) (hsame ▸ long) hy]
      refine hjoined.readSimple_eq (alike hle) ?_
      exact hjoined.refined.readSimple_eq (alike hrefined)
        (hjoined.refined.readConstruct_eq (alike hrefined) fun he => by cases he)

end

end Offside
