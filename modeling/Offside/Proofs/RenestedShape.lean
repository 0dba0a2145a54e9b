import Mathlib.Data.List.Forall2
import Offside.Proofs.Renesting

namespace Offside

/-- Whether two items are the same token, or groups with anything inside. -/
inductive Tree.SameOutside : Tree → Tree → Prop where
  | token (t : Token) : SameOutside (.token t) (.token t)
  | group (items items' : List Tree) : SameOutside (.group items) (.group items')

theorem Tree.sameOutside_refl (tree : Tree) : tree.SameOutside tree := by
  cases tree with
  | token t => exact .token t
  | group items => exact .group items items

theorem Tree.SameOutside.symm {tree tree' : Tree} (h : tree.SameOutside tree') :
    tree'.SameOutside tree := by
  cases h with
  | token t => exact .token t
  | group items items' => exact .group items' items

theorem Tree.SameOutside.hasKind_eq {tree tree' : Tree} (h : tree.SameOutside tree') (kind : Kind) :
    tree.hasKind kind = tree'.hasKind kind := by
  cases h <;> rfl

section

variable {xs ys : List Tree} (h : List.Forall₂ Tree.SameOutside xs ys)

include h

theorem closerIndex?_eq_of_sameOutside (opening closing : Kind) (n : Nat) :
    closerIndex? opening closing n xs = closerIndex? opening closing n ys := by
  induction h generalizing n with
  | nil => rfl
  | cons htree _ ih =>
    cases n <;> simp only [closerIndex?, htree.hasKind_eq, ih]

theorem findIdx?_depths_of_sameOutside (kinds : List Kind) (depth : Depth) :
    (depths depth xs).findIdx? (fun item => (separator? kinds item).isSome) =
      (depths depth ys).findIdx? fun item => (separator? kinds item).isSome := by
  induction h generalizing depth with
  | nil => rfl
  | cons htree _ ih =>
    cases htree with
    | token t => rw [depths, depths, List.findIdx?_cons, List.findIdx?_cons, ih]
    | group items items' =>
      rw [depths, depths, List.findIdx?_cons, List.findIdx?_cons, Depth.after, Depth.after, ih]
      rfl

theorem topIndex?_eq_of_sameOutside (kinds : List Kind) :
    topIndex? kinds xs = topIndex? kinds ys :=
  findIdx?_depths_of_sameOutside h kinds .top

theorem accessors?_eq_of_sameOutside : accessors? xs = accessors? ys := by
  induction h with
  | nil => rfl
  | cons htree _ ih =>
    cases htree with
    | token t => rw [accessors?, accessors?, ih]
    | group items items' => rfl

theorem hasArrow_eq_of_sameOutside : hasArrow xs = hasArrow ys := by
  rw [hasArrow, hasArrow, topIndex?_eq_of_sameOutside h]

theorem isEmpty_eq_of_sameOutside : xs.isEmpty = ys.isEmpty := by
  cases h <;> rfl

theorem canBeSubject_eq_of_sameOutside : canBeSubject xs = canBeSubject ys := by
  rw [canBeSubject, canBeSubject, topIndex?_eq_of_sameOutside h, isEmpty_eq_of_sameOutside h]

theorem openOfLast?_eq_of_sameOutside : openOfLast? xs = openOfLast? ys := by
  have hreverse := List.rel_reverse h
  rw [openOfLast?, openOfLast?]
  revert hreverse
  generalize xs.reverse = us
  generalize ys.reverse = vs
  intro hreverse
  cases hreverse with
  | nil => rfl
  | cons htree hrest =>
    simp only [htree.hasKind_eq, closerIndex?_eq_of_sameOutside hrest, hrest.length_eq]

theorem closeOf?_zero_eq_of_sameOutside : closeOf? xs 0 = closeOf? ys 0 := by
  rw [closeOf?, closeOf?, List.drop_zero, List.drop_zero]
  cases h with
  | nil => rfl
  | cons htree hrest =>
    cases htree with
    | token t => simp only [closerIndex?_eq_of_sameOutside hrest]
    | group items items' => rfl

end

section

variable {span xs ys left right : List Tree} {t : Token} {even : Bool} {kinds : List Kind}

theorem Renested.sameOutside (h : Renested even xs ys) :
    List.Forall₂ Tree.SameOutside xs ys := by
  induction h with
  | same span => exact List.forall₂_same.mpr fun tree _ => tree.sameOutside_refl
  | item plain paired rest ih => exact .cons (Tree.sameOutside_refl _) ih
  | parens opens closes paired more inside rest ihin ih =>
    exact .cons (.token _) (.cons (.group _ _) (.cons (.token _) ih))
  | unclosed opens closed inside ih =>
    exact .cons (.token _) (.cons (.group _ _) .nil)

theorem rel_bind {α β γ δ : Type} {r : α → β → Prop} {s : γ → δ → Prop} {o : Option α}
    {o' : Option β} {f : α → Option γ} {g : β → Option δ} (h : Option.Rel r o o')
    (hf : ∀ a b, r a b → Option.Rel s (f a) (g b)) : Option.Rel s (o >>= f) (o' >>= g) := by
  cases h with
  | some h => exact hf _ _ h
  | none => exact .none

theorem Renested.eq_nil (h : Renested even [] ys) : ys = [] := by
  cases h
  rfl

/-- Renested spans come apart at the same tokens. -/
theorem Renested.split_token (h : Renested even (left ++ .token t :: right) ys)
    (ho : t.kind ≠ .openParen) (hc : t.kind ≠ .closeParen) :
    ∃ left' right', ys = left' ++ .token t :: right' ∧ left'.length = left.length ∧
      Renested even left left' ∧ Renested even right right' := by
  generalize hspan : left ++ Tree.token t :: right = span at h
  induction h generalizing left with
  | same span => exact ⟨left, right, hspan.symm, rfl, .same _, .same _⟩
  | @item even tree xs ys plain paired rest ih =>
    cases left with
    | nil =>
      obtain ⟨rfl, rfl⟩ := List.cons.inj hspan
      exact ⟨[], ys, rfl, rfl, .same _, rest⟩
    | cons first left =>
      obtain ⟨rfl, htail⟩ := List.cons.inj hspan
      obtain ⟨left', right', rfl, hlen, hleft, hright⟩ := ih htail
      rw [← htail] at paired
      refine ⟨first :: left', right', rfl, congrArg Nat.succ hlen, ?_, hright⟩
      exact .item plain (paired.imp_right IsBlockless.of_append) hleft
  | @parens even n k opener closer items items' xs ys opens closes paired more inside rest ihin ih =>
    match left with
    | [] =>
      have ht := Tree.token.inj (List.cons.inj hspan).1
      rw [ht] at ho
      exact absurd opens ho
    | [_] => cases (List.cons.inj (List.cons.inj hspan).2).1
    | [_, _] =>
      have ht := Tree.token.inj (List.cons.inj (List.cons.inj (List.cons.inj hspan).2).2).1
      rw [ht] at hc
      exact absurd closes hc
    | first :: second :: third :: left =>
      simp only [List.cons_append, List.cons.injEq] at hspan
      obtain ⟨rfl, rfl, rfl, hspan⟩ := hspan
      obtain ⟨left', right', rfl, hlen, hleft, hright⟩ := ih hspan
      rw [← hspan] at paired
      exact ⟨_, right', rfl, congrArg (· + 3) hlen,
        .parens opens closes (paired.imp_right (And.imp_right IsBlockless.of_append)) more inside hleft,
        hright⟩
  | @unclosed even n k opener items items' opens closed inside ih =>
    match left with
    | [] =>
      have ht := Tree.token.inj (List.cons.inj hspan).1
      rw [ht] at ho
      exact absurd opens ho
    | [_] => cases (List.cons.inj (List.cons.inj hspan).2).1
    | _ :: _ :: left =>
      have hspan := (List.cons.inj (List.cons.inj hspan).2).2
      cases left <;> cases hspan

theorem Renested.split_last (h : Renested even (left ++ [.token t]) ys)
    (ho : t.kind ≠ .openParen) (hc : t.kind ≠ .closeParen) :
    ∃ left', ys = left' ++ [.token t] ∧ Renested even left left' := by
  obtain ⟨left', right', rfl, -, hleft, hright⟩ := h.split_token ho hc
  obtain rfl := hright.eq_nil
  exact ⟨left', rfl, hleft⟩

/-- Renested spans end with the same parentheses. Nothing is grouped behind a block outside of
parentheses. -/
theorem Renested.split_parens {callee arguments : List Tree} {opener closer : Token}
    (h : Renested even (callee ++ [.token opener, .group arguments, .token closer]) ys)
    (ho : opener.kind = .openParen) :
    ∃ callee' n k items items', arguments = enclose n items ∧
      ys = callee' ++ [.token opener, .group (enclose (n + k) items'), .token closer] ∧
      Renested even callee callee' ∧
      (even = true ∨ (∃ tree ∈ callee, tree.opensBlock = true) → n = 0 → k = 0) ∧
      Renested false items items' := by
  have token : ∀ {t : Token}, t.kind ≠ .keyword → (Tree.token t).opensBlock = false :=
    fun ht => not_opensBlock_of_introducedBy? (introducedBy?_eq_none ht)
  generalize hspan : callee ++ [Tree.token opener, .group arguments, .token closer] = span at h
  induction h generalizing callee with
  | same span => exact ⟨callee, 0, 0, arguments, arguments, rfl, hspan.symm, .same _,
      fun _ _ => rfl, .same _⟩
  | @item even tree xs ys plain paired rest ih =>
    cases callee with
    | nil =>
      obtain ⟨rfl, rfl⟩ := List.cons.inj hspan
      have hopener := plain.notOpener
      simp [Tree.hasKind, ho] at hopener
    | cons first callee =>
      obtain ⟨rfl, htail⟩ := List.cons.inj hspan
      obtain ⟨callee', n, k, items, items', he, rfl, hcallee, hmore, hin⟩ := ih htail
      rw [← htail] at paired
      refine ⟨first :: callee', n, k, items, items', he, rfl,
        .item plain (paired.imp_right IsBlockless.of_append) hcallee, ?_, hin⟩
      simpa [plain.not_opensBlock] using hmore
  | @parens even n k opener' closer' items items' xs ys opens closes paired more inside rest
      ihin ih =>
    rcases callee with _ | ⟨first, _ | ⟨second, _ | ⟨third, callee⟩⟩⟩
    · simp only [List.nil_append, List.cons.injEq, Tree.token.injEq, Tree.group.injEq] at hspan
      obtain ⟨rfl, harguments, rfl, rfl⟩ := hspan
      obtain rfl := rest.eq_nil
      exact ⟨[], n, k, items, items', harguments, rfl, .same _, by simpa using more, inside⟩
    · cases (List.cons.inj (List.cons.inj hspan).2).1
    · have ht := Tree.token.inj (List.cons.inj (List.cons.inj (List.cons.inj hspan).2).2).1
      rw [← ht, ho] at closes
      cases closes
    · simp only [List.cons_append, List.cons.injEq] at hspan
      obtain ⟨rfl, rfl, rfl, hspan⟩ := hspan
      obtain ⟨callee', n', k', inner, inner', he, rfl, hcallee, hmore, hin⟩ := ih hspan
      rw [← hspan] at paired
      refine ⟨_, n', k', inner, inner', he, rfl,
        .parens opens closes (paired.imp_right (And.imp_right IsBlockless.of_append)) more inside
          hcallee, ?_, hin⟩
      have hgroup : (Tree.group (enclose n items)).opensBlock = false := rfl
      simpa [token (t := opener') (by simp [opens]), token (t := closer') (by simp [closes]), hgroup]
        using hmore
  | @unclosed even n k opener' items items' opens closed inside ih =>
    have hlen := congrArg List.length hspan
    simp at hlen

theorem Renested.divide? (h : Renested even xs ys)
    (ho : .openParen ∉ kinds) (hc : .closeParen ∉ kinds) :
    Option.Rel (fun d d' => d.2.1 = d'.2.1 ∧ Renested even d.1 d'.1 ∧ Renested even d.2.2 d'.2.2)
      (divide? kinds xs) (divide? kinds ys) := by
  have hindex := topIndex?_eq_of_sameOutside h.sameOutside kinds
  cases hi : topIndex? kinds xs with
  | none =>
    rw [Offside.divide?, Offside.divide?, ← hindex, hi]
    exact .none
  | some i =>
    obtain ⟨left, t, right, rfl, rfl, hleft, ht⟩ := findIdx?_depths hi
    have hkind := (kind_of_separator? ht).1
    obtain ⟨left', right', rfl, hlen, hl, hr⟩ :=
      h.split_token (fun he => ho (he ▸ hkind)) (fun he => hc (he ▸ hkind))
    have hd : ∀ (left right : List Tree), topIndex? kinds (left ++ .token t :: right) =
        some left.length → Offside.divide? kinds (left ++ .token t :: right) =
          some (left, t, right) := by
      intro left right hi
      rw [Offside.divide?, hi]
      simp
    rw [hd left right hi, hd left' right' (by rw [← hindex, hi, hlen])]
    exact .some ⟨rfl, hl, hr⟩

end

/-- Whether two shapes are the same but for groups in the spans that they are read from. With `even`
so are the arguments of a call, and behind a block outside of parentheses. -/
inductive Shape.Renested (even : Bool) : Shape → Shape → Prop where
  | returning {keyword : Tree} {value value' : List Tree} (h : Offside.Renested even value value') :
    Renested even (.returning keyword value) (.returning keyword value')
  | call {callee callee' items items' : List Tree} {opener : Tree} {n k : Nat}
    (h : Offside.Renested even callee callee')
    (more : even = true ∨ (∃ tree ∈ callee, tree.opensBlock = true) → n = 0 → k = 0)
    (inside : Offside.Renested false items items') :
    Renested even (.call callee opener (enclose n items))
      (.call callee' opener (enclose (n + k) items'))
  | access {subject subject' key key' : List Tree} {opener : Tree}
    (h : Offside.Renested even subject subject') (hkey : Offside.Renested even key key') :
    Renested even (.access subject opener key) (.access subject' opener key')
  | chain {subject subject' : List Tree} {accessors : List Token}
    (h : Offside.Renested even subject subject') :
    Renested even (.chain subject accessors) (.chain subject' accessors)
  | lambda {parameters : List String} {arrow : Token} {body body' : List Tree}
    (h : Offside.Renested even body body') :
    Renested even (.lambda parameters arrow body) (.lambda parameters arrow body')
  | dictionary {opener : Tree} {entries entries' : List Tree}
    (h : Offside.Renested even entries entries') :
    Renested even (.dictionary opener entries) (.dictionary opener entries')
  | operation {span span' : List Tree} (h : Offside.Renested even span span') :
    Renested even (.operation span) (.operation span')
  | assignment {left left' right right' : List Tree} {t : Token}
    (h : Offside.Renested even left left') (hright : Offside.Renested even right right') :
    Renested even (.assignment left t right) (.assignment left' t right')

section

variable {span xs ys : List Tree} {even : Bool} (h : Renested even xs ys)

theorem Shape.renested_refl (shape : Shape) : shape.Renested even shape := by
  cases shape with
  | returning keyword value => exact .returning (.same _)
  | call callee opener arguments =>
    exact @Renested.call even _ _ arguments arguments opener 0 0 (.same _) (fun _ _ => rfl) (.same _)
  | access subject opener key => exact .access (.same _) (.same _)
  | chain subject accessors => exact .chain (.same _)
  | lambda parameters arrow body => exact .lambda (.same _)
  | dictionary opener entries => exact .dictionary (.same _)
  | operation span => exact .operation (.same _)
  | assignment left t right => exact .assignment (.same _) (.same _)

theorem Shape.rel_refl (shape? : Option Shape) :
    Option.Rel (Shape.Renested even) shape? shape? := by
  cases shape? with
  | none => exact .none
  | some shape => exact .some shape.renested_refl

/-- Whether a span ends with a group in parentheses. -/
def EndsWithParens (span : List Tree) : Prop :=
  ∃ callee opener arguments closer,
    span = callee ++ [.token opener, .group arguments, .token closer] ∧
      opener.kind = .openParen ∧ closer.kind = .closeParen

theorem EndsWithParens.of_sameOutside (h : EndsWithParens xs)
    (hs : List.Forall₂ Tree.SameOutside xs ys) : EndsWithParens ys := by
  obtain ⟨callee, opener, arguments, closer, rfl, ho, hc⟩ := h
  induction callee generalizing ys with
  | nil =>
    cases hs with
    | cons h hs =>
      cases h
      cases hs with
      | cons h hs =>
        cases h with
        | group _ items =>
          cases hs with
          | cons h hs =>
            cases h
            cases hs
            exact ⟨[], opener, items, closer, rfl, ho, hc⟩
  | cons tree callee ih =>
    cases hs with
    | @cons _ tree' _ ys _ hs =>
      obtain ⟨callee', opener', items, closer', rfl, ho, hc⟩ := ih hs
      exact ⟨tree' :: callee', opener', items, closer', rfl, ho, hc⟩

theorem call?_eq_none_of_not_endsWithParens (h : ¬EndsWithParens span) : call? span = none := by
  refine Option.eq_none_iff_forall_ne_some.mpr fun shape hs => h ?_
  obtain ⟨callee, opener, arguments, closer, hspan, ho, hc, -⟩ := call?_eq_some hs
  exact ⟨callee, opener, arguments, closer, hspan, ho, hc⟩

theorem call?_append {opener closer : Token} (ho : opener.kind = .openParen)
    (hc : closer.kind = .closeParen) (callee arguments : List Tree) :
    call? (callee ++ [.token opener, .group arguments, .token closer]) =
      if !hasArrow (callee ++ [.token opener, .group arguments, .token closer]) &&
          canBeSubject callee then
        some (.call callee (.token opener) arguments)
      else none := by
  simp [call?, Tree.hasKind, ho, hc]

include h

theorem Renested.returning? : Option.Rel (Shape.Renested even) (returning? xs) (returning? ys) := by
  cases h with
  | same span => exact Shape.rel_refl _
  | item plain paired rest =>
    rw [Offside.returning?, Offside.returning?]
    split
    next => exact .some (.returning rest)
    next => exact .none
  | parens opens closes paired more inside rest =>
    simp [Offside.returning?, Tree.hasKind, opens]
  | unclosed opens closed inside =>
    simp [Offside.returning?, Tree.hasKind, opens]

theorem Renested.call? : Option.Rel (Shape.Renested even) (call? xs) (call? ys) := by
  by_cases hform : EndsWithParens xs
  · obtain ⟨callee, opener, arguments, closer, rfl, ho, hc⟩ := hform
    obtain ⟨callee', n, k, items, items', rfl, rfl, hcallee, hmore, hin⟩ := h.split_parens ho
    rw [call?_append ho hc, call?_append ho hc, ← hasArrow_eq_of_sameOutside h.sameOutside,
      ← canBeSubject_eq_of_sameOutside hcallee.sameOutside]
    split
    next => exact .some (.call hcallee hmore hin)
    next => exact .none
  · have hform' : ¬EndsWithParens ys := fun hy =>
      hform (hy.of_sameOutside (List.Forall₂.flip (h.sameOutside.imp fun _ _ hs => hs.symm)))
    rw [call?_eq_none_of_not_endsWithParens hform, call?_eq_none_of_not_endsWithParens hform']
    exact .none

theorem Renested.access? : Option.Rel (Shape.Renested even) (access? xs) (access? ys) := by
  have hi := openOfLast?_eq_of_sameOutside h.sameOutside
  cases hx : openOfLast? xs with
  | none =>
    simp only [Offside.access?, ← hi, hx]
    exact .none
  | some i =>
    obtain ⟨subject, opener, key, closer, rfl, rfl, hopen, hclose, -⟩ := openOfLast?_split hx
    obtain ⟨subject', rest, rfl, hlen, hsubject, hrest⟩ :=
      h.split_token (by simp [hopen]) (by simp [hopen])
    obtain ⟨key', rfl, hkey⟩ := hrest.split_last (by simp [hclose]) (by simp [hclose])
    have hread : ∀ (subject key : List Tree),
        openOfLast? (subject ++ .token opener :: (key ++ [.token closer])) = some subject.length →
        Offside.access? (subject ++ .token opener :: (key ++ [.token closer])) =
          if !hasArrow (subject ++ .token opener :: (key ++ [.token closer])) &&
              canBeSubject subject then
            some (.access subject (.token opener) key)
          else none := by
      intro subject key hi
      rw [Offside.access?, hi]
      simp
    rw [hread subject key hx, hread subject' key' (by rw [← hi, hx, hlen]),
      ← hasArrow_eq_of_sameOutside h.sameOutside,
      ← canBeSubject_eq_of_sameOutside hsubject.sameOutside]
    split
    next => exact .some (.access hsubject hkey)
    next => exact .none

theorem Renested.chain? : Option.Rel (Shape.Renested even) (chain? xs) (chain? ys) := by
  rw [Offside.chain?, Offside.chain?, hasArrow_eq_of_sameOutside h.sameOutside]
  refine rel_bind (h.divide? (by decide) (by decide)) ?_
  rintro ⟨subject, dot, rest⟩ ⟨subject', dot', rest'⟩ ⟨-, hsubject, hrest⟩
  dsimp only at hsubject hrest ⊢
  rw [canBeSubject_eq_of_sameOutside hsubject.sameOutside,
    accessors?_eq_of_sameOutside hrest.sameOutside]
  split
  next => exact .none
  next =>
    cases Offside.accessors? rest' with
    | none => exact .none
    | some accessors =>
      cases accessors with
      | nil => exact .none
      | cons t accessors => exact .some (.chain hsubject)

theorem Renested.lambda? : Option.Rel (Shape.Renested even) (lambda? xs) (lambda? ys) := by
  rw [Offside.lambda?, Offside.lambda?]
  refine rel_bind (h.divide? (by decide) (by decide)) ?_
  rintro ⟨head, arrow, body⟩ ⟨head', arrow', body'⟩ ⟨rfl, hhead, hbody⟩
  dsimp only at hhead hbody ⊢
  have hnames : parameters? head = parameters? head' := by
    rw [parameters?, parameters?, hhead.leaves_eq]
  rw [hnames]
  cases parameters? head' with
  | none => exact .none
  | some names => exact .some (.lambda hbody)

theorem Renested.dictionary? :
    Option.Rel (Shape.Renested even) (dictionary? xs) (dictionary? ys) := by
  have hclose := closeOf?_zero_eq_of_sameOutside h.sameOutside
  have hlen := h.sameOutside.length_eq
  cases h with
  | same span => exact Shape.rel_refl _
  | @item _ opener xs ys plain paired rest =>
    rw [Offside.dictionary?, Offside.dictionary?, ← hclose, ← Nat.succ.inj hlen]
    split
    next hb =>
      -- the last item is the brace that closes the first
      have hshape : Offside.dictionary? (opener :: xs) = some (.dictionary opener xs.dropLast) := by
        rw [Offside.dictionary?, if_pos hb]
      obtain ⟨_, inside, closer, hspan, -, hcloser, -, -⟩ := dictionary?_eq_some hshape
      obtain rfl : xs = inside ++ [.token closer] := (List.cons.inj hspan).2
      obtain ⟨entries, rfl, hentries⟩ := rest.split_last (by simp [hcloser]) (by simp [hcloser])
      rw [List.dropLast_concat, List.dropLast_concat]
      exact .some (.dictionary hentries)
    next => exact .none
  | parens opens closes paired more inside rest =>
    simp [Offside.dictionary?, Tree.hasKind, opens]
  | unclosed opens closed inside =>
    simp [Offside.dictionary?, Tree.hasKind, opens]

theorem Renested.operation? :
    Option.Rel (Shape.Renested even) (operation? xs) (operation? ys) := by
  rw [Offside.operation?, Offside.operation?]
  refine rel_bind (h.divide? (by decide) (by decide)) ?_
  rintro ⟨left, t, right⟩ ⟨left', t', right'⟩ ⟨rfl, -, -⟩
  dsimp only
  split
  next => exact .some (.operation h)
  next => exact .none

theorem Renested.assignment? :
    Option.Rel (Shape.Renested even) (assignment? xs) (assignment? ys) := by
  rw [Offside.assignment?, Offside.assignment?]
  refine rel_bind (h.divide? (by decide) (by decide)) ?_
  rintro ⟨left, t, right⟩ ⟨left', t', right'⟩ ⟨rfl, hleft, hright⟩
  dsimp only
  split
  next => exact .some (.assignment hleft hright)
  next => exact .none

/-- Renested spans are taken apart in the same way. -/
theorem Renested.shape? : Option.Rel (Shape.Renested even) (shape? xs) (shape? ys) := by
  have each : ∀ form : ConstructForm,
      Option.Rel (Shape.Renested even) (form.shape? xs) (form.shape? ys) := by
    intro form
    cases form with
    | returning => exact h.returning?
    | call => exact h.call?
    | access => exact h.access?
    | chain => exact h.chain?
    | lambda => exact h.lambda?
    | dictionary => exact h.dictionary?
    | operation => exact h.operation?
    | assignment => exact h.assignment?
  rw [Offside.shape?, Offside.shape?]
  induction ConstructForm.inOrder with
  | nil => exact .none
  | cons form forms ih =>
    have hform := each form
    rw [List.findSome?_cons, List.findSome?_cons]
    revert hform
    generalize form.shape? xs = o
    generalize form.shape? ys = o'
    intro hform
    cases hform with
    | some hs => exact .some hs
    | none => exact ih

theorem Renested.sections {kinds : List Kind} (ho : .openParen ∉ kinds) (hc : .closeParen ∉ kinds)
    (depth : Depth) :
    Renested even ((sections (separator? kinds) (depths depth xs)).1.map Prod.fst)
        ((sections (separator? kinds) (depths depth ys)).1.map Prod.fst) ∧
      List.Forall₂ (fun c c' => c.1 = c'.1 ∧
          Renested even (c.2.map Prod.fst) (c'.2.map Prod.fst))
        (sections (separator? kinds) (depths depth xs)).2
        (sections (separator? kinds) (depths depth ys)).2 := by
  have paren : ∀ {t : Token}, t.kind = .openParen ∨ t.kind = .closeParen → ∀ depth,
      separator? kinds (.token t, depth) = none := by
    intro t ht depth
    cases hs : separator? kinds (.token t, depth) with
    | none => rfl
    | some u =>
      obtain rfl := Tree.token.inj (token_of_separator? hs)
      have hkind := (kind_of_separator? hs).1
      rcases ht with ht | ht
      · exact absurd (ht ▸ hkind) ho
      · exact absurd (ht ▸ hkind) hc
  have hfirsts : ∀ (xs : List Tree) (depth : Depth),
      (leaves ((Offside.sections (separator? kinds) (depths depth xs)).1.map Prod.fst)).Sublist
        (leaves xs) := by
    intro xs depth
    have hprefix := (sections_isInfix (separator? kinds) (depths depth xs)).1.map Prod.fst
    rw [map_fst_depths] at hprefix
    exact leaves_sublist hprefix.sublist
  induction h generalizing depth with
  | same span => exact ⟨.same _, List.forall₂_same.mpr fun _ _ => ⟨rfl, .same _⟩⟩
  | @item even tree xs ys plain paired rest ih =>
    obtain ⟨hfirst, hothers⟩ := ih (depth.after tree)
    rw [depths, depths, Offside.sections, Offside.sections]
    cases separator? kinds (tree, depth.after tree) with
    | some t => exact ⟨.same _, .cons ⟨rfl, hfirst⟩ hothers⟩
    | none =>
      exact ⟨.item plain (paired.imp_right fun hx => hx.of_sublist (hfirsts xs _)) hfirst, hothers⟩
  | @parens even n k opener closer items items' xs ys opens closes paired more inside rest ihin ih =>
    obtain ⟨hfirst, hothers⟩ := ih ((depth.after (.token opener)).after (.token closer))
    have hgroup : ∀ (items : List Tree) depth, separator? kinds (.group items, depth) = none :=
      fun _ _ => rfl
    simp only [depths, Offside.sections, paren (.inl opens), paren (.inr closes), hgroup,
      List.map_cons]
    exact ⟨.parens opens closes
      (paired.imp_right (And.imp_right fun hx => hx.of_sublist (hfirsts xs _))) more inside hfirst,
      hothers⟩
  | @unclosed even n k opener items items' opens closed inside ih =>
    have hgroup : ∀ (items : List Tree) depth, separator? kinds (.group items, depth) = none :=
      fun _ _ => rfl
    simp only [depths, Offside.sections, paren (.inl opens), hgroup, List.map_cons, List.map_nil]
    exact ⟨.unclosed opens closed inside, .nil⟩

theorem Renested.cut {kinds : List Kind} (ho : .openParen ∉ kinds) (hc : .closeParen ∉ kinds) :
    Renested even (cut kinds xs).1 (cut kinds ys).1 ∧
      List.Forall₂ (fun c c' => c.1 = c'.1 ∧ Renested even c.2 c'.2)
        (cut kinds xs).2 (cut kinds ys).2 := by
  obtain ⟨hfirst, hothers⟩ := h.sections ho hc .top
  refine ⟨hfirst, ?_⟩
  rw [Offside.cut, Offside.cut]
  exact List.forall₂_map_left_iff.mpr (List.forall₂_map_right_iff.mpr hothers)

theorem Renested.split {kinds : List Kind} (ho : .openParen ∉ kinds) (hc : .closeParen ∉ kinds) :
    List.Forall₂ (Renested even) (split kinds false xs) (split kinds false ys) := by
  obtain ⟨hfirst, hothers⟩ := h.cut ho hc
  rw [Offside.split, Offside.split, isEmpty_eq_of_sameOutside h.sameOutside]
  split
  next => exact .nil
  next =>
    refine .cons hfirst ?_
    exact List.forall₂_map_left_iff.mpr
      (List.forall₂_map_right_iff.mpr (hothers.imp fun _ _ hp => hp.2))

theorem Renested.labelled? :
    Option.Rel (fun d d' => d.1 = d'.1 ∧ Renested even d.2 d'.2) (labelled? xs) (labelled? ys) := by
  have refl : ∀ span, Option.Rel (fun d d' => d.1 = d'.1 ∧ Renested even d.2 d'.2)
      (Offside.labelled? span) (Offside.labelled? span) := by
    intro span
    cases Offside.labelled? span with
    | none => exact .none
    | some d => exact .some ⟨rfl, .same _⟩
  have name : ∀ {t : Token}, t.kind = .openParen → Tree.name? (.token t) = none := by
    intro t ht
    rw [Tree.name?, if_neg (by simp [ht])]
  have notColon : ∀ {t : Token} {tree : Tree} {xs : List Tree}, t.kind = .openParen →
      Offside.labelled? (tree :: .token t :: xs) = none := by
    intro t tree xs ht
    rw [Offside.labelled?]
    cases tree.name? <;> simp [Tree.hasKind, ht]
  cases h with
  | same => exact refl _
  | @item _ tree xs ys plain paired rest =>
    cases rest with
    | same => exact refl _
    | @item _ colon xs ys _ _ rest =>
      rw [Offside.labelled?, Offside.labelled?]
      cases tree.name? with
      | none => exact .none
      | some t =>
        simp only [Option.bind_eq_bind, Option.bind_some]
        split
        next => exact .some ⟨rfl, rest⟩
        next => exact .none
    | parens opens closes paired more inside rest =>
      rw [notColon opens, notColon opens]
      exact .none
    | unclosed opens closed inside =>
      rw [notColon opens, notColon opens]
      exact .none
  | parens opens closes paired more inside rest =>
    simp [Offside.labelled?, name opens]
  | unclosed opens closed inside =>
    simp [Offside.labelled?, name opens]

end

end Offside
