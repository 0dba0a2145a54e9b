import Offside.Proofs.Provenance

namespace Offside

/-- Whether a span is one that the reading of another as a value comes to without going into a
block: its lines are joined, its parentheses grouped, and it is read part by part. -/
inductive Reaches : List Tree → List Tree → Prop where
  | self (span : List Tree) : Reaches span span
  | joined {span target : List Tree} (rest : Reaches (joinLines span) target) : Reaches span target
  | refined {span target : List Tree} (rest : Reaches (regroup (spread span).1) target) :
    Reaches span target
  | inside {span items target : List Tree} (mem : .group items ∈ span)
    (rest : Reaches items target) : Reaches span target
  | part {span part target : List Tree} (within : part <:+: span) (rest : Reaches part target) :
    Reaches span target

/-- Whether what a block of a form holds can be read from a span, when another one follows the
heading of the block. A closure and a sequence are divided once a level of grouping is taken off,
and a function takes one off as well. -/
def BlockForm.HandsOn (span part : List Tree) : BlockForm → Prop
  | imports => False
  | closure =>
    part ∈ splitWhere (·.hasKind .newline) (ungroup (headerAndBody span).2)
  | sequence => part ∈ partsBetween [.comma, .newline] (ungroup span)
  | function => part <:+: ungroup span
  | conditional | otherwise | each | repetition => part <:+: span

section

variable {span part target : List Tree}

theorem Reaches.trans (h : Reaches span part) (h' : Reaches part target) :
    Reaches span target := by
  induction h with
  | self => exact h'
  | joined _ ih => exact .joined (ih h')
  | refined _ ih => exact .refined (ih h')
  | inside mem _ ih => exact .inside mem (ih h')
  | part within _ ih => exact .part within (ih h')

theorem reaches_part (h : part <:+: span) : Reaches span part :=
  .part h (.self part)

theorem reaches_inside {items : List Tree} (h : .group items ∈ span) : Reaches span items :=
  .inside h (.self items)

theorem Reaches.leaves_sublist (h : Reaches span target) :
    (leaves target).Sublist (leaves span) := by
  induction h with
  | self => exact .refl _
  | joined _ ih => exact ih.trans (Offside.leaves_sublist (joinLines_sublist _))
  | refined _ ih =>
    rw [leaves_regroup] at ih
    exact ih.trans (leaves_spread_sublist _)
  | inside mem _ ih =>
    have hgroup := Offside.leaves_sublist (List.singleton_sublist.mpr mem)
    rw [leaves, leaves, List.append_nil] at hgroup
    exact ih.trans hgroup
  | part within _ ih => exact ih.trans (Offside.leaves_sublist within.sublist)

theorem BlockForm.HandsOn.leaves_sublist {form : BlockForm} (h : form.HandsOn span part) :
    (leaves part).Sublist (leaves span) := by
  have hspan := leaves_ungroup span
  cases form with
  | imports => exact h.elim
  | closure =>
    have hpart := Offside.leaves_sublist (isInfix_of_mem_splitWhere h).sublist
    rw [leaves_ungroup] at hpart
    exact hpart.trans (Offside.leaves_sublist (headerAndBody_snd_sublist span))
  | sequence =>
    rw [← hspan]
    exact Offside.leaves_sublist (isInfix_of_mem_partsBetween h).sublist
  | function =>
    rw [← hspan]
    exact Offside.leaves_sublist h.sublist
  | conditional | otherwise | each | repetition => exact Offside.leaves_sublist h.sublist

mutual

theorem Tree.reaches_unwrap (tree : Tree) : Reaches [tree] tree.unwrap := by
  match tree with
  | .token t => exact .self _
  | .group items => exact .inside List.mem_cons_self (Offside.reaches_unwrap items)

theorem reaches_unwrap (span : List Tree) : Reaches span (unwrap span) := by
  match span with
  | [] => exact .self _
  | tree :: span =>
    have htree := Tree.reaches_unwrap tree
    have hspan := reaches_unwrap span
    rw [unwrap]
    split
    next => exact .part (List.suffix_cons tree span).isInfix hspan
    next hk =>
      have hjoin : joinLines (tree :: span) = tree :: joinLines span :=
        List.filter_cons_of_pos (by simp [hk])
      split
      next => exact .part (List.prefix_append [tree] span).isInfix htree
      next next rest hj =>
        rw [← hj, ← hjoin]
        exact .joined (.self _)

end

end

section

variable {r : Readers} {span : List Tree} {v : Value}

theorem exists_part_of_readListed {α : Type} {read : List Tree → Nat → Outcome α}
    {Q : α → Prop} {xs : List α} (h : readListed read span = .ok xs)
    (hread : ∀ part i x, part <:+: span → read part i = .ok x → Q x) : ∀ x ∈ xs, Q x := by
  intro x hx
  obtain ⟨⟨part, i⟩, hm, he⟩ := exists_of_mem_mapM h x hx
  have hpart := List.fst_mem_of_mem_zipIdx hm
  exact hread part i x (isInfix_of_mem_split hpart) he

theorem readClauses_reads {missing : Option Position} {clauses : List (Token × List Tree)}
    {parts : List Part} (h : readClauses r missing clauses = .ok parts) :
    ∀ v, .operand v ∈ parts → ∃ c ∈ clauses, r.value c.2 = .ok v := by
  induction clauses generalizing missing parts with
  | nil =>
    obtain ⟨-, rfl⟩ := readClauses_nil_eq_ok h
    exact fun v hv => by cases hv
  | cons clause clauses ih =>
    obtain ⟨t, operand⟩ := clause
    obtain ⟨rank, rest, -, rfl, hrest⟩ := readClauses_cons_eq_ok h
    have later : ∀ v, (∃ c ∈ clauses, r.value c.2 = .ok v) →
        ∃ c ∈ (t, operand) :: clauses, r.value c.2 = .ok v :=
      fun v ⟨c, hc, hv⟩ => ⟨c, List.mem_cons_of_mem _ hc, hv⟩
    intro v hv
    have hv : .operand v ∈ rest := by
      rcases List.mem_cons.mp hv with he | hv
      · split at he <;> cases he
      · exact hv
    rcases hrest with ⟨-, hrest⟩ | ⟨-, w, others, hw, hothers, rfl⟩
    · exact later v (ih hrest v hv)
    · rcases List.mem_cons.mp hv with he | hv
      · obtain rfl := Part.operand.inj he
        exact ⟨_, List.mem_cons_self, Readers.value_of_valueAt hw⟩
      · exact later v (ih hothers v hv)

theorem readPostfix_reads {items : List Item} (h : readPostfix r span = .ok items) :
    ∀ v ∈ items.flatMap Item.values, ∃ part, part <:+: span ∧ r.value part = .ok v := by
  obtain ⟨parts, hp, h⟩ := bind_eq_ok.mp h
  obtain rfl := Except.ok.inj h
  have clause : ∀ {c : Token × List Tree} {v : Value}, c ∈ (cut [.operator] span).2 →
      r.value c.2 = .ok v → ∃ part, part <:+: span ∧ r.value part = .ok v :=
    fun hc hv => ⟨_, cut_snd_isInfix hc, hv⟩
  intro v hv
  obtain ⟨item, hi, hv⟩ := List.mem_flatMap.mp hv
  obtain ⟨part, hm, rfl⟩ := List.mem_map.mp ((shunt_perm [] parts).subset hi)
  cases part with
  | operand w =>
    obtain rfl := List.mem_singleton.mp hv
    rcases readParts_eq_ok hp with ⟨-, hp⟩ | ⟨-, w, rest, hw, hrest, rfl⟩
    · obtain ⟨c, hc, hv⟩ := readClauses_reads hp v hm
      exact clause hc hv
    · rcases List.mem_cons.mp hm with he | hm
      · obtain rfl := Part.operand.inj he
        exact ⟨_, cut_fst_isPrefix.isInfix, Readers.value_of_valueAt hw⟩
      · obtain ⟨c, hc, hv⟩ := readClauses_reads hrest v hm
        exact clause hc hv
  | binary => cases hv
  | unary => cases hv

/-- Whether a value is a single token, or read from a span that the reading of another one comes
to. -/
def Readers.ReadsPart (r : Readers) (span : List Tree) (v : Value) : Prop :=
  (∃ t, v = .literal t) ∨ ∃ part, Reaches span part ∧ r.value part = .ok v

/-- The parts of a composite expression are tokens or read from spans that are reached from it. -/
theorem readsPart_of_mem_values {shape : Shape} {c : Construct} (hd : shape.Divides span)
    (h : shape.read r = .ok c) (hv : v ∈ c.values) :
    r.ReadsPart span v := by
  have behind : ∀ {tree : Tree} {left right : List Tree}, right <:+: left ++ tree :: right :=
    fun {tree left right} => (List.suffix_append (left ++ [tree]) right).isInfix.trans
      (by rw [List.append_assoc]; exact List.infix_rfl)
  have ahead : ∀ {left right : List Tree}, left <:+: left ++ right :=
    fun {left right} => (List.prefix_append left right).isInfix
  cases hd with
  | returning word =>
    obtain ⟨w, hw, h⟩ := bind_eq_ok.mp h
    obtain rfl := Except.ok.inj h
    obtain rfl := List.mem_singleton.mp hv
    exact .inr ⟨_, reaches_part (List.suffix_cons _ _).isInfix, Readers.value_of_valueAt hw⟩
  | @call callee arguments opener closer opens closes =>
    obtain ⟨pairs, hp, h⟩ := bind_eq_ok.mp h
    obtain ⟨w, hw, h⟩ := bind_eq_ok.mp h
    obtain rfl := Except.ok.inj h
    have hgroup : Tree.group arguments ∈ callee ++ [opener, .group arguments, closer] := by simp
    have hpairs : ∀ e ∈ pairs, True ∧
        r.ReadsPart (callee ++ [opener, .group arguments, closer]) e.2 := by
      refine exists_part_of_readListed hp fun part i e hpart he => ⟨trivial, ?_⟩
      have hreach := (reaches_inside hgroup).trans (reaches_part hpart)
      rcases readArgument_eq_ok he with ⟨t, rest, hl, -, hw⟩ | ⟨-, -, hw⟩
      · obtain ⟨colon, rfl, -⟩ := eq_of_labelled? hl
        exact .inr ⟨rest, hreach.trans (reaches_part (List.suffix_append [_, _] rest).isInfix),
          Readers.value_of_valueAt hw⟩
      · exact .inr ⟨part, hreach, Readers.value_of_valueAt hw⟩
    have hcollected : ∀ e ∈ collect (· == ·) pairs, True ∧
        r.ReadsPart (callee ++ [opener, .group arguments, closer]) e.2 :=
      forall_mem_collect (P := fun _ => True) (Q := r.ReadsPart _) hpairs
    rcases List.mem_cons.mp hv with rfl | hv
    · exact .inr ⟨_, reaches_part ahead, hw⟩
    · obtain ⟨e, he, rfl⟩ := List.mem_map.mp hv
      exact (hcollected e he).2
  | access opens closes =>
    obtain ⟨k, hk, h⟩ := bind_eq_ok.mp h
    obtain ⟨w, hw, h⟩ := bind_eq_ok.mp h
    obtain rfl := Except.ok.inj h
    rcases List.mem_cons.mp hv with rfl | hv
    · exact .inr ⟨_, reaches_part ahead, hw⟩
    · obtain rfl := List.mem_singleton.mp hv
      exact .inr ⟨_, reaches_part (ahead.trans behind), Readers.value_of_valueAt hk⟩
  | chain names isDot =>
    obtain ⟨w, hw, h⟩ := bind_eq_ok.mp h
    obtain rfl := Except.ok.inj h
    obtain rfl := List.mem_singleton.mp hv
    exact .inr ⟨_, reaches_part ahead, hw⟩
  | lambda names isArrow =>
    obtain ⟨w, hw, h⟩ := bind_eq_ok.mp h
    obtain rfl := Except.ok.inj h
    obtain rfl := List.mem_singleton.mp hv
    exact .inr ⟨_, reaches_part behind, Readers.value_of_valueAt hw⟩
  | @dictionary entries opener closer opens closes =>
    obtain ⟨pairs, hp, h⟩ := bind_eq_ok.mp h
    obtain rfl := Except.ok.inj h
    have hentries : Reaches (opener :: (entries ++ [closer])) entries :=
      reaches_part (ahead.trans (List.suffix_cons _ _).isInfix)
    have hpairs : ∀ e ∈ pairs, r.ReadsPart (opener :: (entries ++ [closer])) e.1 ∧
        r.ReadsPart (opener :: (entries ++ [closer])) e.2 := by
      refine exists_part_of_readListed hp fun part i e hpart he => ?_
      have hreach := hentries.trans (reaches_part hpart)
      rcases readEntry_eq_ok he with ⟨left, colon, right, hd, hk, hw⟩ | ⟨-, hk, hw⟩
      · obtain rfl := eq_of_divide? hd
        exact ⟨.inr ⟨left, hreach.trans (reaches_part ahead), Readers.value_of_valueAt hk⟩,
          .inr ⟨right, hreach.trans (reaches_part behind), Readers.value_of_valueAt hw⟩⟩
      · exact ⟨.inl ⟨_, hk⟩, .inr ⟨part, hreach, Readers.value_of_valueAt hw⟩⟩
    obtain ⟨e, he, hv⟩ := List.mem_flatMap.mp hv
    have hentry := forall_mem_collect hpairs e he
    exact forall_mem_pair hentry.1 hentry.2 v hv
  | operation first operator =>
    obtain ⟨items, hi, h⟩ := bind_eq_ok.mp h
    obtain rfl := Except.ok.inj h
    obtain ⟨part, hpart, hw⟩ := readPostfix_reads hi v hv
    exact .inr ⟨part, reaches_part hpart, hw⟩
  | assignment sign =>
    obtain ⟨target, htarget, h⟩ := bind_eq_ok.mp h
    obtain ⟨w, hw, h⟩ := bind_eq_ok.mp h
    obtain rfl := Except.ok.inj h
    rcases List.mem_cons.mp hv with rfl | hv
    · exact .inr ⟨_, reaches_part ahead, Readers.value_of_valueAt htarget⟩
    · obtain rfl := List.mem_singleton.mp hv
      exact .inr ⟨_, reaches_part behind, Readers.value_of_valueAt hw⟩

theorem readsPart_of_readSimple {compound : List Tree → Outcome Value}
    (h : readSimple r span compound = .ok v) : r.ReadsPart span v ∨ compound span = .ok v := by
  rcases readSimple_eq_ok h with ⟨t, -, -, rfl⟩ | ⟨inner, hi, hv⟩ | hv
  · exact .inl (.inl ⟨t, rfl⟩)
  · obtain ⟨opener, closer, rfl, -, -⟩ := eq_of_inParens? hi
    exact .inl (.inr ⟨inner, reaches_inside (by simp), hv⟩)
  · exact .inr hv

/-- What the parts of a block are read from, behind its heading. -/
theorem Block.IsReadFrom.handsOn {heading : Heading} {b : Block}
    (h : b.IsReadFrom r heading span) :
    (∀ s ∈ b.symbols, ∃ part, b.form.HandsOn span part ∧ r.block part = .ok s) ∧
      ∀ v ∈ b.values, ∃ part, b.form.HandsOn span part ∧ r.value part = .ok v := by
  have header := (headerAndBody_fst_isPrefix span).isInfix
  have body := (headerAndBody_snd_isSuffix span).isInfix
  cases b with
  | imports heading symbols => exact ⟨List.forall_mem_nil _, List.forall_mem_nil _⟩
  | closure heading name symbols =>
    obtain ⟨-, -, hsymbols⟩ := h
    refine ⟨?_, List.forall_mem_nil _⟩
    intro s hs
    obtain ⟨part, hpart, hread⟩ := exists_of_mem_mapM hsymbols s hs
    exact ⟨part, (List.mem_filter.mp hpart).1, hread⟩
  | conditional heading condition value =>
    obtain ⟨-, hc, hv⟩ := h
    exact ⟨List.forall_mem_nil _, forall_mem_pair ⟨_, header, hc⟩ ⟨_, body, hv⟩⟩
  | otherwise heading value =>
    exact ⟨List.forall_mem_nil _, List.forall_mem_singleton.mpr ⟨span, List.infix_rfl, h.2⟩⟩
  | sequence heading steps =>
    refine ⟨List.forall_mem_nil _, ?_⟩
    intro v hv
    obtain ⟨part, hpart, hread⟩ := h.2 v hv
    exact ⟨part, mem_partsBetween_of_mem_split (List.mem_filter.mp hpart).1, hread⟩
  | each heading iterator iteratee value =>
    obtain ⟨-, part, hi, ht, hv⟩ := h
    have hpart := (iteration?_isSuffix hi).isInfix.trans header
    exact ⟨List.forall_mem_nil _, forall_mem_pair ⟨part, hpart, ht⟩ ⟨_, body, hv⟩⟩
  | repetition heading count value =>
    obtain ⟨-, hc, hv⟩ := h
    exact ⟨List.forall_mem_nil _, forall_mem_pair ⟨_, header, hc⟩ ⟨_, body, hv⟩⟩
  | function heading name parameters value =>
    obtain ⟨-, part, hp, hv⟩ := h
    have hpart := (functionParts?_isSuffix hp).isInfix
    exact ⟨List.forall_mem_nil _, List.forall_mem_singleton.mpr ⟨part, hpart, hv⟩⟩

end

/-- Each part of a block comes from something that the block hands on. -/
theorem Block.IsReadFrom.exists_handsOn {r : Readers} {heading : Heading} {span : List Tree}
    {b : Block} {n : Node} (h : b.IsReadFrom r heading span) (hr : r.Sound)
    (hn : n ∈ (Node.block b).children) :
    ∃ part, b.form.HandsOn span part ∧ n.IsFrom (leaves part) := by
  obtain ⟨hsymbols, hvalues⟩ := h.handsOn
  rcases List.mem_append.mp hn with hn | hn
  · obtain ⟨x, hx, rfl⟩ := List.mem_map.mp hn
    obtain ⟨part, hands, hread⟩ := hsymbols x hx
    exact ⟨part, hands, hr.block _ _ hread⟩
  · obtain ⟨v, hv, rfl⟩ := List.mem_map.mp hn
    obtain ⟨part, hands, hread⟩ := hvalues v hv
    exact ⟨part, hands, hr.value _ _ hread⟩

theorem Node.Holds.trans {n m k : Node} (h : n.Holds m) (h' : m.Holds k) : n.Holds k := by
  induction h with
  | self => exact h'
  | child mem _ ih => exact .child mem (ih h')

theorem Node.Holds.of_block {b x : Block} (h : (value (.block b)).Holds (block x)) :
    (block b).Holds (block x) := by
  cases h with
  | child mem holds =>
    obtain rfl := List.mem_singleton.mp mem
    exact holds

/-- A block in a value is read, as it is or as a part of another one, from a span that the reading
of the value comes to. -/
theorem exists_block_of_value {n : Nat} {span : List Tree} {v : Value} {x : Block}
    (h : (Readers.below n).value span = .ok v) (holds : (Node.value v).Holds (.block x)) :
    ∃ part b m, m < n ∧ Reaches span part ∧ blockStep (.below m) part = .ok b ∧
      (Node.value v).Holds (.block b) ∧ (Node.block b).Holds (.block x) := by
  induction n generalizing span v with
  | zero => cases h
  | succ n ih =>
    have further : ∀ {target w}, Reaches span target → (Readers.below n).ReadsPart target w →
        (Node.value w).Holds (.block x) → ∃ part b m, m < n + 1 ∧ Reaches span part ∧
          blockStep (.below m) part = .ok b ∧ (Node.value w).Holds (.block b) ∧
            (Node.block b).Holds (.block x) := by
      intro target w hreach hw holds
      rcases hw with ⟨t, rfl⟩ | ⟨part, hpart, hw⟩
      · cases holds with
        | child mem => cases mem
      · obtain ⟨inner, b, m, hm, hinner, hb, hwithin, hx⟩ := ih hw holds
        exact ⟨inner, b, m, by omega, hreach.trans (hpart.trans hinner), hb, hwithin, hx⟩
    obtain ⟨first, rest, hspan, hread⟩ := valueStep_eq_ok h
    have hunwrap := reaches_unwrap span
    rw [hspan] at hunwrap
    rcases hread with ⟨-, b, hb, rfl⟩ | ⟨-, hv⟩
    · have hself : (Node.value (.block b)).Holds (.block b) := .child List.mem_cons_self (.self _)
      exact ⟨_, b, n, Nat.lt_succ_self n, hunwrap, hb, hself, holds.of_block⟩
    · rcases readsPart_of_readSimple hv with hv | hv
      · exact further hunwrap hv holds
      · have hflat := hunwrap.trans (.refined (.self _))
        rcases readsPart_of_readSimple hv with hv | hv
        · exact further hflat hv holds
        · obtain ⟨shape, c, hs, hc, rfl⟩ := readConstruct_eq_ok hv
          cases holds with
          | child mem holds =>
            obtain ⟨w, hw, rfl⟩ := List.mem_map.mp mem
            obtain ⟨part, b, m, hm, hpart, hb, hwithin, hx⟩ :=
              further hflat (readsPart_of_mem_values (divides_of_shape? hs) hc hw) holds
            exact ⟨part, b, m, hm, hpart, hb, .child mem hwithin, hx⟩

end Offside
