import Offside.Proofs.Descent
import Offside.Proofs.ReadingEquations
import Offside.Proofs.TreeShape
import Offside.Report

namespace Offside

theorem bind_eq_error {ε α β : Type} {x : Except ε α} {f : α → Except ε β} {e : ε} :
    (x >>= f) = .error e ↔ x = .error e ∨ ∃ a, x = .ok a ∧ f a = .error e := by
  cases x <;> simp [bind, Except.bind]

theorem exists_of_mapM_error {ε α β : Type} {f : α → Except ε β} {xs : List α} {e : ε}
    (h : xs.mapM f = .error e) : ∃ x ∈ xs, f x = .error e := by
  induction xs with
  | nil => cases h
  | cons x xs ih =>
    rw [List.mapM_cons] at h
    rcases bind_eq_error.mp h with h | ⟨first, -, h⟩
    · exact ⟨x, List.mem_cons_self, h⟩
    · rcases bind_eq_error.mp h with h | ⟨rest, -, h⟩
      · obtain ⟨y, hy, he⟩ := ih h
        exact ⟨y, List.mem_cons_of_mem _ hy, he⟩
      · cases h

/-- Whether a position is where a token of a span begins, as far as it is known. -/
def Position.IsIn (p : Position) (span : List Tree) : Prop :=
  p = .unknown ∨ p ∈ (leaves span).map (·.span.start)

section

variable {p q : Position} {part span : List Tree}

theorem Position.IsIn.mono (h : p.IsIn part) (hs : (leaves part).Sublist (leaves span)) :
    p.IsIn span :=
  h.imp_right fun hp => (hs.map _).subset hp

theorem Position.IsIn.orElse (hp : p.IsIn span) (hq : q.IsIn span) : (p.orElse q).IsIn span := by
  cases p with
  | unknown => exact hq
  | within source offset => exact hp

theorem start_isIn {t : Token} (h : t ∈ leaves span) : t.span.start.IsIn span :=
  .inr (List.mem_map.mpr ⟨t, h, rfl⟩)

theorem origin_isIn (span : List Tree) : (origin span).IsIn span := by
  rw [origin, firstLeaf?]
  cases hl : leaves span with
  | nil => exact .inl rfl
  | cons t rest => exact start_isIn (by rw [hl]; exact List.mem_cons_self)

theorem treeStart_isIn {tree : Tree} (h : tree ∈ span) : tree.start.IsIn span :=
  (origin_isIn [tree]).mono (leaves_sublist (List.singleton_sublist.mpr h))

theorem Position.orElse_ne_unknown (h : q ≠ .unknown) : p.orElse q ≠ .unknown := by
  cases p with
  | unknown => exact h
  | within source offset => exact fun he => by cases he

end

/-- Whether what is refused in a span is refused at a token of it, or nowhere. -/
structure Readers.PointInside (r : Readers) : Prop where
  value : ∀ span d, r.value span = .error d → d.position.IsIn span
  block : ∀ span d, r.block span = .error d → d.position.IsIn span

theorem error_of_valueAt {r : Readers} {part : List Tree} {p : Position} {d : Diagnostic}
    (h : r.valueAt part p = .error d) :
    ∃ d', r.value part = .error d' ∧ d.position = d'.position.orElse p := by
  rw [Readers.valueAt] at h
  cases hv : r.value part with
  | ok v =>
    rw [hv] at h
    cases h
  | error d' =>
    rw [hv] at h
    obtain rfl := Except.error.inj h
    exact ⟨d', rfl, rfl⟩

theorem refuse_eq_error {α : Type} {cause : Cause} {p : Position} {d : Diagnostic}
    (h : (refuse cause p : Outcome α) = .error d) : d.position = p := by
  obtain rfl := Except.error.inj h
  rfl

section

variable {r : Readers} (hr : r.PointInside) {span : List Tree} {d : Diagnostic}

include hr

theorem Readers.PointInside.valueAt {part : List Tree} {p : Position}
    (h : r.valueAt part p = .error d) (hs : (leaves part).Sublist (leaves span))
    (hp : p.IsIn span) : d.position.IsIn span := by
  obtain ⟨d', hv, he⟩ := error_of_valueAt h
  rw [he]
  exact ((hr.value part d' hv).mono hs).orElse hp

theorem isIn_of_readArgument {opener : Position} {part : List Tree} {i : Nat}
    (hs : (leaves part).Sublist (leaves span)) (ho : opener.IsIn span)
    (h : readArgument r opener part i = .error d) : d.position.IsIn span := by
  unfold readArgument at h
  split at h
  next t rest hl =>
    obtain ⟨ht, hrest⟩ := labelled?_parts hl
    rcases bind_eq_error.mp h with h | ⟨v, -, h⟩
    · exact hr.valueAt h ((leaves_sublist hrest).trans hs)
        ((start_isIn (mem_leaves_of_token_mem ht)).mono hs)
    · cases h
  next =>
    rcases bind_eq_error.mp h with h | ⟨v, -, h⟩
    · exact hr.valueAt h hs ho
    · cases h

theorem isIn_of_readEntry {opener : Position} {part : List Tree} {i : Nat}
    (hs : (leaves part).Sublist (leaves span)) (ho : opener.IsIn span)
    (h : readEntry r opener part i = .error d) : d.position.IsIn span := by
  unfold readEntry at h
  split at h
  next left colon right hd =>
    obtain rfl := eq_of_divide? hd
    have hcolon : colon.span.start.IsIn span :=
      (start_isIn (mem_leaves_of_token_mem
        (List.mem_append_right left List.mem_cons_self))).mono hs
    have hleft : left.Sublist (left ++ .token colon :: right) := List.sublist_append_left _ _
    have hright : right.Sublist (left ++ .token colon :: right) := sublist_behind _ _ _
    rcases bind_eq_error.mp h with h | ⟨key, -, h⟩
    · exact hr.valueAt h ((leaves_sublist hleft).trans hs) hcolon
    · rcases bind_eq_error.mp h with h | ⟨v, -, h⟩
      · exact hr.valueAt h ((leaves_sublist hright).trans hs) hcolon
      · cases h
  next =>
    rcases bind_eq_error.mp h with h | ⟨v, -, h⟩
    · exact hr.valueAt h hs (((origin_isIn part).mono hs).orElse ho)
    · cases h

omit hr in
theorem isIn_of_readListed {α : Type} {read : List Tree → Nat → Outcome α} {items : List Tree}
    (hs : (leaves items).Sublist (leaves span))
    (hread : ∀ part i, (leaves part).Sublist (leaves span) → read part i = .error d →
      d.position.IsIn span)
    (h : readListed read items = .error d) : d.position.IsIn span := by
  obtain ⟨⟨part, i⟩, hm, he⟩ := exists_of_mapM_error h
  have hpart : part ∈ split [.comma] false items := List.fst_mem_of_mem_zipIdx hm
  exact hread part i ((leaves_sublist (sublist_of_mem_split hpart)).trans hs) he

theorem isIn_of_readClauses {clauses : List (Token × List Tree)}
    (tokens : ∀ c ∈ clauses, c.1 ∈ leaves span)
    (spans : ∀ c ∈ clauses, (leaves c.2).Sublist (leaves span)) {missing : Option Position}
    (hmissing : ∀ p ∈ missing, p.IsIn span) (h : readClauses r missing clauses = .error d) :
    d.position.IsIn span := by
  induction clauses generalizing missing with
  | nil =>
    cases missing with
    | some p =>
      rw [refuse_eq_error h]
      exact hmissing p rfl
    | none => cases h
  | cons c clauses ih =>
    obtain ⟨t, operand⟩ := c
    have ht := start_isIn (tokens (t, operand) List.mem_cons_self)
    have hs := spans (t, operand) List.mem_cons_self
    have ih := fun m => @ih (fun c hc => tokens c (List.mem_cons_of_mem _ hc))
      (fun c hc => spans c (List.mem_cons_of_mem _ hc)) m
    rw [readClauses] at h
    rcases bind_eq_error.mp h with h | ⟨rank, -, h⟩
    · unfold operatorRank at h
      split at h
      next => cases h
      next =>
        rw [refuse_eq_error h]
        exact ht
    · dsimp only at h
      split at h
      next =>
        rcases bind_eq_error.mp h with h | ⟨parts, -, h⟩
        · refine ih _ (fun p hp => ?_) h
          obtain rfl := Option.mem_some.mp hp
          exact ht
        · cases h
      next =>
        rcases bind_eq_error.mp h with h | ⟨v, -, h⟩
        · exact hr.valueAt h hs ((origin_isIn operand).mono hs)
        · rcases bind_eq_error.mp h with h | ⟨parts, -, h⟩
          · exact ih _ (fun p hp => by cases hp) h
          · cases h

theorem isIn_of_readPostfix (h : readPostfix r span = .error d) : d.position.IsIn span := by
  have hfirst : (leaves (cut [.operator] span).1).Sublist (leaves span) :=
    leaves_sublist cut_fst_sublist
  have tokens : ∀ c ∈ (cut [.operator] span).2, c.1 ∈ leaves span :=
    fun c hc => mem_leaves_of_token_mem (mem_of_mem_cut hc)
  have spans : ∀ c ∈ (cut [.operator] span).2, (leaves c.2).Sublist (leaves span) :=
    fun c hc => leaves_sublist (cut_snd_sublist hc)
  rcases bind_eq_error.mp h with h | ⟨parts, -, h⟩
  · rw [readParts] at h
    generalize cut [.operator] span = sections at *
    obtain ⟨first, clauses⟩ := sections
    split at h
    next clauses' heq =>
      obtain ⟨-, rfl⟩ := Prod.mk.inj heq
      refine isIn_of_readClauses hr tokens spans (fun p hp => ?_) h
      obtain rfl := Option.mem_some.mp hp
      exact origin_isIn span
    next first' clauses' _ heq =>
      obtain ⟨rfl, rfl⟩ := Prod.mk.inj heq
      rcases bind_eq_error.mp h with h | ⟨v, -, h⟩
      · exact hr.valueAt h hfirst ((origin_isIn first).mono hfirst)
      · rcases bind_eq_error.mp h with h | ⟨rest, -, h⟩
        · exact isIn_of_readClauses hr tokens spans (fun p hp => by cases hp) h
        · cases h
  · cases h

theorem isIn_of_readShape {shape : Shape} (hd : shape.Divides span)
    (h : shape.read r = .error d) : d.position.IsIn span := by
  cases hd with
  | @returning keyword value word =>
    rcases bind_eq_error.mp h with h | ⟨v, -, h⟩
    · exact hr.valueAt h (leaves_sublist (List.sublist_cons_self _ _))
        (treeStart_isIn List.mem_cons_self)
    · cases h
  | @call callee arguments opener closer opens closes =>
    have hopener : opener.start.IsIn (callee ++ [opener, .group arguments, closer]) :=
      treeStart_isIn (List.mem_append_right _ List.mem_cons_self)
    have harguments : (leaves arguments).Sublist
        (leaves (callee ++ [opener, .group arguments, closer])) := by
      rw [leaves_append]
      have hgroup : (leaves arguments).Sublist (leaves [.group arguments, closer]) :=
        List.sublist_append_left _ _
      exact (hgroup.trans (List.sublist_append_right _ _)).trans (List.sublist_append_right _ _)
    rcases bind_eq_error.mp h with h | ⟨pairs, -, h⟩
    · exact isIn_of_readListed harguments
        (fun part i hs he => isIn_of_readArgument hr hs hopener he) h
    · rcases bind_eq_error.mp h with h | ⟨v, -, h⟩
      · exact (hr.value callee d h).mono (leaves_sublist (List.sublist_append_left _ _))
      · cases h
  | @access subject key opener closer opens closes =>
    have hopener : opener.start.IsIn (subject ++ opener :: (key ++ [closer])) :=
      treeStart_isIn (List.mem_append_right _ List.mem_cons_self)
    have hkey : key.Sublist (subject ++ opener :: (key ++ [closer])) :=
      ((List.sublist_append_left _ _).cons opener).trans (List.sublist_append_right _ _)
    rcases bind_eq_error.mp h with h | ⟨k, -, h⟩
    · exact hr.valueAt h (leaves_sublist hkey) hopener
    · rcases bind_eq_error.mp h with h | ⟨v, -, h⟩
      · exact (hr.value subject d h).mono (leaves_sublist (List.sublist_append_left _ _))
      · cases h
  | @chain subject rest dot accessors names =>
    rcases bind_eq_error.mp h with h | ⟨v, -, h⟩
    · exact (hr.value subject d h).mono (leaves_sublist (List.sublist_append_left _ _))
    · cases h
  | @lambda head body arrow parameters names =>
    have hbody : body.Sublist (head ++ .token arrow :: body) := sublist_behind _ _ _
    rcases bind_eq_error.mp h with h | ⟨v, -, h⟩
    · exact hr.valueAt h (leaves_sublist hbody) (start_isIn (mem_leaves_of_token_mem
        (List.mem_append_right _ List.mem_cons_self)))
    · cases h
  | @dictionary entries opener closer opens closes =>
    have hentries : (leaves entries).Sublist (leaves (opener :: (entries ++ [closer]))) :=
      leaves_sublist ((List.sublist_append_left _ _).cons opener)
    rcases bind_eq_error.mp h with h | ⟨pairs, -, h⟩
    · exact isIn_of_readListed hentries
        (fun part i hs he => isIn_of_readEntry hr hs (treeStart_isIn List.mem_cons_self) he) h
    · cases h
  | operation first operator =>
    rcases bind_eq_error.mp h with h | ⟨items, -, h⟩
    · exact isIn_of_readPostfix hr h
    · cases h
  | @assignment left right t sign =>
    have ht : t.span.start.IsIn (left ++ .token t :: right) :=
      start_isIn (mem_leaves_of_token_mem (List.mem_append_right _ List.mem_cons_self))
    have hright : right.Sublist (left ++ .token t :: right) := sublist_behind _ _ _
    rcases bind_eq_error.mp h with h | ⟨target, -, h⟩
    · exact hr.valueAt h (leaves_sublist (List.sublist_append_left _ _)) ht
    · rcases bind_eq_error.mp h with h | ⟨v, -, h⟩
      · exact hr.valueAt h (leaves_sublist hright) ht
      · cases h

omit hr in
theorem error_of_valueAt_bind {α : Type} {part : List Tree} {position : Position}
    {f : Value → Outcome α} (hs : (leaves part).Sublist (leaves span)) (hf : ∀ v, f v ≠ .error d)
    (h : (r.valueAt part position >>= f) = .error d) :
    ∃ part, (leaves part).Sublist (leaves span) ∧ r.valueAt part position = .error d := by
  rcases bind_eq_error.mp h with h | ⟨v, -, h⟩
  · exact ⟨part, hs, h⟩
  · exact absurd h (hf v)

omit hr in
theorem error_of_valueAt_bind₂ {α : Type} {header body : List Tree} {position : Position}
    {f : Value → Value → Outcome α} (hheader : (leaves header).Sublist (leaves span))
    (hbody : (leaves body).Sublist (leaves span)) (hf : ∀ v w, f v w ≠ .error d)
    (h : (r.valueAt header position >>= fun v => r.valueAt body position >>= f v) = .error d) :
    ∃ part, (leaves part).Sublist (leaves span) ∧ r.valueAt part position = .error d := by
  rcases bind_eq_error.mp h with h | ⟨v, -, h⟩
  · exact ⟨header, hheader, h⟩
  · exact error_of_valueAt_bind hbody (hf v) h

omit hr in
/-- What a block is refused for: its own form, a value in it, or a symbol of a closure. Only the
last is not placed at the keyword. -/
theorem error_of_readBody {form : BlockForm} {heading : Heading}
    (h : form.readBody r heading span = .error d) :
    d.position = heading.origin ∨
      (∃ part, (leaves part).Sublist (leaves span) ∧
        r.valueAt part heading.origin = .error d) ∨
      ∃ part ∈ (splitWhere (·.hasKind .newline) (ungroup (headerAndBody span).2)).filter
          (!·.isEmpty), r.block part = .error d := by
  have hheader := leaves_sublist (headerAndBody_fst_sublist span)
  have hbody := leaves_sublist (headerAndBody_snd_sublist span)
  cases form with
  | imports =>
    rw [BlockForm.readBody] at h
    split at h
    next => cases h
    next => exact .inl (refuse_eq_error h)
  | closure =>
    rw [BlockForm.readBody] at h
    dsimp only at h
    split at h
    next =>
      rcases bind_eq_error.mp h with h | ⟨symbols, -, h⟩
      · exact .inr (.inr (exists_of_mapM_error h))
      · cases h
    next => exact .inl (refuse_eq_error h)
  | conditional =>
    rw [BlockForm.readBody] at h
    dsimp only at h
    split at h
    next => exact .inl (refuse_eq_error h)
    next => exact .inr (.inl (error_of_valueAt_bind₂ hheader hbody (fun v w he => by cases he) h))
  | otherwise => exact .inr (.inl (error_of_valueAt_bind (.refl _) (fun v he => by cases he) h))
  | sequence =>
    rcases bind_eq_error.mp h with h | ⟨steps, -, h⟩
    · obtain ⟨part, hp, he⟩ := exists_of_mapM_error h
      exact .inr (.inl ⟨part, leaves_sublist_of_mem_stepsOf hp, he⟩)
    · split at h
      next => exact .inl (refuse_eq_error h)
      next => cases h
  | each =>
    rw [BlockForm.readBody] at h
    dsimp only at h
    split at h
    next iterator part hi =>
      split at h
      next => exact .inl (refuse_eq_error h)
      next =>
        have hpart := (leaves_sublist (iteration?_sublist hi)).trans hheader
        exact .inr (.inl (error_of_valueAt_bind₂ hpart hbody (fun v w he => by cases he) h))
    next => exact .inl (refuse_eq_error h)
  | repetition =>
    rw [BlockForm.readBody] at h
    dsimp only at h
    split at h
    next => exact .inl (refuse_eq_error h)
    next => exact .inr (.inl (error_of_valueAt_bind₂ hheader hbody (fun v w he => by cases he) h))
  | function =>
    rw [BlockForm.readBody] at h
    dsimp only at h
    split at h
    next name parameters part hp =>
      have hpart := leaves_functionParts?_sublist hp
      exact .inr (.inl (error_of_valueAt_bind hpart (fun v he => by cases he) h))
    next => exact .inl (refuse_eq_error h)

omit hr in
/-- What a span that should be a block is refused for. -/
theorem error_of_blockStep (h : blockStep r span = .error d) :
    d.position = origin span ∨
      ∃ form heading body, heading? form span = some (heading, body) ∧
        form.readBody r heading body = .error d := by
  unfold blockStep at h
  split at h
  next => exact .inl (refuse_eq_error h)
  next => exact .inl (refuse_eq_error h)
  next t rest =>
    split at h
    next form hform =>
      rcases bind_eq_error.mp h with h | ⟨⟨heading, body⟩, hh, h⟩
      · unfold readHeading at h
        split at h
        next => cases h
        next => exact .inl (refuse_eq_error h)
      · exact .inr ⟨form, heading, body, heading?_of_readHeading hh, h⟩
    next => exact .inl (refuse_eq_error h)

theorem isIn_of_blockStep (h : blockStep r span = .error d) : d.position.IsIn span := by
  rcases error_of_blockStep h with he | ⟨form, heading, body, hh, he⟩
  · rw [he]
    exact origin_isIn span
  · obtain ⟨t, rest, rfl, horigin, hsuffix, -⟩ := heading?_parts hh
    have hbody := (leaves_sublist hsuffix.sublist).trans
      (leaves_sublist (List.sublist_cons_self (.token t) rest))
    have ht : heading.origin.IsIn (.token t :: rest) := by
      rw [horigin]
      exact start_isIn List.mem_cons_self
    rcases error_of_readBody he with hp | ⟨part, hs, hv⟩ | ⟨part, hm, hb⟩
    · rw [hp]
      exact ht
    · exact hr.valueAt hv (hs.trans hbody) ht
    · have hpart := leaves_sublist (sublist_of_mem_splitWhere (List.mem_filter.mp hm).1)
      rw [leaves_ungroup] at hpart
      have hinside := hpart.trans (leaves_sublist (headerAndBody_snd_sublist body))
      exact (hr.block part d hb).mono (hinside.trans hbody)

theorem isIn_of_readSimple {compound : List Tree → Outcome Value}
    (hc : compound span = .error d → d.position.IsIn span)
    (h : readSimple r span compound = .error d) : d.position.IsIn span := by
  unfold readSimple at h
  split at h
  next => cases h
  next =>
    split at h
    next inner hi => exact (hr.value inner d h).mono (leaves_inParens?_sublist hi)
    next => exact hc h

theorem isIn_of_readConstruct (h : readConstruct r span = .error d) : d.position.IsIn span := by
  unfold readConstruct at h
  split at h
  next shape hs =>
    rcases bind_eq_error.mp h with h | ⟨construct, -, h⟩
    · exact isIn_of_readShape hr (divides_of_shape? hs) h
    · cases h
  next =>
    rw [refuse_eq_error h]
    exact origin_isIn span

theorem isIn_of_readFlat (h : readFlat r span = .error d) : d.position.IsIn span := by
  refine (isIn_of_readSimple hr (fun he => isIn_of_readConstruct hr he) h).mono ?_
  rw [leaves_regroup]
  exact leaves_spread_sublist span

theorem isIn_of_valueStep (h : valueStep r span = .error d) : d.position.IsIn span := by
  have hu := leaves_unwrap_sublist span
  unfold valueStep at h
  split at h
  next => exact .inl (refuse_eq_error h)
  next first rest hspan =>
    rw [hspan] at hu
    split at h
    next =>
      rcases bind_eq_error.mp h with h | ⟨b, -, h⟩
      · exact (isIn_of_blockStep hr h).mono hu
      · cases h
    next => exact (isIn_of_readSimple hr (fun he => isIn_of_readFlat hr he) h).mono hu

end

theorem below_pointInside (n : Nat) : (Readers.below n).PointInside := by
  induction n with
  | zero =>
    exact ⟨fun span d h => .inl (refuse_eq_error h), fun span d h => .inl (refuse_eq_error h)⟩
  | succ n ih =>
    exact ⟨fun span d h => isIn_of_valueStep ih h, fun span d h => isIn_of_blockStep ih h⟩

theorem readers_pointInside : readers.PointInside :=
  ⟨fun span d h => (below_pointInside (leafCount span + 1)).value span d h,
    fun span d h => (below_pointInside (leafCount span + 1)).block span d h⟩

/-- Whether every group in a span has something in it, whatever its depth. -/
inductive IsFilled : List Tree → Prop
  | intro {span : List Tree} (nonempty : ∀ items, .group items ∈ span → items ≠ [])
    (inside : ∀ items, .group items ∈ span → IsFilled items) : IsFilled span

section

variable {part span : List Tree}

theorem IsFilled.subset (h : IsFilled span) (hs : part ⊆ span) : IsFilled part := by
  obtain ⟨nonempty, inside⟩ := h
  exact ⟨fun items hm => nonempty items (hs hm), fun items hm => inside items (hs hm)⟩

theorem IsFilled.append {xs ys : List Tree} (hx : IsFilled xs) (hy : IsFilled ys) :
    IsFilled (xs ++ ys) := by
  obtain ⟨nonempty, inside⟩ := hx
  obtain ⟨nonempty', inside'⟩ := hy
  constructor
  · intro items hm
    exact (List.mem_append.mp hm).elim (nonempty items) (nonempty' items)
  · intro items hm
    exact (List.mem_append.mp hm).elim (inside items) (inside' items)

theorem isFilled_map_token (tokens : List Token) : IsFilled (tokens.map .token) := by
  have none : ∀ items, Tree.group items ∉ tokens.map Tree.token := by
    intro items hm
    obtain ⟨t, -, he⟩ := List.mem_map.mp hm
    cases he
  exact ⟨fun items hm => absurd hm (none items), fun items hm => absurd hm (none items)⟩

theorem isFilled_group {items : List Tree} (nonempty : items ≠ []) (h : IsFilled items) :
    IsFilled [.group items] := by
  have sole : ∀ items', Tree.group items' ∈ [Tree.group items] → items' = items :=
    fun items' hm => Tree.group.inj (List.mem_singleton.mp hm)
  refine ⟨fun items' hm => ?_, fun items' hm => ?_⟩
  · rw [sole items' hm]
    exact nonempty
  · rw [sole items' hm]
    exact h

theorem IsFilled.ungroup (h : IsFilled span) : IsFilled (ungroup span) := by
  obtain ⟨nonempty, inside⟩ := h
  have within : ∀ items, Tree.group items ∈ Offside.ungroup span →
      items ≠ [] ∧ IsFilled items := by
    intro items hm
    obtain ⟨tree, htree, hm⟩ := List.mem_flatMap.mp hm
    cases tree with
    | token t => cases List.mem_singleton.mp hm
    | group outer =>
      obtain ⟨nonempty', inside'⟩ := inside outer htree
      exact ⟨nonempty' items hm, inside' items hm⟩
  exact ⟨fun items hm => (within items hm).1, fun items hm => (within items hm).2⟩

theorem IsFilled.leaves_ne_nil (h : IsFilled span) (hne : span ≠ []) : leaves span ≠ [] := by
  induction h with
  | @intro span nonempty inside ih =>
    cases span with
    | nil => exact absurd rfl hne
    | cons tree rest =>
      rw [leaves]
      cases tree with
      | token t => exact fun he => by cases he
      | group items =>
        have hitems := ih items List.mem_cons_self (nonempty items List.mem_cons_self)
        exact fun he => hitems (List.append_eq_nil_iff.mp he).1

/-- The lines of a program leave no group empty. -/
theorem LaidOut.isFilled {lines : List (List Token)} (h : LaidOut lines span) : IsFilled span := by
  induction h with
  | nil => exact isFilled_map_token []
  | @alone line lines rest mark below ih =>
    exact (isFilled_map_token (.lineBreak mark :: line.filter (·.kind != .whitespace))).append ih
  | @heading line run lines items rest mark nonempty inside below ihrun ihrest =>
    have hitems : items ≠ [] := by
      intro he
      rw [he] at inside
      cases inside
      exact nonempty rfl
    exact (isFilled_map_token (.lineBreak mark :: line.filter (·.kind != .whitespace))).append
      ((isFilled_group hitems ihrun).append ihrest)

/-- A block in such a span is never refused nowhere. -/
theorem error_of_readBlock {d : Diagnostic} (filled : IsFilled span) (hne : span ≠ [])
    (known : ∀ t ∈ leaves span, t.span.start ≠ .unknown) (h : readBlock span = .error d) :
    d.position ≠ .unknown := by
  induction hn : leafCount span using Nat.strongRecOn generalizing span d with
  | ind n ih =>
    rw [readBlock_eq] at h
    rcases error_of_blockStep h with he | ⟨form, heading, body, hh, he⟩
    · rw [he, origin, firstLeaf?]
      cases hl : leaves span with
      | nil => exact absurd hl (filled.leaves_ne_nil hne)
      | cons t rest => exact known t (by rw [hl]; exact List.mem_cons_self)
    · obtain ⟨t, rest, rfl, horigin, hsuffix, -⟩ := heading?_parts hh
      have ht : heading.origin ≠ .unknown := by
        rw [horigin]
        exact known t List.mem_cons_self
      rcases error_of_readBody he with hp | ⟨part, -, hv⟩ | ⟨part, hm, hb⟩
      · rwa [hp]
      · obtain ⟨d', -, hp⟩ := error_of_valueAt hv
        rw [hp]
        exact Position.orElse_ne_unknown ht
      · -- the body of a closure is taken from the tree as it is
        obtain ⟨hm, hnonempty⟩ := List.mem_filter.mp hm
        have hpart := sublist_of_mem_splitWhere hm
        have hbody : (headerAndBody body).2 ⊆ .token t :: rest :=
          fun x hx => List.mem_cons_of_mem _
            (hsuffix.subset ((headerAndBody_snd_sublist body).subset hx))
        have hinside : IsFilled part := ((filled.subset hbody).ungroup).subset hpart.subset
        have hleaves : (leaves part).Sublist (leaves rest) := by
          have hl := leaves_sublist hpart
          rw [leaves_ungroup] at hl
          exact (hl.trans (leaves_sublist (headerAndBody_snd_sublist body))).trans
            (leaves_sublist hsuffix.sublist)
        refine ih (leafCount part) ?_ hinside (by simpa using hnonempty)
          (fun u hu => known u (List.mem_cons_of_mem _ (hleaves.subset hu))) hb rfl
        have hle : leafCount part ≤ leafCount rest := hleaves.length_le
        rw [leafCount_token_cons] at hn
        omega

end

/-- The unit divides an indentation, or the program is refused where that indentation begins. -/
theorem error_of_indentFrom {unit? : Option String} {fresh : Bool} {tokens : List Token}
    {d : Diagnostic} (h : indentFrom unit? fresh tokens = .error d) :
    ∃ t ∈ tokens, d.position = t.span.start := by
  have behind : ∀ {t : Token} {tokens : List Token},
      (∃ u ∈ tokens, d.position = u.span.start) →
      ∃ u ∈ t :: tokens, d.position = u.span.start :=
    fun ⟨u, hu, hp⟩ => ⟨u, List.mem_cons_of_mem _ hu, hp⟩
  fun_induction indentFrom unit? fresh tokens with
  | case1 => cases h
  | case2 unit? fresh t tokens hk hfresh unit width whole ih =>
    rcases bind_eq_error.mp h with h | ⟨rest, -, h⟩
    · exact behind (ih h)
    · cases h
  | case3 unit? fresh t tokens hk hfresh unit width whole =>
    exact ⟨t, List.mem_cons_self, refuse_eq_error h⟩
  | case4 unit? fresh t tokens hk hfresh ih => exact behind (ih h)
  | case5 unit? fresh t tokens hk ih =>
    rcases bind_eq_error.mp h with h | ⟨rest, -, h⟩
    · exact behind (ih h)
    · cases h
  | case6 unit? fresh t tokens hw hn ih =>
    rcases bind_eq_error.mp h with h | ⟨rest, -, h⟩
    · exact behind (ih h)
    · cases h

/-- What is refused in the tree of some lines is refused at one of their tokens. -/
theorem error_of_programOf {source : Source} {lines : List (List Token)} {d : Diagnostic}
    (nonempty : ∀ line ∈ lines, line ≠ []) (known : .unknown ∉ starts lines)
    (h : programOf source (nest lines) = .error d) : d.position ∈ starts lines := by
  rcases bind_eq_error.mp h with h | ⟨symbols, -, h⟩
  · obtain ⟨part, hm, hb⟩ := exists_of_mapM_error h
    obtain ⟨hm, hpart⟩ := List.mem_filter.mp hm
    have hs := sublist_of_mem_splitWhere hm
    have hstart : ∀ t ∈ leaves part, t.span.start ∈ starts lines :=
      fun t ht => starts_leaves_nest ((leaves_sublist hs).subset ht)
    have hplace : d.position ≠ .unknown :=
      error_of_readBlock ((laidOut_nest lines nonempty).isFilled.subset hs.subset)
        (by simpa using hpart) (fun t ht hu => known (hu ▸ hstart t ht)) hb
    obtain ⟨t, ht, he⟩ :=
      List.mem_map.mp ((readers_pointInside.block part d hb).resolve_left hplace)
    rw [← he]
    exact hstart t ht
  · cases h

theorem mem_starts_of_programOf {source : Source} {tokens indented : List Token} {d : Diagnostic}
    (hi : indent tokens = .ok indented) (known : ∀ t ∈ tokens, t.span.start ≠ .unknown)
    (h : programOf source (nest (lines indented)) = .error d) :
    d.position ∈ tokens.map (·.span.start) := by
  have hstarts : starts (lines indented) ⊆ tokens.map (·.span.start) :=
    (((flatten_lines_sublist indented).map _).trans (indentFrom_starts hi)).subset
  refine hstarts (error_of_programOf (fun line hl => (whole_of_mem_lines indented line hl).1) ?_ h)
  intro hu
  obtain ⟨t, ht, he⟩ := List.mem_map.mp (hstarts hu)
  exact known t ht he

/-- A report names the unknown place only if the place is unknown. -/
theorem unknown_notMem_reportLines {d : Diagnostic} (h : d.position ≠ .unknown) :
    "  at <unknown>" ∉ d.reportLines := by
  obtain ⟨cause, position⟩ := d
  cases position with
  | unknown => exact absurd rfl h
  | within source offset =>
    have apart : ∀ (c : Char) (line : String), c ∉ "  at <unknown>".toList → c ∈ line.toList →
        "  at <unknown>" ≠ line := fun c line hc hm he => hc (he ▸ hm)
    have hheadline : "  at <unknown>" ≠ cause.headline := by
      cases cause with
      | invalidBlock form => cases form <;> decide
      | _ => simp [Cause.headline]
    have htip : "  at <unknown>" ∉ tipLine cause := by
      unfold tipLine
      split
      next tip _ =>
        rw [List.mem_singleton]
        exact apart '=' _ (by decide) (by simp)
      next => exact List.not_mem_nil
    simp only [Diagnostic.reportLines, List.mem_cons, List.mem_append, List.not_mem_nil, or_false,
      not_or]
    refine ⟨⟨hheadline, apart ':' _ (by decide) ?_, apart '|' _ (by decide) ?_,
      apart '|' _ (by decide) ?_, apart '|' _ (by decide) ?_⟩, htip⟩
    all_goals simp [alignRight]

/-- A program is refused at a place in its source: where a token of it begins, or, if lexing gets
stuck, at the first character no token begins with. The report shows that place. -/
theorem readProgram_refuses_within_source {strategy : Strategy} {source : Source} {d : Diagnostic}
    (h : readProgram strategy source = .error d) :
    (∃ offset, d.position = .within source offset ∧ offset < byteLength source.text.toList) ∧
      ((∃ tokens, tokensOf strategy source = .ok tokens ∧ ∃ t ∈ tokens, d.position = t.span.start) ∨
        strategy = .classic ∧ ∃ pieces c rest,
          CutsInto (c :: rest) source.text.toList pieces ∧ IsStuck (c :: rest) ∧
            d.position = .within source (byteLength pieces.flatten)) ∧
      "  at <unknown>" ∉ d.reportLines := by
  suffices hplace : (∃ tokens, tokensOf strategy source = .ok tokens ∧
        ∃ t ∈ tokens, d.position = t.span.start) ∨
      strategy = .classic ∧ ∃ pieces c rest,
        CutsInto (c :: rest) source.text.toList pieces ∧ IsStuck (c :: rest) ∧
          d.position = .within source (byteLength pieces.flatten) by
    have hoffset : ∃ offset, d.position = .within source offset ∧
        offset < byteLength source.text.toList := by
      rcases hplace with ⟨tokens, ht, t, hm, hp⟩ | ⟨-, pieces, c, rest, hcut, -, hp⟩
      · obtain ⟨k, hstart, -, hle, hne⟩ := span_of_mem_tokensOf ht hm
        obtain ⟨c, text, hc⟩ := List.exists_cons_of_ne_nil hne
        have hpos := c.utf8Size_pos
        rw [hc, byteLength_cons] at hle
        exact ⟨k, hp.trans hstart, by omega⟩
      · have hpos := c.utf8Size_pos
        refine ⟨_, hp, ?_⟩
        rw [hcut.flatten, byteLength_append, byteLength_cons]
        omega
    refine ⟨hoffset, hplace, unknown_notMem_reportLines ?_⟩
    obtain ⟨offset, hp, -⟩ := hoffset
    rw [hp]
    exact fun he => by cases he
  rcases bind_eq_error.mp h with htree | ⟨tree, htree, h⟩
  · rcases bind_eq_error.mp htree with hlex | ⟨tokens, ht, h⟩
    · cases strategy with
      | fast => cases hlex
      | classic =>
        obtain ⟨pieces, c, rest, hcut, hstuck, rfl⟩ := classicTokens_eq_error_iff.mp hlex
        exact .inr ⟨rfl, pieces, c, rest, hcut, hstuck, rfl⟩
    · rcases bind_eq_error.mp h with h | ⟨indented, -, h⟩
      · exact .inl ⟨tokens, ht, error_of_indentFrom h⟩
      · cases h
  · obtain ⟨tokens, ht, htree⟩ := bind_eq_ok.mp htree
    obtain ⟨indented, hi, htree⟩ := bind_eq_ok.mp htree
    obtain rfl := Except.ok.inj htree
    have known : ∀ t ∈ tokens, t.span.start ≠ .unknown := by
      intro t hm hu
      obtain ⟨k, hstart, -⟩ := span_of_mem_tokensOf ht hm
      cases hstart.symm.trans hu
    obtain ⟨t, hm, he⟩ := List.mem_map.mp (mem_starts_of_programOf hi known h)
    exact .inl ⟨tokens, ht, t, hm, he.symm⟩

/-- An argument is missing behind the comma, where nothing stands to complain about, so the bracket
of the call is blamed. -/
theorem readProgram_refuses_missing_argument :
    let source : Source := ⟨"", "do\n  f(1, )", 0⟩
    ∃ d, readProgram .classic source = .error d ∧ d.cause = .noExpression ∧
      d.position = .within source 6 ∧ "  at <unknown>" ∉ d.reportLines := by
  intro source
  have herror : (readProgram .classic source).map (fun _ => ()) =
      .error ⟨.noExpression, .within source 6⟩ := by
    decide +kernel
  cases hr : readProgram .classic source with
  | ok program =>
    rw [hr] at herror
    cases herror
  | error d =>
    rw [hr] at herror
    obtain rfl := Except.error.inj herror
    exact ⟨_, rfl, rfl, rfl, (readProgram_refuses_within_source hr).2.2⟩

end Offside
