import Mathlib.Data.List.Induction
import Offside.Proofs.InlineBlocks
import Offside.Proofs.TokenUse

namespace Offside

/-- Whether tokens end with a dot, or with a dot and nothing but values behind it. -/
def endsWithAccess (tokens : List Token) : Bool :=
  (tokens.reverse.dropWhile (·.kind.isValue)).head?.any (·.kind == .dot)

/-- Whether no value stands right behind another one, unless both are accessors. -/
def AreApart (tokens : List Token) : Prop :=
  ∀ before a b after, tokens = before ++ a :: b :: after → a.kind.isValue = true →
    b.kind.isValue = true → endsWithAccess before = true

/-- The tokens of a span without line breaks. -/
def visible (span : List Tree) : List Token :=
  (leaves span).filter (·.kind != .newline)

/-- Whether the values in a span are apart, unless a block begins there. -/
def KeepsValuesApart (span : List Tree) : Prop :=
  (∀ t ∈ visible span, BlockForm.introducedBy? t = none) → AreApart (visible span)

/-- Whether only spans that keep their values apart are read. -/
def Readers.RefusesAdjacent (r : Readers) : Prop :=
  ∀ span v, r.value span = .ok v → KeepsValuesApart span

section

variable {xs ys : List Token} {t d : Token}

theorem endsWithAccess_concat (before : List Token) (t : Token) :
    endsWithAccess (before ++ [t]) =
      if t.kind.isValue then endsWithAccess before else t.kind == .dot := by
  rw [endsWithAccess, List.reverse_concat, List.dropWhile_cons]
  split <;> rfl

theorem endsWithAccess_append (h : endsWithAccess ys = true) (xs : List Token) :
    endsWithAccess (xs ++ ys) = true := by
  induction ys using List.reverseRecOn with
  | nil => cases h
  | append_singleton ys t ih =>
    rw [endsWithAccess_concat] at h
    rw [← List.append_assoc, endsWithAccess_concat]
    split at h
    next hv => rw [if_pos hv, ih h]
    next hv => rw [if_neg hv, h]

theorem endsWithAccess_behind (before : List Token) (hd : d.kind = .dot)
    (hy : ∀ t ∈ ys, t.kind = .dot ∨ t.kind.isValue = true) :
    endsWithAccess (before ++ d :: ys) = true := by
  induction ys using List.reverseRecOn with
  | nil => simp [endsWithAccess_concat, hd, Kind.isValue]
  | append_singleton ys t ih =>
    have hfront := ih fun u hu => hy u (List.mem_append_left _ hu)
    rw [← List.cons_append, ← List.append_assoc, endsWithAccess_concat]
    rcases hy t (by simp) with hk | hk
    · simp [hk, Kind.isValue]
    · rw [if_pos hk, hfront]

theorem areApart_nil : AreApart [] := by
  intro before a b after h
  simp at h

theorem areApart_single (t : Token) : AreApart [t] := by
  intro before a b after h
  have hlen := congrArg List.length h
  simp only [List.length_append, List.length_cons, List.length_nil] at hlen
  omega

/-- Two values that stand next to each other stand on one side of anything else. -/
theorem areApart_append (hx : AreApart xs) (ht : t.kind.isValue = false)
    (hy : ∀ before a b after, ys = before ++ a :: b :: after → a.kind.isValue = true →
      b.kind.isValue = true → endsWithAccess (t :: before) = true) :
    AreApart (xs ++ t :: ys) := by
  intro before a b after h ha hb
  rcases List.append_eq_append_iff.mp h with ⟨front, rfl, hrest⟩ | ⟨behind, rfl, hrest⟩
  · cases front with
    | nil =>
      obtain rfl := (List.cons.inj hrest).1
      rw [ht] at ha
      cases ha
    | cons u front =>
      obtain ⟨rfl, hfront⟩ := List.cons.inj hrest
      exact endsWithAccess_append (hy front a b after hfront ha hb) xs
  · rcases eq_append_cons_cases hrest with ⟨-, rfl⟩ | ⟨-, rfl⟩ | ⟨more, rfl⟩
    · rw [ht] at ha
      cases ha
    · rw [ht] at hb
      cases hb
    · exact hx before a b more rfl ha hb

theorem AreApart.append (hx : AreApart xs) (ht : t.kind.isValue = false) (hy : AreApart ys) :
    AreApart (xs ++ t :: ys) :=
  areApart_append hx ht fun before a b after h ha hb =>
    endsWithAccess_append (hy before a b after h ha hb) [t]

/-- What stands behind a dot may be accessors only. -/
theorem AreApart.append_accessors (hx : AreApart xs) (hd : d.kind = .dot)
    (hy : ∀ t ∈ ys, t.kind = .dot ∨ t.kind.isValue = true) : AreApart (xs ++ d :: ys) := by
  refine areApart_append hx (by rw [hd]; rfl) ?_
  rintro before a b after rfl - -
  exact endsWithAccess_behind [] hd fun t ht => hy t (List.mem_append_left _ ht)

end

section

variable {span left right part : List Tree} {t : Token}

theorem visible_append (xs ys : List Tree) : visible (xs ++ ys) = visible xs ++ visible ys := by
  rw [visible, leaves_append, List.filter_append]
  rfl

theorem visible_token (hk : t.kind ≠ .newline) (span : List Tree) :
    visible (.token t :: span) = t :: visible span :=
  List.filter_cons_of_pos (by simpa using hk)

theorem visible_group (items : List Tree) : visible [.group items] = visible items := by
  simp [visible, leaves, Tree.leaves]

theorem visible_cons (tree : Tree) (span : List Tree) :
    visible (tree :: span) = visible [tree] ++ visible span :=
  visible_append [tree] span

theorem visible_of_newline {tree : Tree} (h : tree.hasKind .newline = true) :
    visible [tree] = [] := by
  obtain ⟨t, rfl, hk⟩ := token_of_hasKind h
  simp [visible, leaves, Tree.leaves, hk]

theorem visible_joinLines (span : List Tree) : visible (joinLines span) = visible span := by
  induction span with
  | nil => rfl
  | cons tree span ih =>
    have hjoin : joinLines (tree :: span) =
        if !tree.hasKind .newline then tree :: joinLines span else joinLines span :=
      List.filter_cons
    rw [visible_cons tree span, hjoin]
    cases hn : tree.hasKind .newline with
    | true => rw [visible_of_newline hn, List.nil_append, ← ih]; rfl
    | false => rw [← ih, ← visible_cons]; rfl

mutual

theorem Tree.visible_unwrap (tree : Tree) : visible tree.unwrap = visible [tree] := by
  cases tree with
  | token t => rfl
  | group items => rw [visible_group, Tree.unwrap, Offside.visible_unwrap items]

/-- Unwrapping a span takes line breaks only. -/
theorem visible_unwrap (span : List Tree) : visible (unwrap span) = visible span := by
  cases span with
  | nil => rfl
  | cons tree span =>
    rw [unwrap, visible_cons]
    cases hn : tree.hasKind .newline with
    | true =>
      rw [if_pos rfl, visible_unwrap span, visible_of_newline hn]
      rfl
    | false =>
      rw [if_neg Bool.false_ne_true, ← visible_joinLines span]
      cases joinLines span with
      | nil => rw [Tree.visible_unwrap tree]; exact (List.append_nil _).symm
      | cons next rest => exact visible_cons tree _

end

theorem KeepsValuesApart.of_visible (h : KeepsValuesApart left) (hs : visible right = visible left) :
    KeepsValuesApart right := by
  rw [KeepsValuesApart, hs]
  exact h

theorem keepsValuesApart_nil : KeepsValuesApart [] :=
  fun _ => areApart_nil

theorem keepsValuesApart_single (t : Token) : KeepsValuesApart [.token t] := by
  intro _
  by_cases hn : t.kind = .newline
  · rw [visible_of_newline (by simp [Tree.hasKind, hn])]
    exact areApart_nil
  · rw [visible_token hn]
    exact areApart_single t

/-- Whether a token divides values where it stands. -/
def Kind.isDivision (kind : Kind) : Bool :=
  !kind.isValue && kind != .newline

theorem KeepsValuesApart.append (hl : KeepsValuesApart left) (ht : t.kind.isDivision = true)
    (hr : KeepsValuesApart right) : KeepsValuesApart (left ++ .token t :: right) := by
  obtain ⟨hvalue, hn⟩ : t.kind.isValue = false ∧ t.kind ≠ .newline := by
    simpa [Kind.isDivision] using ht
  have hvisible : visible (left ++ .token t :: right) = visible left ++ t :: visible right := by
    rw [visible_append, visible_token hn]
  intro hb
  rw [hvisible] at hb ⊢
  refine (hl fun u hu => hb u ?_).append hvalue (hr fun u hu => hb u ?_)
  · exact List.mem_append_left _ hu
  · exact List.mem_append_right _ (List.mem_cons_of_mem _ hu)

theorem KeepsValuesApart.behind (ht : t.kind.isDivision = true) (h : KeepsValuesApart span) :
    KeepsValuesApart (.token t :: span) :=
  keepsValuesApart_nil.append ht h

theorem KeepsValuesApart.append_clauses {first : List Tree} {clauses : List (Token × List Tree)}
    (hfirst : KeepsValuesApart first) (divisions : ∀ c ∈ clauses, c.1.kind.isDivision = true)
    (h : ∀ c ∈ clauses, KeepsValuesApart c.2) :
    KeepsValuesApart (first ++ clauses.flatMap fun c => .token c.1 :: c.2) := by
  induction clauses generalizing first with
  | nil =>
    rw [List.flatMap_nil, List.append_nil]
    exact hfirst
  | cons c clauses ih =>
    have hc := hfirst.append (divisions c List.mem_cons_self) (h c List.mem_cons_self)
    rw [List.flatMap_cons, ← List.append_assoc]
    exact ih hc (fun d hd => divisions d (List.mem_cons_of_mem _ hd))
      fun d hd => h d (List.mem_cons_of_mem _ hd)

/-- Parts that keep their values apart make up a span that does. -/
theorem KeepsValuesApart.of_cut {kinds : List Kind} (hk : ∀ kind ∈ kinds, kind.isDivision = true)
    (hfirst : KeepsValuesApart (cut kinds span).1)
    (h : ∀ c ∈ (cut kinds span).2, KeepsValuesApart c.2) : KeepsValuesApart span := by
  rw [← append_cut kinds span]
  exact hfirst.append_clauses (fun c hc => hk _ (kind_of_mem_cut hc)) h

theorem KeepsValuesApart.of_split (h : ∀ part ∈ split [.comma] false span, KeepsValuesApart part) :
    KeepsValuesApart span := by
  by_cases hne : span = []
  · subst hne
    exact keepsValuesApart_nil
  · rw [split_of_ne_nil hne] at h
    obtain ⟨hfirst, hothers⟩ := List.forall_mem_cons.mp h
    exact @KeepsValuesApart.of_cut _ [.comma] (by decide) hfirst
      fun c hc => hothers c.2 (List.mem_map_of_mem hc)

theorem KeepsValuesApart.append_accessors {accessors : List Token} (hl : KeepsValuesApart left)
    (ht : t.kind = .dot) (h : accessors? right = some accessors) :
    KeepsValuesApart (left ++ .token t :: right) := by
  obtain ⟨ts, rfl, hts⟩ := tokens_of_accessors? h
  have hvisible : visible (left ++ .token t :: ts.map .token) = visible left ++ t :: ts := by
    have hplain : ∀ u ∈ ts, (u.kind != .newline) = true := fun u hu =>
      bne_iff_ne.mpr (kind_ne_of_accessor (hts u hu) (by decide) rfl)
    have hright : visible (ts.map .token) = ts := by
      rw [visible, leaves_map_token, List.filter_eq_self.mpr hplain]
    rw [visible_append, visible_token (by simp [ht]), hright]
  intro hb
  rw [hvisible] at hb ⊢
  exact (hl fun u hu => hb u (List.mem_append_left _ hu)).append_accessors ht hts

theorem keepsValuesApart_of_soleName? {name : String} (h : soleName? part = some name) :
    KeepsValuesApart part := by
  match part with
  | [] => cases h
  | [.token t] => exact keepsValuesApart_single t
  | [.group items] => cases h
  | _ :: _ :: _ => cases h

/-- The head of a lambda is a name, or has commas between its names. -/
theorem keepsValuesApart_of_parameters? {names : List String} (h : parameters? span = some names) :
    KeepsValuesApart span := by
  have hleaves : visible span = visible ((leaves span).map .token) := by
    rw [visible, visible, leaves_map_token]
  refine KeepsValuesApart.of_visible ?_ hleaves
  rw [parameters?] at h
  split at h
  next hs =>
    rw [hs]
    exact keepsValuesApart_nil
  next t hs =>
    rw [hs]
    exact keepsValuesApart_single t
  next first rest _ hs =>
    split at h
    next hc =>
      obtain ⟨hopen, hclose⟩ := Bool.and_eq_true_iff.mp hc
      obtain ⟨closer, hlast⟩ : ∃ closer, rest.getLast? = some closer := by
        cases hlast : rest.getLast? with
        | none => simp [hlast] at hclose
        | some closer => exact ⟨closer, rfl⟩
      have hclose : closer.kind = .closeParen := by simpa [hlast] using hclose
      have hinner : KeepsValuesApart (rest.dropLast.map .token) := by
        refine .of_split fun part hp => ?_
        obtain ⟨name, hname⟩ := exists_of_mapM_some h part hp
        exact keepsValuesApart_of_soleName? hname
      rw [hs, ← List.dropLast_append_getLast? closer hlast, List.map_cons, List.map_append]
      refine .behind (by rw [eq_of_beq hopen]; rfl) ?_
      exact hinner.append (by rw [hclose]; rfl) keepsValuesApart_nil
    next => cases h

end

section

variable {r : Readers} (hr : r.RefusesAdjacent)

include hr

theorem Readers.RefusesAdjacent.valueAt {span : List Tree} {position : Position} {v : Value}
    (h : r.valueAt span position = .ok v) : KeepsValuesApart span :=
  hr span v (Readers.value_of_valueAt h)

theorem keepsValuesApart_of_readArgument {opener : Position} {part : List Tree} {i : Nat}
    {argument : String × Value} (h : readArgument r opener part i = .ok argument) :
    KeepsValuesApart part := by
  obtain ⟨t, rest, hl, -, hv⟩ | ⟨-, -, hv⟩ := readArgument_eq_ok h
  · obtain ⟨colon, rfl, hk⟩ := eq_of_labelled? hl
    exact (keepsValuesApart_single t).append (by rw [hk]; rfl) (hr.valueAt hv)
  · exact hr.valueAt hv

theorem keepsValuesApart_of_readEntry {opener : Position} {part : List Tree} {i : Nat}
    {entry : Value × Value} (h : readEntry r opener part i = .ok entry) :
    KeepsValuesApart part := by
  obtain ⟨left, colon, right, hd, hk, hv⟩ | ⟨-, -, hv⟩ := readEntry_eq_ok h
  · obtain ⟨rfl, -, hcolon⟩ := divide?_eq_some_iff.mp hd
    have hkind := List.mem_singleton.mp (separator?_eq_some_iff.mp hcolon).1
    exact (hr.valueAt hk).append (by rw [hkind]; rfl) (hr.valueAt hv)
  · exact hr.valueAt hv

omit hr in
theorem keepsValuesApart_of_readListed {α : Type} {read : List Tree → Nat → Outcome α}
    {span : List Tree} {xs : List α}
    (hread : ∀ part i x, read part i = .ok x → KeepsValuesApart part)
    (h : readListed read span = .ok xs) : KeepsValuesApart span := by
  refine .of_split fun part hp => ?_
  have hfst := List.zipIdx_map_fst 0 (split [.comma] false span)
  rw [← hfst] at hp
  obtain ⟨⟨part, i⟩, hm, rfl⟩ := List.mem_map.mp hp
  obtain ⟨x, hx⟩ := exists_ok_of_mapM h _ hm
  exact hread part i x hx

theorem keepsValuesApart_of_readClauses {clauses : List (Token × List Tree)}
    {missing : Option Position} {parts : List Part}
    (h : readClauses r missing clauses = .ok parts) : ∀ c ∈ clauses, KeepsValuesApart c.2 := by
  induction clauses generalizing missing parts with
  | nil =>
    intro c hc
    cases hc
  | cons c clauses ih =>
    obtain ⟨t, operand⟩ := c
    obtain ⟨rank, rest, -, -, ⟨rfl, hrest⟩ | ⟨-, v, others, hv, hothers, -⟩⟩ :=
      readClauses_cons_eq_ok h
    · exact List.forall_mem_cons.mpr ⟨keepsValuesApart_nil, ih hrest⟩
    · exact List.forall_mem_cons.mpr ⟨hr.valueAt hv, ih hothers⟩

theorem keepsValuesApart_of_readPostfix {span : List Tree} {items : List Item}
    (h : readPostfix r span = .ok items) : KeepsValuesApart span := by
  obtain ⟨parts, h, -⟩ := bind_eq_ok.mp h
  have hdivision : ∀ kind ∈ [Kind.operator], kind.isDivision = true := by decide
  obtain ⟨hnil, h⟩ | ⟨-, v, rest, hv, hrest, -⟩ := readParts_eq_ok h
  · refine .of_cut hdivision ?_ (keepsValuesApart_of_readClauses hr h)
    rw [hnil]
    exact keepsValuesApart_nil
  · exact .of_cut hdivision (hr.valueAt hv) (keepsValuesApart_of_readClauses hr hrest)

theorem keepsValuesApart_of_readShape {shape : Shape} {span : List Tree} {c : Construct}
    (hs : shape? span = some shape) (h : shape.read r = .ok c) : KeepsValuesApart span := by
  have hd := divides_of_shape? hs
  have division : ∀ {kind : Kind} {tree : Tree}, tree.hasKind kind = true →
      kind.isDivision = true → ∃ t, tree = .token t ∧ t.kind.isDivision = true := by
    intro kind tree hk hdivision
    obtain ⟨t, rfl, ht⟩ := token_of_hasKind hk
    exact ⟨t, rfl, by rwa [ht]⟩
  cases hd with
  | returning word =>
    obtain ⟨v, hv, -⟩ := bind_eq_ok.mp h
    obtain ⟨t, rfl, ht⟩ := division word rfl
    exact (hr.valueAt hv).behind ht
  | @call callee arguments opener closer opens closes =>
    obtain ⟨pairs, hp, h⟩ := bind_eq_ok.mp h
    obtain ⟨v, hv, -⟩ := bind_eq_ok.mp h
    obtain ⟨t, rfl, ht⟩ := division opens rfl
    obtain ⟨u, rfl, hu⟩ := division closes rfl
    have harguments : KeepsValuesApart arguments :=
      keepsValuesApart_of_readListed (fun _ _ _ hx => keepsValuesApart_of_readArgument hr hx) hp
    have hgroup := harguments.of_visible (visible_group arguments)
    exact (hr callee v hv).append ht (hgroup.append hu keepsValuesApart_nil)
  | access opens closes =>
    obtain ⟨k, hk, h⟩ := bind_eq_ok.mp h
    obtain ⟨v, hv, -⟩ := bind_eq_ok.mp h
    obtain ⟨t, rfl, ht⟩ := division opens rfl
    obtain ⟨u, rfl, hu⟩ := division closes rfl
    exact (hr _ v hv).append ht ((hr.valueAt hk).append hu keepsValuesApart_nil)
  | chain names isDot =>
    obtain ⟨v, hv, -⟩ := bind_eq_ok.mp h
    exact (hr _ v hv).append_accessors isDot names
  | lambda names isArrow =>
    obtain ⟨v, hv, -⟩ := bind_eq_ok.mp h
    exact (keepsValuesApart_of_parameters? names).append (by rw [isArrow]; rfl) (hr.valueAt hv)
  | dictionary opens closes =>
    obtain ⟨pairs, hp, -⟩ := bind_eq_ok.mp h
    obtain ⟨t, rfl, ht⟩ := division opens rfl
    obtain ⟨u, rfl, hu⟩ := division closes rfl
    have hentries := keepsValuesApart_of_readListed
      (fun _ _ _ hx => keepsValuesApart_of_readEntry hr hx) hp
    exact (hentries.append hu keepsValuesApart_nil).behind ht
  | operation first operator =>
    obtain ⟨items, hi, -⟩ := bind_eq_ok.mp h
    exact keepsValuesApart_of_readPostfix hr hi
  | assignment sign =>
    obtain ⟨target, htarget, h⟩ := bind_eq_ok.mp h
    obtain ⟨v, hv, -⟩ := bind_eq_ok.mp h
    exact (hr.valueAt htarget).append (by rw [sign]; rfl) (hr.valueAt hv)

theorem keepsValuesApart_of_readSimple {span : List Tree} {compound : List Tree → Outcome Value}
    {v : Value} (hc : ∀ w, compound span = .ok w → KeepsValuesApart span)
    (h : readSimple r span compound = .ok v) : KeepsValuesApart span := by
  obtain ⟨t, rfl, -, -⟩ | ⟨inner, hi, hv⟩ | hv := readSimple_eq_ok h
  · exact keepsValuesApart_single t
  · obtain ⟨opener, closer, rfl, ho, hclose⟩ := eq_of_inParens? hi
    have hgroup := (hr inner v hv).of_visible (visible_group inner)
    exact (hgroup.append (by rw [hclose]; rfl) keepsValuesApart_nil).behind (by rw [ho]; rfl)
  · exact hc v hv

theorem keepsValuesApart_of_readFlat {span : List Tree} {v : Value} (h : readFlat r span = .ok v) :
    KeepsValuesApart span := by
  have hrefined : KeepsValuesApart (regroup (spread span).1) := by
    refine keepsValuesApart_of_readSimple hr (fun w hw => ?_) h
    obtain ⟨shape, c, hs, hc, -⟩ := readConstruct_eq_ok hw
    exact keepsValuesApart_of_readShape hr hs hc
  intro hb
  -- without a block the tokens are those that are left when the lines are joined
  have hblock : IsBlockless span := by
    intro t ht
    by_cases hn : t.kind = .newline
    · exact introducedBy?_eq_none (by simp [hn])
    · exact hb t (List.mem_filter.mpr ⟨ht, by simpa using hn⟩)
  have hvisible : visible (regroup (spread span).1) = visible span := by
    rw [visible, leaves_regroup, hblock.spread_eq, leaves_map_token, List.filter_filter]
    simp [visible]
  rw [KeepsValuesApart, hvisible] at hrefined
  exact hrefined hb

theorem keepsValuesApart_of_valueStep {span : List Tree} {v : Value}
    (h : valueStep r span = .ok v) : KeepsValuesApart span := by
  refine KeepsValuesApart.of_visible ?_ (visible_unwrap span).symm
  obtain ⟨first, rest, hspan, ⟨hopens, -⟩ | ⟨-, hv⟩⟩ := valueStep_eq_ok h
  · -- a block begins here
    rw [hspan]
    intro hb
    cases first with
    | group items => cases hopens
    | token t =>
      have hkind : t.kind ≠ .newline := by
        intro hn
        rw [not_opensBlock_of_introducedBy? (introducedBy?_eq_none (by simp [hn]))] at hopens
        cases hopens
      have hnone := hb t (by rw [visible_token hkind]; exact List.mem_cons_self)
      rw [not_opensBlock_of_introducedBy? hnone] at hopens
      cases hopens
  · rw [hspan]
    exact keepsValuesApart_of_readSimple hr (fun w hw => keepsValuesApart_of_readFlat hr hw) hv

end

theorem below_refusesAdjacent (n : Nat) : (Readers.below n).RefusesAdjacent := by
  induction n with
  | zero => exact fun _ _ h => (by cases h)
  | succ n ih => exact fun span v h => keepsValuesApart_of_valueStep ih h

theorem readers_refuseAdjacent : readers.RefusesAdjacent :=
  fun span v h => below_refusesAdjacent (leafCount span + 1) span v h

section

variable {x d : Token} {ts : List Token}

theorem accessors?_of_values (hts : ∀ t ∈ ts, t.kind.isValue = true) :
    accessors? (ts.map .token) = some ts := by
  induction ts with
  | nil => rfl
  | cons t ts ih =>
    obtain ⟨ht, hts⟩ := List.forall_mem_cons.mp hts
    have hdot : t.kind ≠ .dot := by
      intro hk
      rw [hk] at ht
      cases ht
    rw [List.map_cons, accessors?, if_neg hdot, if_pos ht, ih hts]
    rfl

/-- Dots are not asked for between the accessors of a chain. -/
theorem readValue_accessors (hx : x.kind.isValue = true) (hd : d.kind = .dot) (hne : ts ≠ [])
    (hts : ∀ t ∈ ts, t.kind.isValue = true) :
    readValue (.token x :: .token d :: ts.map .token) =
      .ok (.construct (.chain (.literal x) ts)) := by
  have hother : ∀ t ∈ x :: d :: ts, ∀ kind : Kind, kind ≠ .dot → kind.isValue = false →
      t.kind ≠ kind := by
    intro t ht kind hk hv
    rcases List.mem_cons.mp ht with rfl | ht
    · exact kind_ne_of_accessor (.inr hx) hk hv
    · rcases List.mem_cons.mp ht with rfl | ht
      · exact kind_ne_of_accessor (.inl hd) hk hv
      · exact kind_ne_of_accessor (.inr (hts t ht)) hk hv
  have hflat : IsFlat ((x :: d :: ts).map .token) := by
    intro tree hm
    obtain ⟨t, ht, rfl⟩ := List.mem_map.mp hm
    exact ⟨t, rfl, hother t ht .newline (by decide) rfl,
      introducedBy?_eq_none (hother t ht .keyword (by decide) rfl)⟩
  have hregroup : regroup ((x :: d :: ts).map .token) = (x :: d :: ts).map .token := by
    refine regroup_of_no_paren fun tree hm => ?_
    obtain ⟨t, ht, rfl⟩ := List.mem_map.mp hm
    exact beq_eq_false_iff_ne.mpr (hother t ht .openParen (by decide) rfl)
  have hmem : ∀ t, .token t ∈ (x :: d :: ts).map Tree.token → t ∈ x :: d :: ts := by simp
  have hreturn : returning? ((x :: d :: ts).map .token) = none :=
    returning?_eq_none fun t ht => hother t (hmem t ht) .returnWord (by decide) rfl
  have harrow : hasArrow ((x :: d :: ts).map .token) = false :=
    hasArrow_eq_false (isUndivided_of_not_mem fun t ht => by
      simpa using hother t (hmem t ht) .arrow (by decide) rfl)
  have hdivide := @divide?_behind_value x d [.dot] hx (by decide) (List.mem_singleton.mpr hd)
    (by simp [Depth.after, hd]) (ts.map .token)
  have hshape := shape?_of_accessors hreturn harrow hdivide (canBeSubject_of_value hx)
    (accessors?_of_values hts) hne
  have hread := hflat.readValue_regroup (List.cons_ne_nil _ _)
  rw [hregroup, readSimple, hflat.inParens?_eq] at hread
  exact hread.trans
    (readConstruct_of_shape? hshape (bind_eq_ok.mpr ⟨_, readValue_literal hx, rfl⟩))

end

/-- Values that stand next to each other are refused, however deep in brackets, unless there is a dot
in front of them with nothing but values in between. -/
theorem readValue_refuses_adjacent {tokens before after : List Token} {a b : Token}
    (noBlock : ∀ t ∈ tokens, BlockForm.introducedBy? t = none)
    (adjacent : tokens.filter (·.kind != .newline) = before ++ a :: b :: after)
    (ha : a.kind.isValue = true) (hb : b.kind.isValue = true)
    (apart : endsWithAccess before = false) :
    ∃ d, readValue (tokens.map .token) = .error d := by
  cases hv : readValue (tokens.map .token) with
  | error d => exact ⟨d, rfl⟩
  | ok v =>
    have hkeeps := readers_refuseAdjacent _ v hv
    rw [KeepsValuesApart, visible, leaves_map_token] at hkeeps
    have hall := hkeeps fun t ht => noBlock t (List.mem_of_mem_filter ht)
    rw [hall before a b after adjacent ha hb] at apart
    cases apart

/-- The number in `f(a, x.y + z -1)` has no operator in front of it. -/
theorem readValue_refuses_signed_number :
    let token (kind : Kind) (text : String) : Token := ⟨kind, text, default⟩
    let tokens : List Token := [token .name "f", token .openParen "(", token .name "a",
      token .comma ",", token .name "x", token .dot ".", token .name "y", token .operator "+",
      token .name "z", token .decimal "-1", token .closeParen ")"]
    (∀ t ∈ tokens, BlockForm.introducedBy? t = none) ∧
      endsWithAccess (tokens.take 8) = false ∧
      ∃ d, readValue (tokens.map .token) = .error d := by
  intro token tokens
  have hnone : ∀ t ∈ tokens, BlockForm.introducedBy? t = none := by decide
  have hsplit : tokens.filter (·.kind != .newline) =
      tokens.take 8 ++ token .name "z" :: token .decimal "-1" :: [token .closeParen ")"] := by
    decide
  exact ⟨hnone, by decide, readValue_refuses_adjacent hnone hsplit rfl rfl (by decide)⟩

/-- The number in `x.y -1` is taken for an accessor. -/
theorem not_readValue_refuses_adjacent :
    ¬∀ (tokens before after : List Token) (a b : Token),
      (∀ t ∈ tokens, BlockForm.introducedBy? t = none) → tokens = before ++ a :: b :: after →
        a.kind.isValue = true → b.kind.isValue = true →
          ∃ d, readValue (tokens.map .token) = .error d := by
  intro h
  let token (kind : Kind) (text : String) : Token := ⟨kind, text, default⟩
  obtain ⟨d, hd⟩ := h [token .name "x", token .dot ".", token .name "y", token .decimal "-1"]
    [token .name "x", token .dot "."] [] (token .name "y") (token .decimal "-1") (by decide) rfl
    rfl rfl
  have hchain := @readValue_accessors (token .name "x") (token .dot ".")
    [token .name "y", token .decimal "-1"] rfl rfl (by decide) (by decide)
  cases hchain.symm.trans hd

end Offside
