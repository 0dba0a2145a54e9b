import Mathlib.Data.List.Flatten
import Mathlib.Data.List.Perm.Subperm
import Offside.Program
import Offside.Proofs.Descent
import Offside.Proofs.LineBlocks
import Offside.Proofs.TreeShape

namespace Offside

/-- What a syntax tree makes of a token: it keeps it, or takes it as the keyword of a block. -/
inductive Use where
  | token (token : Token)
  | keyword (form : BlockForm) (origin : Position)
deriving DecidableEq

def Use.position : Use → Position
  | token t => t.span.start
  | keyword _ origin => origin

/-- What a token can be used as. A line break is of no use. -/
def Token.use? (t : Token) : Option Use :=
  if t.kind = .newline then none
  else
    match BlockForm.introducedBy? t with
    | some form => some (.keyword form t.span.start)
    | none => some (.token t)

/-- A key that counts the entries of a dictionary: a number that takes up no room in the text. -/
def Value.isIndexKey : Value → Bool
  | .literal t => t.kind == .decimal && t.span.start == t.span.stop
  | _ => false

def Heading.uses (form : BlockForm) (heading : Heading) : List Use :=
  .keyword form heading.origin :: heading.declarations.map .token

mutual

/-- All that a value is made of, index keys left out. -/
def Value.uses : Value → List Use
  | .literal t => [.token t]
  | .block b => b.uses
  | .construct c => c.uses

def Block.uses : Block → List Use
  | .imports h symbols => h.uses .imports ++ symbols.map .token
  | .closure h _ symbols => h.uses .closure ++ blockUses symbols
  | .conditional h condition value => h.uses .conditional ++ (condition.uses ++ value.uses)
  | .otherwise h value => h.uses .otherwise ++ value.uses
  | .sequence h steps => h.uses .sequence ++ valueUses steps
  | .each h _ iteratee value => h.uses .each ++ (iteratee.uses ++ value.uses)
  | .repetition h count value => h.uses .repetition ++ (count.uses ++ value.uses)
  | .function h _ _ value => h.uses .function ++ value.uses

def Construct.uses : Construct → List Use
  | .returning value => value.uses
  | .call callee arguments => callee.uses ++ argumentUses arguments
  | .access subject key => subject.uses ++ key.uses
  | .chain subject accessors => subject.uses ++ accessors.map .token
  | .lambda _ body => body.uses
  | .dictionary entries => entryUses entries
  | .operation items => itemUses items
  | .assignment left operator right => left.uses ++ .token operator :: right.uses

def Item.uses : Item → List Use
  | .operator t => [.token t]
  | .unary t => [.token t]
  | .operand value => value.uses

def blockUses : List Block → List Use
  | [] => []
  | b :: blocks => b.uses ++ blockUses blocks

def valueUses : List Value → List Use
  | [] => []
  | v :: values => v.uses ++ valueUses values

def argumentUses : List (String × Value) → List Use
  | [] => []
  | (_, v) :: arguments => v.uses ++ argumentUses arguments

def entryUses : List (Value × Value) → List Use
  | [] => []
  | (key, v) :: entries => (if key.isIndexKey then [] else key.uses) ++ v.uses ++ entryUses entries

def itemUses : List Item → List Use
  | [] => []
  | item :: items => item.uses ++ itemUses items

end

/-- What tokens can be used as, each once. -/
def usable (tokens : List Token) : List Use :=
  tokens.filterMap Token.use?

/-- Whether all of this can be made of the tokens of a span, each taken once. -/
def AreMadeOf (uses : List Use) (span : List Tree) : Prop :=
  uses.Subperm (usable (leaves span))

/-- Whether each token of a span is used at most once in all that is read from it. -/
structure Readers.UsesOnce (r : Readers) : Prop where
  value : ∀ span v, r.value span = .ok v → AreMadeOf v.uses span
  block : ∀ span b, r.block span = .ok b → AreMadeOf b.uses span

theorem usable_append (ts us : List Token) : usable (ts ++ us) = usable ts ++ usable us :=
  List.filterMap_append

theorem usable_subperm {ts us : List Token} (h : ts.Sublist us) : (usable ts).Subperm (usable us) :=
  (h.filterMap _).subperm

theorem usable_flatMap {α : Type} (f : α → List Token) (xs : List α) :
    usable (xs.flatMap f) = xs.flatMap fun x => usable (f x) :=
  List.filterMap_flatMap

theorem blockUses_eq (blocks : List Block) : blockUses blocks = blocks.flatMap Block.uses := by
  induction blocks with
  | nil => rfl
  | cons b blocks ih => rw [blockUses, ih, List.flatMap_cons]

theorem valueUses_eq (values : List Value) : valueUses values = values.flatMap Value.uses := by
  induction values with
  | nil => rfl
  | cons v values ih => rw [valueUses, ih, List.flatMap_cons]

theorem argumentUses_eq (arguments : List (String × Value)) :
    argumentUses arguments = arguments.flatMap fun argument => [] ++ argument.2.uses := by
  induction arguments with
  | nil => rfl
  | cons argument arguments ih => rw [argumentUses, ih, List.flatMap_cons, List.nil_append]

/-- What a key of a dictionary is made of. -/
def Value.keyUses (key : Value) : List Use :=
  if key.isIndexKey then [] else key.uses

theorem entryUses_eq (entries : List (Value × Value)) :
    entryUses entries = entries.flatMap fun entry => entry.1.keyUses ++ entry.2.uses := by
  induction entries with
  | nil => rfl
  | cons entry entries ih => rw [entryUses, ih, List.flatMap_cons]; rfl

theorem itemUses_eq (items : List Item) : itemUses items = items.flatMap Item.uses := by
  induction items with
  | nil => rfl
  | cons item items ih => rw [itemUses, ih, List.flatMap_cons]

theorem keyUses_subperm (key : Value) : key.keyUses.Subperm key.uses := by
  rw [Value.keyUses]
  split
  next => exact (List.nil_sublist _).subperm
  next => exact .refl _

/-- A token that neither breaks a line nor opens a block is kept as it is. -/
theorem Token.use?_of_kind {t : Token} (hn : t.kind ≠ .newline) (hk : t.kind ≠ .keyword) :
    t.use? = some (.token t) := by
  rw [Token.use?, if_neg hn, BlockForm.introducedBy?, if_neg hk]

theorem Token.use?_of_introducedBy? {t : Token} {form : BlockForm}
    (h : BlockForm.introducedBy? t = some form) : t.use? = some (.keyword form t.span.start) := by
  have hk : t.kind = .keyword := kind_of_introducedBy? h
  rw [Token.use?, if_neg (by rw [hk]; decide), h]

/-- Tokens that are all kept stand for themselves. -/
theorem usable_of_kept {ts : List Token} (h : ∀ t ∈ ts, t.kind ≠ .newline ∧ t.kind ≠ .keyword) :
    usable ts = ts.map .token := by
  induction ts with
  | nil => rfl
  | cons t ts ih =>
    have ht := h t List.mem_cons_self
    rw [usable, List.filterMap_cons, Token.use?_of_kind ht.1 ht.2, List.map_cons, ← usable,
      ih fun u hu => h u (List.mem_cons_of_mem _ hu)]

section

variable {kinds : List Kind} {span : List Tree}

theorem leaves_flatten (spans : List (List Tree)) :
    leaves spans.flatten = spans.flatMap leaves := by
  induction spans with
  | nil => rfl
  | cons part spans ih => rw [List.flatten_cons, leaves_append, ih, List.flatMap_cons]

theorem leaves_split_sublist (kinds : List Kind) (span : List Tree) :
    ((split kinds false span).flatMap leaves).Sublist (leaves span) := by
  rw [← leaves_flatten]
  apply leaves_sublist
  by_cases he : span = []
  · rw [he]
    exact .slnil
  · rw [split_of_ne_nil he, List.flatten_cons]
    conv => rhs; rw [← append_cut kinds span]
    refine (List.Sublist.refl _).append ?_
    generalize (cut kinds span).2 = others
    induction others with
    | nil => exact .slnil
    | cons c others ih =>
      rw [List.map_cons, List.flatten_cons, List.flatMap_cons]
      exact (List.sublist_cons_self _ _).append ih

theorem leaves_splitWhere_sublist (p : Tree → Bool) (span : List Tree) :
    ((splitWhere p span).flatMap leaves).Sublist (leaves span) := by
  rw [← leaves_flatten, flatten_splitWhere]
  exact leaves_sublist List.filter_sublist

end

section

variable {us us' : List Use} {xs ys : List Tree}

theorem AreMadeOf.of_leaves (h : AreMadeOf us xs) (hs : (leaves xs).Sublist (leaves ys)) :
    AreMadeOf us ys :=
  h.trans (usable_subperm hs)

theorem AreMadeOf.of_sublist (h : AreMadeOf us xs) (hs : xs.Sublist ys) : AreMadeOf us ys :=
  h.of_leaves (leaves_sublist hs)

theorem AreMadeOf.beside (h : AreMadeOf us xs) (h' : AreMadeOf us' ys) :
    AreMadeOf (us ++ us') (xs ++ ys) := by
  rw [AreMadeOf, leaves_append, usable_append]
  exact h.append h'

theorem AreMadeOf.behind {t : Token} {u : Use} (h : AreMadeOf us xs) (ht : usable [t] = [u]) :
    AreMadeOf (u :: us) (.token t :: xs) := by
  have hcons : leaves (.token t :: xs) = [t] ++ leaves xs := rfl
  rw [AreMadeOf, hcons, usable_append, ht]
  exact (List.subperm_append_left [u]).mpr h

/-- What is made of parts that stand in a span one after the other is made of the span. -/
theorem AreMadeOf.of_parts {parts : List (List Tree)}
    (h : us.Subperm (parts.flatMap fun part => usable (leaves part)))
    (hs : (parts.flatMap leaves).Sublist (leaves xs)) : AreMadeOf us xs := by
  rw [← usable_flatMap] at h
  exact h.trans (usable_subperm hs)

end

/-- What is used part by part is used in the whole. -/
theorem subperm_of_mapM {ε α β γ : Type} {f : α → Except ε β} {xs : List α} {ys : List β}
    (g : β → List γ) (available : α → List γ)
    (hf : ∀ x ∈ xs, ∀ y, f x = .ok y → (g y).Subperm (available x)) (h : xs.mapM f = .ok ys) :
    (ys.flatMap g).Subperm (xs.flatMap available) := by
  induction xs generalizing ys with
  | nil =>
    obtain rfl : [] = ys := Except.ok.inj h
    exact .refl _
  | cons x xs ih =>
    rw [List.mapM_cons] at h
    obtain ⟨first, hfirst, h⟩ := bind_eq_ok.mp h
    obtain ⟨rest, hrest, h⟩ := bind_eq_ok.mp h
    obtain rfl : first :: rest = ys := Except.ok.inj h
    rw [List.flatMap_cons, List.flatMap_cons]
    exact (hf x List.mem_cons_self first hfirst).append
      (ih (fun y hy => hf y (List.mem_cons_of_mem _ hy)) hrest)

section

variable {κ ν γ : Type} (same : κ → κ → Bool) (ofKey : κ → List γ) (ofValue : ν → List γ)

theorem put_subperm (key : κ) (value : ν) (entries : List (κ × ν)) :
    ((put same key value entries).flatMap fun e => ofKey e.1 ++ ofValue e.2).Subperm
      (entries.flatMap (fun e => ofKey e.1 ++ ofValue e.2) ++ (ofKey key ++ ofValue value)) := by
  induction entries with
  | nil =>
    rw [put, List.flatMap_cons, List.flatMap_nil, List.append_nil, List.nil_append]
  | cons entry entries ih =>
    rw [put]
    split
    next =>
      -- the value that is replaced and the key that is not taken over are given up
      rw [List.flatMap_cons, List.flatMap_cons, List.append_assoc, List.append_assoc,
        List.append_assoc]
      refine (List.subperm_append_left _).mpr (List.perm_append_comm.subperm.trans ?_)
      have hkept := List.sublist_append_right (ofKey key) (ofValue value)
      exact (((List.Sublist.refl _).append hkept).trans (List.sublist_append_right _ _)).subperm
    next =>
      rw [List.flatMap_cons, List.flatMap_cons, List.append_assoc _ _ (ofKey key ++ _)]
      exact (List.subperm_append_left _).mpr ih

/-- Collecting entries gives up what is replaced and takes nothing twice. -/
theorem collect_subperm (pairs : List (κ × ν)) :
    ((collect same pairs).flatMap fun e => ofKey e.1 ++ ofValue e.2).Subperm
      (pairs.flatMap fun e => ofKey e.1 ++ ofValue e.2) := by
  induction pairs using List.reverseRecOn with
  | nil => exact .refl _
  | append_singleton pairs pair ih =>
    rw [collect_append, List.flatMap_append, List.flatMap_singleton]
    exact (put_subperm _ _ _ _ _ _).trans ((List.subperm_append_right _).mpr ih)

end

section

variable {r : Readers} (hr : r.UsesOnce)

include hr

theorem Readers.UsesOnce.valueAt {span : List Tree} {position : Position} {v : Value}
    (h : r.valueAt span position = .ok v) : AreMadeOf v.uses span :=
  hr.value span v (Readers.value_of_valueAt h)

theorem uses_of_readArgument {opener : Position} {part : List Tree} {i : Nat}
    {argument : String × Value} (h : readArgument r opener part i = .ok argument) :
    AreMadeOf argument.2.uses part := by
  obtain ⟨t, rest, hl, -, hv⟩ | ⟨-, -, hv⟩ := readArgument_eq_ok h
  · exact (hr.valueAt hv).of_sublist (labelled?_parts hl).2
  · exact hr.valueAt hv

theorem uses_of_readEntry {opener : Position} {part : List Tree} {i : Nat} {entry : Value × Value}
    (h : readEntry r opener part i = .ok entry) :
    AreMadeOf (entry.1.keyUses ++ entry.2.uses) part := by
  obtain ⟨left, colon, right, hd, hk, hv⟩ | ⟨-, hkey, hv⟩ := readEntry_eq_ok h
  · have hused : AreMadeOf entry.1.keyUses left := (keyUses_subperm entry.1).trans (hr.valueAt hk)
    rw [eq_of_divide? hd]
    exact hused.beside ((hr.valueAt hv).of_sublist (List.sublist_cons_self _ _))
  · have hused : entry.1.keyUses = [] := by
      rw [hkey]
      simp [indexKey, Value.keyUses, Value.isIndexKey]
    rw [hused, List.nil_append]
    exact hr.valueAt hv

omit hr in
theorem uses_of_readListed {α : Type} {read : List Tree → Nat → Outcome α} {uses : α → List Use}
    {span : List Tree} {xs : List α}
    (hread : ∀ part i x, read part i = .ok x → AreMadeOf (uses x) part)
    (h : readListed read span = .ok xs) : AreMadeOf (xs.flatMap uses) span := by
  have hparts := subperm_of_mapM uses (fun p : List Tree × Nat => usable (leaves p.1))
    (fun p _ x hx => hread p.1 p.2 x hx) h
  have hfst := List.flatMap_map Prod.fst (fun part => usable (leaves part))
    (split [.comma] false span).zipIdx
  rw [List.zipIdx_map_fst] at hfst
  rw [← hfst] at hparts
  exact .of_parts hparts (leaves_split_sublist _ _)

theorem uses_of_readClauses {clauses : List (Token × List Tree)}
    (operators : ∀ c ∈ clauses, c.1.kind = .operator) {missing : Option Position}
    {parts : List Part} (h : readClauses r missing clauses = .ok parts) :
    AreMadeOf (parts.flatMap fun part => part.item.uses)
      (clauses.flatMap fun c => .token c.1 :: c.2) := by
  induction clauses generalizing missing parts with
  | nil =>
    obtain ⟨-, rfl⟩ := readClauses_nil_eq_ok h
    exact .refl _
  | cons c clauses ih =>
    obtain ⟨t, operand⟩ := c
    have hkind : t.kind = .operator := operators (t, operand) List.mem_cons_self
    have ih := fun missing parts h => @ih (fun c hc => operators c (List.mem_cons_of_mem _ hc))
      missing parts h
    have htoken : usable [t] = [.token t] :=
      usable_of_kept fun u hu => by
        rw [List.mem_singleton.mp hu, hkind]
        decide
    have hitem : ∀ rank,
        (if missing.isSome then Part.unary t rank else .binary t rank).item.uses = [.token t] := by
      intro rank
      cases missing <;> rfl
    rw [List.flatMap_cons, List.cons_append]
    obtain ⟨rank, rest, -, rfl, ⟨-, hrest⟩ | ⟨-, v, others, hv, hothers, rfl⟩⟩ :=
      readClauses_cons_eq_ok h
    · rw [List.flatMap_cons, hitem]
      exact ((ih _ _ hrest).of_sublist (List.sublist_append_right _ _)).behind htoken
    · rw [List.flatMap_cons, hitem, List.flatMap_cons]
      exact ((hr.valueAt hv).beside (ih _ _ hothers)).behind htoken

theorem uses_of_readParts {span : List Tree} {parts : List Part}
    (h : readParts r span = .ok parts) :
    AreMadeOf (parts.flatMap fun part => part.item.uses) span := by
  have operators : ∀ c ∈ (cut [.operator] span).2, c.1.kind = .operator :=
    fun c hc => List.mem_singleton.mp (kind_of_mem_cut hc)
  rw [← append_cut [.operator] span]
  obtain ⟨hnil, h⟩ | ⟨-, v, rest, hv, hrest, rfl⟩ := readParts_eq_ok h
  · rw [hnil]
    exact uses_of_readClauses hr operators h
  · rw [List.flatMap_cons]
    exact (hr.valueAt hv).beside (uses_of_readClauses hr operators hrest)

theorem uses_of_readPostfix {span : List Tree} {items : List Item}
    (h : readPostfix r span = .ok items) : AreMadeOf (items.flatMap Item.uses) span := by
  obtain ⟨parts, hp, h⟩ := bind_eq_ok.mp h
  obtain rfl := Except.ok.inj h
  have hperm := (shunt_perm [] parts).flatMap_right Item.uses
  rw [List.map_nil, List.nil_append, List.flatMap_map] at hperm
  exact hperm.subperm.trans (uses_of_readParts hr hp)

omit hr in
theorem uses_of_accessors? {span : List Tree} {accessors : List Token}
    (h : accessors? span = some accessors) : AreMadeOf (accessors.map .token) span := by
  induction span generalizing accessors with
  | nil =>
    obtain rfl := Option.some.inj h
    exact .refl _
  | cons tree span ih =>
    cases tree with
    | group items => cases h
    | token t =>
      rw [accessors?] at h
      split at h
      next => exact (ih h).of_sublist (List.sublist_cons_self _ _)
      next =>
        split at h
        next hv =>
          obtain ⟨others, ho, rfl⟩ := Option.map_eq_some_iff.mp h
          refine (ih ho).behind (usable_of_kept fun u hu => ?_)
          rw [List.mem_singleton.mp hu]
          cases hk : t.kind <;> simp_all [Kind.isValue]
        next => cases h

theorem uses_of_readShape {shape : Shape} {span : List Tree} (hd : shape.Divides span)
    {construct : Construct} (h : shape.read r = .ok construct) :
    AreMadeOf construct.uses span := by
  cases hd with
  | returning word =>
    obtain ⟨v, hv, h⟩ := bind_eq_ok.mp h
    obtain rfl := Except.ok.inj h
    exact (hr.valueAt hv).of_sublist (List.sublist_cons_self _ _)
  | @call callee arguments opener closer opens closes =>
    obtain ⟨pairs, hp, h⟩ := bind_eq_ok.mp h
    obtain ⟨v, hv, h⟩ := bind_eq_ok.mp h
    obtain rfl := Except.ok.inj h
    have hpairs : AreMadeOf (pairs.flatMap fun pair => [] ++ pair.2.uses) arguments :=
      uses_of_readListed (fun part i x hx => uses_of_readArgument hr hx) hp
    have hcollected := collect_subperm (· == ·) (fun _ => []) Value.uses pairs
    have hgroup : AreMadeOf (argumentUses (collect (· == ·) pairs)) [.group arguments] := by
      rw [argumentUses_eq]
      exact AreMadeOf.of_leaves (hcollected.trans hpairs) (List.sublist_append_left _ _)
    have hend : [Tree.group arguments].Sublist [opener, .group arguments, closer] :=
      (List.sublist_append_left [Tree.group arguments] [closer]).cons opener
    exact (hr.value callee v hv).beside (hgroup.of_sublist hend)
  | @access subject key opener closer opens closes =>
    obtain ⟨k, hk, h⟩ := bind_eq_ok.mp h
    obtain ⟨v, hv, h⟩ := bind_eq_ok.mp h
    obtain rfl := Except.ok.inj h
    have hkey : key.Sublist (opener :: (key ++ [closer])) :=
      (List.sublist_append_left _ _).cons opener
    exact (hr.value subject v hv).beside ((hr.valueAt hk).of_sublist hkey)
  | chain names =>
    obtain ⟨v, hv, h⟩ := bind_eq_ok.mp h
    obtain rfl := Except.ok.inj h
    exact (hr.value _ v hv).beside
      ((uses_of_accessors? names).of_sublist (List.sublist_cons_self _ _))
  | @lambda head body arrow parameters names =>
    obtain ⟨v, hv, h⟩ := bind_eq_ok.mp h
    obtain rfl := Except.ok.inj h
    have hbody : body.Sublist (head ++ .token arrow :: body) := sublist_behind _ _ _
    exact (hr.valueAt hv).of_sublist hbody
  | @dictionary entries opener closer opens closes =>
    obtain ⟨pairs, hp, h⟩ := bind_eq_ok.mp h
    obtain rfl := Except.ok.inj h
    have hpairs : AreMadeOf (pairs.flatMap fun pair => pair.1.keyUses ++ pair.2.uses) entries :=
      uses_of_readListed (fun part i x hx => uses_of_readEntry hr hx) hp
    have hcollected := collect_subperm Value.same Value.keyUses Value.uses pairs
    rw [Construct.uses, entryUses_eq]
    exact AreMadeOf.of_sublist (hcollected.trans hpairs)
      ((List.sublist_append_left _ _).cons opener)
  | operation first operator =>
    obtain ⟨items, hi, h⟩ := bind_eq_ok.mp h
    obtain rfl := Except.ok.inj h
    rw [Construct.uses, itemUses_eq]
    exact uses_of_readPostfix hr hi
  | @assignment left right t sign =>
    obtain ⟨target, htarget, h⟩ := bind_eq_ok.mp h
    obtain ⟨v, hv, h⟩ := bind_eq_ok.mp h
    obtain rfl := Except.ok.inj h
    have hsign : usable [t] = [.token t] :=
      usable_of_kept fun u hu => by
        rw [List.mem_singleton.mp hu, sign]
        decide
    exact (hr.valueAt htarget).beside ((hr.valueAt hv).behind hsign)

omit hr in
theorem uses_of_pathTokens {span : List Tree} {symbols : List Token}
    (h : span.mapM pathToken? = some symbols) : AreMadeOf (symbols.map .token) span := by
  induction span generalizing symbols with
  | nil =>
    obtain rfl := Option.some.inj h
    exact .refl _
  | cons tree span ih =>
    rw [List.mapM_cons] at h
    obtain ⟨t, ht, h⟩ := Option.bind_eq_some_iff.mp h
    obtain ⟨rest, hrest, h⟩ := Option.bind_eq_some_iff.mp h
    obtain rfl := Option.some.inj h
    obtain rfl := token_of_pathToken? ht
    refine (ih hrest).behind (usable_of_kept fun u hu => ?_)
    rw [List.mem_singleton.mp hu]
    rw [pathToken?] at ht
    split at ht
    next hk =>
      have hk : t.kind = .name ∨ t.kind = .dot := by simpa [Token.hasKindIn] using hk
      rcases hk with hk | hk <;> rw [hk] <;> decide
    next => cases ht

theorem uses_of_readSymbols {span : List Tree} {symbols : List Block}
    (h : readSymbols r span = .ok symbols) : AreMadeOf (blockUses symbols) span := by
  have hparts := subperm_of_mapM Block.uses (fun part => usable (leaves part))
    (fun part _ b hb => hr.block part b hb) h
  rw [blockUses_eq]
  exact .of_parts hparts ((List.filter_sublist.flatMap _).trans
    (leaves_splitWhere_sublist _ _))

theorem uses_of_steps {span : List Tree} {position : Position} {steps : List Value}
    (h : (stepsOf span).mapM (fun part => r.valueAt part position) = .ok steps) :
    AreMadeOf (valueUses steps) span := by
  have hparts := subperm_of_mapM Value.uses (fun part => usable (leaves part))
    (fun part _ v hv => hr.valueAt hv) h
  rw [valueUses_eq]
  have hleaves := leaves_split_sublist [.comma, .newline] (ungroup span)
  rw [leaves_ungroup] at hleaves
  exact .of_parts hparts ((List.filter_sublist.flatMap _).trans hleaves)

omit hr in
theorem uses_of_names (span : List Tree) :
    AreMadeOf ((span.filterMap Tree.name?).map .token) span := by
  induction span with
  | nil => exact .refl _
  | cons tree span ih =>
    cases hn : tree.name? with
    | none =>
      rw [List.filterMap_cons_none hn]
      exact ih.of_sublist (List.sublist_cons_self _ _)
    | some t =>
      rw [List.filterMap_cons_some hn]
      obtain rfl := token_of_name? hn
      refine ih.behind (usable_of_kept fun u hu => ?_)
      rw [List.mem_singleton.mp hu]
      rw [Tree.name?] at hn
      split at hn
      next hk => rw [hk]; decide
      next => cases hn

omit hr in
/-- Declared names stand before what the body is read from. -/
theorem uses_of_declarations? {span body : List Tree} {names : List Token} {us : List Use}
    (h : declarations? span = some (names, body)) (hus : AreMadeOf us body) :
    AreMadeOf (names.map .token ++ us) span := by
  cases span with
  | nil =>
    obtain ⟨rfl, rfl⟩ : [] = names ∧ [] = body := by simpa [declarations?] using h
    exact hus
  | cons first rest =>
    rw [declarations?] at h
    split at h
    next =>
      split at h
      next => cases h
      next closer after hd =>
        obtain ⟨rfl, rfl⟩ := Prod.mk.inj (Option.some.inj h)
        have hrest : rest.takeWhile (!·.hasKind .closeBracket) ++ closer :: after = rest := by
          rw [← hd]
          exact List.takeWhile_append_dropWhile
        have hboth := (uses_of_names (rest.takeWhile (!·.hasKind .closeBracket))).beside
          (hus.of_sublist (List.sublist_cons_self closer after))
        rw [hrest] at hboth
        exact hboth.of_sublist (List.sublist_cons_self first rest)
    next =>
      obtain ⟨rfl, rfl⟩ := Prod.mk.inj (Option.some.inj h)
      exact hus

/-- What a block is made of besides its heading. -/
def Block.bodyUses : Block → List Use
  | .imports _ symbols => symbols.map .token
  | .closure _ _ symbols => blockUses symbols
  | .conditional _ condition value => condition.uses ++ value.uses
  | .otherwise _ value => value.uses
  | .sequence _ steps => valueUses steps
  | .each _ _ iteratee value => iteratee.uses ++ value.uses
  | .repetition _ count value => count.uses ++ value.uses
  | .function _ _ _ value => value.uses

omit hr in
theorem Block.uses_eq (b : Block) : b.uses = b.heading.uses b.form ++ b.bodyUses := by
  cases b <;> rfl

theorem uses_of_readBody {form : BlockForm} {heading : Heading} {span : List Tree} {b : Block}
    (h : form.readBody r heading span = .ok b) : AreMadeOf b.bodyUses span := by
  obtain ⟨hform, hread⟩ := isReadFrom_of_readBody h
  have both : ∀ {v w}, r.value (headerAndBody span).1 = .ok v →
      r.value (headerAndBody span).2 = .ok w → AreMadeOf (v.uses ++ w.uses) span := by
    intro v w hv hw
    have hboth := (hr.value _ v hv).beside (hr.value _ w hw)
    rwa [headerAndBody_append] at hboth
  cases b with
  | imports heading symbols => exact uses_of_pathTokens hread.2.2
  | closure heading name symbols =>
    have hsymbols := uses_of_readSymbols hr hread.2.2
    rw [AreMadeOf, leaves_ungroup] at hsymbols
    exact AreMadeOf.of_sublist hsymbols (headerAndBody_snd_sublist span)
  | conditional heading condition value => exact both hread.2.1 hread.2.2
  | otherwise heading value => exact hr.value _ _ hread.2
  | sequence heading steps =>
    -- that each step is read from some part does not tell the parts apart
    obtain rfl : BlockForm.sequence = form := hform
    obtain ⟨steps', hsteps, h⟩ := bind_eq_ok.mp h
    split at h
    next => cases h
    next =>
      obtain ⟨-, rfl⟩ := Block.sequence.inj (Except.ok.inj h)
      exact uses_of_steps hr hsteps
  | each heading iterator iteratee value =>
    obtain ⟨-, part, hi, hiteratee, hvalue⟩ := hread
    have hheader := (hr.value part _ hiteratee).of_sublist (iteration?_sublist hi)
    have hboth := hheader.beside (hr.value _ _ hvalue)
    rwa [headerAndBody_append] at hboth
  | repetition heading count value => exact both hread.2.1 hread.2.2
  | function heading name parameters value =>
    obtain ⟨-, part, hp, hvalue⟩ := hread
    exact (hr.value part _ hvalue).of_leaves (leaves_functionParts?_sublist hp)

theorem uses_of_blockStep {span : List Tree} {b : Block} (h : blockStep r span = .ok b) :
    AreMadeOf b.uses span := by
  unfold blockStep at h
  split at h
  next => cases h
  next => cases h
  next t rest =>
    split at h
    next form hform =>
      obtain ⟨⟨heading, body⟩, hh, hread⟩ := bind_eq_ok.mp h
      have hbody := uses_of_readBody hr hread
      obtain ⟨hf, hb⟩ := isReadFrom_of_readBody hread
      rw [Block.uses_eq, hf, hb.heading_eq, Heading.uses]
      have hh := heading?_of_readHeading hh
      rw [heading?] at hh
      split at hh
      next =>
        obtain ⟨⟨names, after⟩, hd, he⟩ := Option.map_eq_some_iff.mp hh
        obtain ⟨rfl, rfl⟩ := Prod.mk.inj he
        have hinside := uses_of_declarations? hd hbody
        have hkeyword : usable [t] = [.keyword form t.span.start] := by
          rw [usable, List.filterMap_cons_some (Token.use?_of_introducedBy? hform)]
          rfl
        exact hinside.behind hkeyword
      next => cases hh
    next => cases h

theorem uses_of_readSimple {span : List Tree} {compound : List Tree → Outcome Value}
    (hc : ∀ w, compound span = .ok w → AreMadeOf w.uses span) {v : Value}
    (h : readSimple r span compound = .ok v) : AreMadeOf v.uses span := by
  obtain ⟨t, rfl, hk, rfl⟩ | ⟨inner, hi, hv⟩ | hv := readSimple_eq_ok h
  · have hnone : AreMadeOf [] [] := .refl _
    refine hnone.behind (usable_of_kept fun u hu => ?_)
    rw [List.mem_singleton.mp hu]
    cases ht : t.kind <;> simp_all [Kind.isValue]
  · exact (hr.value inner v hv).of_leaves (leaves_inParens?_sublist hi)
  · exact hc v hv

theorem uses_of_readFlat {span : List Tree} {v : Value} (h : readFlat r span = .ok v) :
    AreMadeOf v.uses span := by
  have hflat : AreMadeOf v.uses (regroup (spread span).1) := by
    refine uses_of_readSimple hr (fun w hw => ?_) h
    obtain ⟨shape, c, hs, hc, rfl⟩ := readConstruct_eq_ok hw
    exact uses_of_readShape hr (divides_of_shape? hs) hc
  refine hflat.of_leaves ?_
  rw [leaves_regroup]
  exact leaves_spread_sublist span

theorem uses_of_valueStep {span : List Tree} {v : Value} (h : valueStep r span = .ok v) :
    AreMadeOf v.uses span := by
  have hu := leaves_unwrap_sublist span
  obtain ⟨first, rest, hspan, ⟨-, b, hb, rfl⟩ | ⟨-, hv⟩⟩ := valueStep_eq_ok h
  · rw [hspan] at hu
    exact (uses_of_blockStep hr hb).of_leaves hu
  · rw [hspan] at hu
    exact (uses_of_readSimple hr (fun w hw => uses_of_readFlat hr hw) hv).of_leaves hu

end

theorem below_usesOnce (n : Nat) : (Readers.below n).UsesOnce := by
  induction n with
  | zero => exact ⟨fun _ _ h => (by cases h), fun _ _ h => (by cases h)⟩
  | succ n ih =>
    exact ⟨fun span v h => uses_of_valueStep ih h, fun span b h => uses_of_blockStep ih h⟩

theorem readers_useOnce : readers.UsesOnce :=
  ⟨fun span v h => (below_usesOnce (leafCount span + 1)).value span v h,
    fun span b h => (below_usesOnce (leafCount span + 1)).block span b h⟩

/-- Line breaks are of no use. -/
theorem usable_filter_breaks (tokens : List Token) :
    usable (tokens.filter (·.kind != .newline)) = usable tokens := by
  rw [usable, List.filterMap_filter]
  refine List.filterMap_congr fun t _ => ?_
  by_cases hn : t.kind = .newline
  · rw [Token.use?, if_pos hn, ite_self]
  · rw [if_pos (by simp [hn])]

theorem eq_of_use?_token {t u : Token} (h : t.use? = some (.token u)) : t = u := by
  rw [Token.use?] at h
  split at h
  next => cases h
  next =>
    split at h
    next => cases h
    next => exact Use.token.inj (Option.some.inj h)

theorem keyword_of_use? {t : Token} {form : BlockForm} {origin : Position}
    (h : t.use? = some (.keyword form origin)) :
    t.kind = .keyword ∧ t.text = form.keyword ∧ t.span.start = origin := by
  rw [Token.use?] at h
  split at h
  next => cases h
  next =>
    split at h
    next form' hform =>
      obtain ⟨rfl, horigin⟩ := Use.keyword.inj (Option.some.inj h)
      refine ⟨kind_of_introducedBy? hform, ?_, horigin⟩
      rw [BlockForm.introducedBy?, if_pos (kind_of_introducedBy? hform)] at hform
      have hword := List.find?_some hform
      exact (eq_of_beq hword).symm
    next => cases h

theorem position_of_use? {t : Token} {u : Use} (h : t.use? = some u) :
    u.position = t.span.start := by
  rw [Token.use?] at h
  split at h
  next => cases h
  next =>
    split at h
    next => cases h; rfl
    next => cases h; rfl

theorem positions_usable_sublist (tokens : List Token) :
    ((usable tokens).map Use.position).Sublist (tokens.map (·.span.start)) := by
  induction tokens with
  | nil => exact .slnil
  | cons t tokens ih =>
    cases hu : t.use? with
    | none =>
      rw [usable, List.filterMap_cons_none hu]
      exact ih.cons _
    | some u =>
      rw [usable, List.filterMap_cons_some hu, List.map_cons, List.map_cons, position_of_use? hu]
      exact ih.cons_cons _

/-- Tokens of a source take up room in its text. -/
theorem isIndexKey_eq_false {strategy : Strategy} {source : Source} {tokens : List Token}
    (h : tokensOf strategy source = .ok tokens) {t : Token} (ht : t ∈ tokens) :
    (Value.literal t).isIndexKey = false := by
  obtain ⟨k, hstart, hstop, -, hne⟩ := span_of_mem_tokensOf h ht
  have hapart : t.span.start ≠ t.span.stop := by
    obtain ⟨c, text, hc⟩ := List.exists_cons_of_ne_nil hne
    have hpos := c.utf8Size_pos
    rw [hstart, hstop, hc, byteLength_cons]
    intro he
    have := (Position.within.inj he).2
    omega
  simp [Value.isIndexKey, hapart]

/-- The tree of a program takes each token of the source at most once and has no others, index keys
apart: the tokens in it are tokens of the source, every block in it begins where its keyword does,
and no two of them all stand at the same place. The program itself has no keyword. -/
theorem readProgram_uses_tokens_once {strategy : Strategy} {source : Source} {program : Block}
    (h : readProgram strategy source = .ok program) :
    ∃ tokens, tokensOf strategy source = .ok tokens ∧
      (∀ t ∈ tokens, (Value.literal t).isIndexKey = false) ∧
      (∀ t, .token t ∈ program.uses.tail → t ∈ tokens) ∧
      (∀ form origin, .keyword form origin ∈ program.uses.tail →
        ∃ t ∈ tokens, t.kind = .keyword ∧ t.text = form.keyword ∧ t.span.start = origin) ∧
      (program.uses.tail.map Use.position).Nodup := by
  obtain ⟨tree, htree, hprogram⟩ := bind_eq_ok.mp h
  obtain ⟨tokens, ht, htree⟩ := bind_eq_ok.mp htree
  obtain ⟨indented, hi, htree⟩ := bind_eq_ok.mp htree
  obtain rfl := Except.ok.inj htree
  obtain ⟨symbols, hs, hprogram⟩ := bind_eq_ok.mp hprogram
  obtain rfl := Except.ok.inj hprogram
  have huses : (blockUses symbols).Subperm (usable tokens) := by
    have hmade := uses_of_readSymbols readers_useOnce hs
    rw [AreMadeOf, ← usable_filter_breaks, filter_leaves_nest, filter_indentFrom hi] at hmade
    exact hmade.trans (usable_subperm List.filter_sublist)
  have origin_of : ∀ u ∈ blockUses symbols, ∃ t ∈ tokens, t.use? = some u :=
    fun u hu => List.mem_filterMap.mp (huses.subset hu)
  refine ⟨tokens, ht, fun t hm => isIndexKey_eq_false ht hm, ?_, ?_, ?_⟩
  · intro t hu
    obtain ⟨t', hmem, huse⟩ := origin_of _ hu
    rwa [← eq_of_use?_token huse]
  · intro form origin hu
    obtain ⟨t, hmem, huse⟩ := origin_of _ hu
    exact ⟨t, hmem, keyword_of_use? huse⟩
  · obtain ⟨used, hperm, hused⟩ := huses
    have hnodup := (nodup_tokensOf ht).sublist (positions_usable_sublist tokens)
    exact (hperm.map Use.position).nodup_iff.mp (hnodup.sublist (hused.map _))

/-- The entry without a key is counted by a number of its own, which is no token of the source. -/
theorem readProgram_uses_tokens_of_entries :
    let source : Source := ⟨"", "do [k]\n  {b, 2: c} += x - 1", 0⟩
    ∃ program tokens, readProgram .classic source = .ok program ∧
      tokensOf .classic source = .ok tokens ∧
      program.uses.tail.map Use.position =
        [0, 4, 10, 13, 16, 19, 22, 26, 24].map (.within source) ∧
      (program.uses.tail.map Use.position).Nodup ∧
      ∀ t, .token t ∈ program.uses.tail → t ∈ tokens := by
  intro source
  obtain ⟨program, h, hplaces⟩ : ∃ program, readProgram .classic source = .ok program ∧
      program.uses.tail.map Use.position =
        [0, 4, 10, 13, 16, 19, 22, 26, 24].map (.within source) := by
    have hsome : (readProgram .classic source).toOption.map
        (fun program => program.uses.tail.map Use.position) =
          some ([0, 4, 10, 13, 16, 19, 22, 26, 24].map (.within source)) := by
      decide +kernel
    cases hr : readProgram .classic source with
    | ok program =>
      rw [hr] at hsome
      exact ⟨program, rfl, Option.some.inj hsome⟩
    | error d =>
      rw [hr] at hsome
      cases hsome
  obtain ⟨tokens, ht, -, hkept, -, hnodup⟩ := readProgram_uses_tokens_once h
  exact ⟨program, tokens, h, ht, hplaces, hnodup, hkept⟩

end Offside
