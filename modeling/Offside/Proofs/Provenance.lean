import Mathlib.Data.List.Forall2
import Mathlib.Data.List.Induction
import Offside.Proofs.Descent
import Offside.Reading

namespace Offside

theorem forall_mem_pair {α : Type} {P : α → Prop} {x y : α} (hx : P x) (hy : P y) :
    ∀ z ∈ [x, y], P z :=
  List.forall_mem_cons.mpr ⟨hx, List.forall_mem_singleton.mpr hy⟩

theorem bind_eq_ok {ε α β : Type} {x : Except ε α} {f : α → Except ε β} {b : β} :
    (x >>= f) = .ok b ↔ ∃ a, x = .ok a ∧ f a = .ok b := by
  cases x <;> simp [bind, Except.bind]

theorem forall₂_of_mapM {ε α β : Type} {f : α → Except ε β} {xs : List α} {ys : List β}
    (h : xs.mapM f = .ok ys) : List.Forall₂ (fun x y => f x = .ok y) xs ys := by
  induction xs generalizing ys with
  | nil =>
    obtain rfl : [] = ys := Except.ok.inj h
    exact .nil
  | cons x xs ih =>
    rw [List.mapM_cons] at h
    obtain ⟨first, hf, h⟩ := bind_eq_ok.mp h
    obtain ⟨rest, hr, h⟩ := bind_eq_ok.mp h
    obtain rfl : first :: rest = ys := Except.ok.inj h
    exact .cons hf (ih hr)

theorem exists_ok_of_mapM {ε α β : Type} {f : α → Except ε β} {xs : List α} {ys : List β}
    (h : xs.mapM f = .ok ys) : ∀ x ∈ xs, ∃ y, f x = .ok y := by
  have hall := forall₂_of_mapM h
  clear h
  induction hall with
  | nil =>
    intro x hx
    cases hx
  | cons hf _ ih => exact List.forall_mem_cons.mpr ⟨⟨_, hf⟩, ih⟩

theorem exists_of_mem_mapM {ε α β : Type} {f : α → Except ε β} {xs : List α} {ys : List β}
    (h : xs.mapM f = .ok ys) : ∀ y ∈ ys, ∃ x ∈ xs, f x = .ok y := by
  have hall := forall₂_of_mapM h
  clear h
  induction hall with
  | nil =>
    intro y hy
    cases hy
  | cons hf _ ih =>
    refine List.forall_mem_cons.mpr ⟨⟨_, List.mem_cons_self, hf⟩, ?_⟩
    intro y hy
    obtain ⟨x, hx, he⟩ := ih y hy
    exact ⟨x, List.mem_cons_of_mem _ hx, he⟩

/-- A value or a block of a syntax tree. -/
inductive Node where
  | value (value : Value)
  | block (block : Block)

def Block.values : Block → List Value
  | imports _ _ => []
  | closure _ _ _ => []
  | conditional _ condition value => [condition, value]
  | otherwise _ value => [value]
  | sequence _ steps => steps
  | each _ _ iteratee value => [iteratee, value]
  | repetition _ count value => [count, value]
  | function _ _ _ value => [value]

/-- The tokens that a block itself holds: the names it declares and the path it imports. -/
def Block.tokens : Block → List Token
  | imports h symbols => h.declarations ++ symbols
  | block => block.heading.declarations

def Item.values : Item → List Value
  | operand value => [value]
  | operator _ => []
  | unary _ => []

def Item.tokens : Item → List Token
  | operand _ => []
  | operator t => [t]
  | unary t => [t]

def Construct.values : Construct → List Value
  | returning value => [value]
  | call callee arguments => callee :: arguments.map Prod.snd
  | access subject key => [subject, key]
  | chain subject _ => [subject]
  | lambda _ body => [body]
  | dictionary entries => entries.flatMap fun entry => [entry.1, entry.2]
  | operation items => items.flatMap Item.values
  | assignment left _ right => [left, right]

def Construct.tokens : Construct → List Token
  | chain _ accessors => accessors
  | operation items => items.flatMap Item.tokens
  | assignment _ operator _ => [operator]
  | _ => []

namespace Node

def children : Node → List Node
  | value (.literal _) => []
  | value (.block b) => [block b]
  | value (.construct c) => c.values.map value
  | block b => b.symbols.map block ++ b.values.map value

/-- Where the tokens that a node itself holds begin, and where its keyword does. -/
def positions : Node → List Position
  | value (.literal t) => [t.span.start]
  | value (.block _) => []
  | value (.construct c) => c.tokens.map (·.span.start)
  | block b => b.heading.origin :: b.tokens.map (·.span.start)

/-- Whether a node is another one or stands anywhere inside it. -/
inductive Holds : Node → Node → Prop where
  | self (n : Node) : Holds n n
  | child {n c m : Node} (mem : c ∈ n.children) (holds : Holds c m) : Holds n m

/-- Whether everything in a node begins where one of some tokens begins. -/
def LiesOn (n : Node) (tokens : List Token) : Prop :=
  ∀ m, n.Holds m → ∀ p ∈ m.positions, p ∈ tokens.map (·.span.start)

/-- Whether a node lies on some tokens, and each block in it on its keyword and on tokens that
come later. -/
structure IsFrom (n : Node) (tokens : List Token) : Prop where
  liesOn : n.LiesOn tokens
  blocks : ∀ b, n.Holds (block b) → ∃ t ts, (t :: ts).Sublist tokens ∧
    b.heading.origin = t.span.start ∧ (block b).LiesOn (t :: ts)

theorem LiesOn.mono {n : Node} {us ts : List Token} (h : n.LiesOn us) (hs : us.Sublist ts) :
    n.LiesOn ts :=
  fun m hm p hp => (hs.map _).subset (h m hm p hp)

theorem IsFrom.mono {n : Node} {us ts : List Token} (h : n.IsFrom us) (hs : us.Sublist ts) :
    n.IsFrom ts := by
  refine ⟨h.liesOn.mono hs, ?_⟩
  intro b hb
  obtain ⟨t, after, ha, ho, hl⟩ := h.blocks b hb
  exact ⟨t, after, ha.trans hs, ho, hl⟩

theorem LiesOn.of_children {n : Node} {ts : List Token}
    (own : ∀ p ∈ n.positions, p ∈ ts.map (·.span.start))
    (children : ∀ c ∈ n.children, c.LiesOn ts) : n.LiesOn ts := by
  intro m hm
  cases hm with
  | self => exact own
  | child hc hm => exact children _ hc m hm

theorem IsFrom.of_children {v : Value} {ts : List Token}
    (own : ∀ p ∈ (value v).positions, p ∈ ts.map (·.span.start))
    (children : ∀ c ∈ (value v).children, c.IsFrom ts) : (value v).IsFrom ts := by
  refine ⟨LiesOn.of_children own fun c hc => (children c hc).liesOn, ?_⟩
  intro b hb
  cases hb with
  | child hc hb => exact (children _ hc).blocks b hb

theorem IsFrom.of_block {b : Block} {t : Token} {ts : List Token}
    (origin : b.heading.origin = t.span.start)
    (own : ∀ u ∈ b.tokens, u ∈ ts)
    (children : ∀ c ∈ (block b).children, c.IsFrom ts) : (block b).IsFrom (t :: ts) := by
  have hs : ts.Sublist (t :: ts) := List.sublist_cons_self t ts
  have hl : (block b).LiesOn (t :: ts) := by
    apply LiesOn.of_children
    · intro p hp
      rcases List.mem_cons.mp hp with rfl | hp
      · rw [origin]
        exact List.mem_cons_self
      · obtain ⟨u, hu, rfl⟩ := List.mem_map.mp hp
        exact List.mem_map.mpr ⟨u, List.mem_cons_of_mem _ (own u hu), rfl⟩
    · exact fun c hc => (children c hc).liesOn.mono hs
  refine ⟨hl, ?_⟩
  intro inner hi
  cases hi with
  | self => exact ⟨t, ts, .refl _, origin, hl⟩
  | child hc hi => exact ((children _ hc).mono hs).blocks inner hi

end Node

/-- Whether all that is read from a span comes from its tokens. -/
structure Readers.Sound (r : Readers) : Prop where
  value : ∀ span v, r.value span = .ok v → (Node.value v).IsFrom (leaves span)
  block : ∀ span b, r.block span = .ok b → (Node.block b).IsFrom (leaves span)

section

variable {κ ν : Type} {same : κ → κ → Bool} {P : κ → Prop} {Q : ν → Prop}

theorem forall_mem_put {key : κ} {value : ν} {entries : List (κ × ν)} (hk : P key) (hv : Q value)
    (h : ∀ e ∈ entries, P e.1 ∧ Q e.2) : ∀ e ∈ put same key value entries, P e.1 ∧ Q e.2 := by
  induction entries with
  | nil => exact List.forall_mem_singleton.mpr ⟨hk, hv⟩
  | cons entry entries ih =>
    have hentry := h entry List.mem_cons_self
    have hrest := fun e he => h e (List.mem_cons_of_mem _ he)
    intro e he
    rw [put] at he
    split at he
    next =>
      rcases List.mem_cons.mp he with rfl | he
      · exact ⟨hentry.1, hv⟩
      · exact hrest e he
    next =>
      rcases List.mem_cons.mp he with rfl | he
      · exact hentry
      · exact ih hrest e he

/-- What holds of all keys and of all values still does after they are collected. -/
theorem forall_mem_collect {pairs : List (κ × ν)} (h : ∀ e ∈ pairs, P e.1 ∧ Q e.2) :
    ∀ e ∈ collect same pairs, P e.1 ∧ Q e.2 := by
  induction pairs using List.reverseRecOn with
  | nil => exact List.forall_mem_nil _
  | append_singleton pairs pair ih =>
    obtain ⟨hpairs, hpair⟩ := List.forall_mem_append.mp h
    have hpair := List.forall_mem_singleton.mp hpair
    rw [collect_append]
    exact forall_mem_put hpair.1 hpair.2 (ih hpairs)

end

def Part.item : Part → Item
  | operand value => .operand value
  | binary t _ => .operator t
  | unary t _ => .unary t

/-- Shunting only reorders. -/
theorem shunt_perm (pending : List Pending) (parts : List Part) :
    (shunt pending parts).Perm (pending.map (·.item) ++ parts.map Part.item) := by
  induction parts generalizing pending with
  | nil => rw [shunt, List.map_nil, List.append_nil]
  | cons part parts ih =>
    cases part with
    | operand value => exact ((ih pending).cons _).trans List.perm_middle.symm
    | unary t rank => exact (ih _).trans List.perm_middle.symm
    | binary t rank =>
      have hsplit : pending.map (·.item) = (pending.takeWhile (·.rank.closedBy rank)).map (·.item) ++
          (pending.dropWhile (·.rank.closedBy rank)).map (·.item) := by
        rw [← List.map_append, List.takeWhile_append_dropWhile]
      have hrest := (ih (⟨.operator t, rank⟩ :: pending.dropWhile (·.rank.closedBy rank))).append_left
        ((pending.takeWhile (·.rank.closedBy rank)).map (·.item))
      rw [hsplit, List.append_assoc]
      exact hrest.trans (List.perm_middle.symm.append_left _)

section

variable {r : Readers} {ts : List Token}

theorem Readers.value_of_valueAt {span : List Tree} {position : Position} {v : Value}
    (h : r.valueAt span position = .ok v) : r.value span = .ok v := by
  rw [Readers.valueAt] at h
  cases hv : r.value span with
  | ok w =>
    rw [hv] at h
    exact h
  | error d =>
    rw [hv] at h
    cases h

/-! What has been read where reading comes to a value. -/

theorem readArgument_eq_ok {opener : Position} {part : List Tree} {i : Nat}
    {argument : String × Value} (h : readArgument r opener part i = .ok argument) :
    (∃ t rest, labelled? part = some (t, rest) ∧ argument.1 = t.text ∧
      r.valueAt rest t.span.start = .ok argument.2) ∨
    (labelled? part = none ∧ argument.1 = toString i ∧ r.valueAt part opener = .ok argument.2) := by
  unfold readArgument at h
  split at h
  next t rest hl =>
    obtain ⟨v, hv, h⟩ := bind_eq_ok.mp h
    obtain rfl := Except.ok.inj h
    exact .inl ⟨t, rest, hl, rfl, hv⟩
  next hl =>
    obtain ⟨v, hv, h⟩ := bind_eq_ok.mp h
    obtain rfl := Except.ok.inj h
    exact .inr ⟨hl, rfl, hv⟩

theorem readEntry_eq_ok {opener : Position} {part : List Tree} {i : Nat} {entry : Value × Value}
    (h : readEntry r opener part i = .ok entry) :
    (∃ left colon right, divide? [.colon] part = some (left, colon, right) ∧
      r.valueAt left colon.span.start = .ok entry.1 ∧
      r.valueAt right colon.span.start = .ok entry.2) ∨
    (divide? [.colon] part = none ∧ entry.1 = indexKey i ((origin part).orElse opener) ∧
      r.valueAt part ((origin part).orElse opener) = .ok entry.2) := by
  unfold readEntry at h
  split at h
  next left colon right hd =>
    obtain ⟨key, hk, h⟩ := bind_eq_ok.mp h
    obtain ⟨v, hv, h⟩ := bind_eq_ok.mp h
    obtain rfl := Except.ok.inj h
    exact .inl ⟨left, colon, right, hd, hk, hv⟩
  next hd =>
    obtain ⟨v, hv, h⟩ := bind_eq_ok.mp h
    obtain rfl := Except.ok.inj h
    exact .inr ⟨hd, rfl, hv⟩

theorem readClauses_nil_eq_ok {missing : Option Position} {parts : List Part}
    (h : readClauses r missing [] = .ok parts) : missing = none ∧ parts = [] := by
  cases missing with
  | some position => cases h
  | none => exact ⟨rfl, (Except.ok.inj h).symm⟩

theorem readClauses_cons_eq_ok {missing : Option Position} {t : Token} {operand : List Tree}
    {clauses : List (Token × List Tree)} {parts : List Part}
    (h : readClauses r missing ((t, operand) :: clauses) = .ok parts) :
    ∃ rank rest, operatorRank t = .ok rank ∧
      parts = (if missing.isSome then Part.unary t rank else .binary t rank) :: rest ∧
      ((operand = [] ∧ readClauses r (some t.span.start) clauses = .ok rest) ∨
        (operand ≠ [] ∧ ∃ v others, r.valueAt operand (origin operand) = .ok v ∧
          readClauses r none clauses = .ok others ∧ rest = .operand v :: others)) := by
  rw [readClauses] at h
  obtain ⟨rank, hrank, h⟩ := bind_eq_ok.mp h
  dsimp only at h
  split at h
  next hempty =>
    obtain ⟨rest, hrest, h⟩ := bind_eq_ok.mp h
    obtain rfl := Except.ok.inj h
    exact ⟨rank, rest, hrank, rfl, .inl ⟨List.isEmpty_iff.mp hempty, hrest⟩⟩
  next hempty =>
    obtain ⟨v, hv, h⟩ := bind_eq_ok.mp h
    obtain ⟨others, hothers, h⟩ := bind_eq_ok.mp h
    obtain rfl := Except.ok.inj h
    exact ⟨rank, .operand v :: others, hrank, rfl,
      .inr ⟨mt List.isEmpty_iff.mpr hempty, v, others, hv, hothers, rfl⟩⟩

theorem readParts_eq_ok {span : List Tree} {parts : List Part} (h : readParts r span = .ok parts) :
    ((cut [.operator] span).1 = [] ∧
      readClauses r (some (origin span)) (cut [.operator] span).2 = .ok parts) ∨
    ((cut [.operator] span).1 ≠ [] ∧ ∃ v rest,
      r.valueAt (cut [.operator] span).1 (origin (cut [.operator] span).1) = .ok v ∧
      readClauses r none (cut [.operator] span).2 = .ok rest ∧ parts = .operand v :: rest) := by
  rw [readParts] at h
  split at h
  next heq =>
    rw [heq]
    exact .inl ⟨rfl, h⟩
  next first clauses hne heq =>
    obtain ⟨v, hv, h⟩ := bind_eq_ok.mp h
    obtain ⟨rest, hrest, h⟩ := bind_eq_ok.mp h
    rw [heq]
    exact .inr ⟨hne, v, rest, hv, hrest, (Except.ok.inj h).symm⟩

theorem readSimple_eq_ok {span : List Tree} {compound : List Tree → Outcome Value} {v : Value}
    (h : readSimple r span compound = .ok v) :
    (∃ t : Token, span = [.token t] ∧ t.kind.isValue = true ∧ v = .literal t) ∨
    (∃ inner, inParens? span = some inner ∧ r.value inner = .ok v) ∨ compound span = .ok v := by
  unfold readSimple at h
  split at h
  next w hw =>
    obtain rfl := Except.ok.inj h
    unfold literal? at hw
    split at hw
    next t =>
      split at hw
      next hk => exact .inl ⟨t, rfl, hk, (Option.some.inj hw).symm⟩
      next => cases hw
    next => cases hw
  next =>
    split at h
    next inner hi => exact .inr (.inl ⟨inner, hi, h⟩)
    next => exact .inr (.inr h)

theorem readConstruct_eq_ok {span : List Tree} {v : Value} (h : readConstruct r span = .ok v) :
    ∃ shape c, shape? span = some shape ∧ shape.read r = .ok c ∧ v = .construct c := by
  unfold readConstruct at h
  split at h
  next shape hs =>
    obtain ⟨c, hc, h⟩ := bind_eq_ok.mp h
    exact ⟨shape, c, hs, hc, (Except.ok.inj h).symm⟩
  next => cases h

theorem valueStep_eq_ok {span : List Tree} {v : Value} (h : valueStep r span = .ok v) :
    ∃ first rest, unwrap span = first :: rest ∧
      ((first.opensBlock = true ∧ ∃ b, blockStep r (first :: rest) = .ok b ∧ v = .block b) ∨
        (first.opensBlock = false ∧ readSimple r (first :: rest) (readFlat r) = .ok v)) := by
  unfold valueStep at h
  split at h
  next => cases h
  next first rest hspan =>
    refine ⟨first, rest, hspan, ?_⟩
    split at h
    next hopens =>
      obtain ⟨b, hb, h⟩ := bind_eq_ok.mp h
      exact .inl ⟨hopens, b, hb, (Except.ok.inj h).symm⟩
    next hopens => exact .inr ⟨Bool.eq_false_iff.mpr hopens, h⟩

theorem Readers.Sound.valueAt (hr : r.Sound) {span : List Tree} {position : Position} {v : Value}
    (h : r.valueAt span position = .ok v) (hs : (leaves span).Sublist ts) :
    (Node.value v).IsFrom ts :=
  (hr.value span v (Readers.value_of_valueAt h)).mono hs

theorem Node.IsFrom.construct {c : Construct} (own : ∀ t ∈ c.tokens, t ∈ ts)
    (values : ∀ v ∈ c.values, (Node.value v).IsFrom ts) :
    (Node.value (.construct c)).IsFrom ts := by
  apply Node.IsFrom.of_children
  · intro p hp
    obtain ⟨t, ht, rfl⟩ := List.mem_map.mp hp
    exact List.mem_map.mpr ⟨t, own t ht, rfl⟩
  · intro n hn
    obtain ⟨v, hv, rfl⟩ := List.mem_map.mp hn
    exact values v hv

theorem readArgument_isFrom (hr : r.Sound) {part : List Tree} (hs : (leaves part).Sublist ts)
    {opener : Position} {i : Nat} {argument : String × Value}
    (h : readArgument r opener part i = .ok argument) : (Node.value argument.2).IsFrom ts := by
  obtain ⟨t, rest, hl, -, hv⟩ | ⟨-, -, hv⟩ := readArgument_eq_ok h
  · exact hr.valueAt hv ((leaves_sublist (labelled?_parts hl).2).trans hs)
  · exact hr.valueAt hv hs

theorem origin_mem {span : List Tree} {position : Position}
    (hp : position ∈ ts.map (·.span.start)) (hs : (leaves span).Sublist ts) :
    (origin span).orElse position ∈ ts.map (·.span.start) := by
  rw [origin, firstLeaf?]
  cases hl : leaves span with
  | nil => exact hp
  | cons t rest =>
    rw [hl] at hs
    have ht : t.span.start ∈ ts.map (·.span.start) :=
      List.mem_map.mpr ⟨t, hs.subset List.mem_cons_self, rfl⟩
    show t.span.start.orElse position ∈ _
    cases hq : t.span.start with
    | unknown => exact hp
    | within source offset =>
      rw [hq] at ht
      exact ht

theorem readEntry_isFrom (hr : r.Sound) {part : List Tree} (hs : (leaves part).Sublist ts)
    {opener : Position} (ho : opener ∈ ts.map (·.span.start)) {i : Nat} {entry : Value × Value}
    (h : readEntry r opener part i = .ok entry) :
    (Node.value entry.1).IsFrom ts ∧ (Node.value entry.2).IsFrom ts := by
  obtain ⟨left, colon, right, hd, hk, hv⟩ | ⟨-, hkey, hv⟩ := readEntry_eq_ok h
  · obtain rfl := eq_of_divide? hd
    have hleft : left.Sublist (left ++ .token colon :: right) := List.sublist_append_left _ _
    have hright : right.Sublist (left ++ .token colon :: right) := sublist_behind _ _ _
    exact ⟨hr.valueAt hk ((leaves_sublist hleft).trans hs),
      hr.valueAt hv ((leaves_sublist hright).trans hs)⟩
  · rw [hkey]
    refine ⟨?_, hr.valueAt hv hs⟩
    apply Node.IsFrom.of_children
    · intro p hp
      obtain rfl := List.mem_singleton.mp hp
      exact origin_mem ho hs
    · intro n hn
      cases hn

theorem forall_mem_readListed {α : Type} {read : List Tree → Nat → Outcome α} {span : List Tree}
    {xs : List α} {P : α → Prop} (h : readListed read span = .ok xs)
    (hp : ∀ part, part.Sublist span → ∀ i x, read part i = .ok x → P x) : ∀ x ∈ xs, P x := by
  intro x hx
  obtain ⟨⟨part, i⟩, hm, he⟩ := exists_of_mem_mapM h x hx
  have hpart : part ∈ split [.comma] false span := List.fst_mem_of_mem_zipIdx hm
  exact hp part (sublist_of_mem_split hpart) i x he

/-- What a part of an operator expression must satisfy to come from some tokens. -/
def Part.IsFrom (ts : List Token) (part : Part) : Prop :=
  (∀ v ∈ part.item.values, (Node.value v).IsFrom ts) ∧ ∀ t ∈ part.item.tokens, t ∈ ts

theorem Part.isFrom_operand {v : Value} (h : (Node.value v).IsFrom ts) :
    (Part.operand v).IsFrom ts := by
  exact ⟨List.forall_mem_singleton.mpr h, List.forall_mem_nil _⟩

theorem Part.isFrom_operator {t : Token} {rank : Rank} {missing : Bool} (h : t ∈ ts) :
    (if missing then Part.unary t rank else .binary t rank).IsFrom ts := by
  have hitem : ∀ u ∈ [t], u ∈ ts := List.forall_mem_singleton.mpr h
  have hvalue : ∀ v ∈ ([] : List Value), (Node.value v).IsFrom ts := List.forall_mem_nil _
  cases missing with
  | true => exact ⟨hvalue, hitem⟩
  | false => exact ⟨hvalue, hitem⟩

theorem readClauses_isFrom (hr : r.Sound) {clauses : List (Token × List Tree)}
    (tokens : ∀ c ∈ clauses, c.1 ∈ ts) (spans : ∀ c ∈ clauses, (leaves c.2).Sublist ts)
    {missing : Option Position} {parts : List Part}
    (h : readClauses r missing clauses = .ok parts) : ∀ part ∈ parts, part.IsFrom ts := by
  induction clauses generalizing missing parts with
  | nil =>
    obtain ⟨-, rfl⟩ := readClauses_nil_eq_ok h
    exact List.forall_mem_nil _
  | cons c clauses ih =>
    obtain ⟨t, operand⟩ := c
    have ht := tokens (t, operand) List.mem_cons_self
    have hs := spans (t, operand) List.mem_cons_self
    have ih' := fun m ps => @ih (fun c hc => tokens c (List.mem_cons_of_mem _ hc))
      (fun c hc => spans c (List.mem_cons_of_mem _ hc)) m ps
    obtain ⟨rank, rest, -, rfl, ⟨-, hrest⟩ | ⟨-, v, others, hv, hothers, rfl⟩⟩ :=
      readClauses_cons_eq_ok h
    · exact List.forall_mem_cons.mpr ⟨Part.isFrom_operator ht, ih' _ _ hrest⟩
    · exact List.forall_mem_cons.mpr ⟨Part.isFrom_operator ht,
        List.forall_mem_cons.mpr ⟨Part.isFrom_operand (hr.valueAt hv hs), ih' _ _ hothers⟩⟩

theorem readParts_isFrom (hr : r.Sound) {span : List Tree} {parts : List Part}
    (h : readParts r span = .ok parts) : ∀ part ∈ parts, part.IsFrom (leaves span) := by
  have hfirst : (leaves (cut [.operator] span).1).Sublist (leaves span) :=
    leaves_sublist cut_fst_sublist
  have clauses : ∀ {missing parts}, readClauses r missing (cut [.operator] span).2 = .ok parts →
      ∀ part ∈ parts, part.IsFrom (leaves span) :=
    fun hc => readClauses_isFrom hr (fun c hc => mem_leaves_of_token_mem (mem_of_mem_cut hc))
      (fun c hc => leaves_sublist (cut_snd_sublist hc)) hc
  obtain ⟨-, h⟩ | ⟨-, v, rest, hv, hrest, rfl⟩ := readParts_eq_ok h
  · exact clauses h
  · exact List.forall_mem_cons.mpr
      ⟨Part.isFrom_operand (hr.valueAt hv hfirst), clauses hrest⟩

theorem readPostfix_isFrom (hr : r.Sound) {span : List Tree} {items : List Item}
    (h : readPostfix r span = .ok items) :
    (Node.value (.construct (.operation items))).IsFrom (leaves span) := by
  obtain ⟨parts, hp, h⟩ := bind_eq_ok.mp h
  obtain rfl := Except.ok.inj h
  have hparts := readParts_isFrom hr hp
  have hitem : ∀ item ∈ shunt [] parts, ∃ part ∈ parts, part.item = item := by
    intro item hi
    have hm := (shunt_perm [] parts).subset hi
    exact List.mem_map.mp hm
  apply Node.IsFrom.construct
  · intro t ht
    obtain ⟨item, hi, ht⟩ := List.mem_flatMap.mp ht
    obtain ⟨part, hm, rfl⟩ := hitem item hi
    exact (hparts part hm).2 t ht
  · intro v hv
    obtain ⟨item, hi, hv⟩ := List.mem_flatMap.mp hv
    obtain ⟨part, hm, rfl⟩ := hitem item hi
    exact (hparts part hm).1 v hv

theorem readShape_isFrom (hr : r.Sound) {shape : Shape} (hd : shape.DrawnFrom ts)
    {construct : Construct} (h : shape.read r = .ok construct) :
    (Node.value (.construct construct)).IsFrom ts := by
  cases shape with
  | returning keyword span =>
    obtain ⟨v, hv, h⟩ := bind_eq_ok.mp h
    obtain rfl := Except.ok.inj h
    have hvalue := hr.valueAt hv hd
    exact .construct (List.forall_mem_nil _) (List.forall_mem_singleton.mpr hvalue)
  | call callee opener span =>
    obtain ⟨arguments, ha, h⟩ := bind_eq_ok.mp h
    obtain ⟨v, hv, h⟩ := bind_eq_ok.mp h
    obtain rfl := Except.ok.inj h
    have hargs : ∀ e ∈ arguments, True ∧ (Node.value e.2).IsFrom ts :=
      forall_mem_readListed ha fun part hp i e he =>
        ⟨trivial, readArgument_isFrom hr ((leaves_sublist hp).trans hd.2) he⟩
    have hcollected : ∀ e ∈ collect (· == ·) arguments, True ∧ (Node.value e.2).IsFrom ts :=
      forall_mem_collect (P := fun _ => True) (Q := fun v => (Node.value v).IsFrom ts) hargs
    have hcallee := (hr.value callee v hv).mono hd.1
    exact .construct (List.forall_mem_nil _)
      (List.forall_mem_cons.mpr ⟨hcallee, List.forall_mem_map.mpr fun e he => (hcollected e he).2⟩)
  | access subject opener span =>
    obtain ⟨key, hk, h⟩ := bind_eq_ok.mp h
    obtain ⟨v, hv, h⟩ := bind_eq_ok.mp h
    obtain rfl := Except.ok.inj h
    have hsubject := (hr.value subject v hv).mono hd.1
    exact .construct (List.forall_mem_nil _) (forall_mem_pair hsubject (hr.valueAt hk hd.2))
  | chain subject accessors =>
    obtain ⟨v, hv, h⟩ := bind_eq_ok.mp h
    obtain rfl := Except.ok.inj h
    have hsubject := (hr.value subject v hv).mono hd.1
    exact .construct hd.2 (List.forall_mem_singleton.mpr hsubject)
  | lambda parameters arrow span =>
    obtain ⟨v, hv, h⟩ := bind_eq_ok.mp h
    obtain rfl := Except.ok.inj h
    have hvalue := hr.valueAt hv hd
    exact .construct (List.forall_mem_nil _) (List.forall_mem_singleton.mpr hvalue)
  | dictionary opener span =>
    obtain ⟨entries, he, h⟩ := bind_eq_ok.mp h
    obtain rfl := Except.ok.inj h
    have hentries : ∀ e ∈ entries, (Node.value e.1).IsFrom ts ∧ (Node.value e.2).IsFrom ts :=
      forall_mem_readListed he fun part hp i e he =>
        readEntry_isFrom hr ((leaves_sublist hp).trans hd.2) hd.1 he
    have hcollected : ∀ e ∈ collect Value.same entries,
        (Node.value e.1).IsFrom ts ∧ (Node.value e.2).IsFrom ts :=
      forall_mem_collect (P := fun v => (Node.value v).IsFrom ts)
        (Q := fun v => (Node.value v).IsFrom ts) hentries
    refine .construct (List.forall_mem_nil _) ?_
    intro w hw
    obtain ⟨e, he, hw⟩ := List.mem_flatMap.mp hw
    have hentry : ∀ u ∈ [e.1, e.2], (Node.value u).IsFrom ts :=
      forall_mem_pair (hcollected e he).1 (hcollected e he).2
    exact hentry w hw
  | operation span =>
    obtain ⟨items, hi, h⟩ := bind_eq_ok.mp h
    obtain rfl := Except.ok.inj h
    exact (readPostfix_isFrom hr hi).mono hd
  | assignment left t right =>
    obtain ⟨target, htarget, h⟩ := bind_eq_ok.mp h
    obtain ⟨v, hv, h⟩ := bind_eq_ok.mp h
    obtain rfl := Except.ok.inj h
    have htoken : ∀ u ∈ [t], u ∈ ts := List.forall_mem_singleton.mpr hd.2.1
    exact .construct htoken (forall_mem_pair (hr.valueAt htarget hd.1) (hr.valueAt hv hd.2.2))

/-- What the parts of a block are read from, when `span` follows its heading. -/
def Block.IsReadFrom (r : Readers) (heading : Heading) (span : List Tree) : Block → Prop
  | imports h symbols => h = heading ∧ symbols ≠ [] ∧ span.mapM pathToken? = some symbols
  | closure h name symbols =>
    h = heading ∧ soleName? (headerAndBody span).1 = some name ∧
      readSymbols r (ungroup (headerAndBody span).2) = .ok symbols
  | conditional h condition value =>
    h = heading ∧ r.value (headerAndBody span).1 = .ok condition ∧
      r.value (headerAndBody span).2 = .ok value
  | otherwise h value => h = heading ∧ r.value span = .ok value
  | sequence h steps =>
    h = heading ∧ ∀ step ∈ steps, ∃ part ∈ stepsOf span, r.value part = .ok step
  | each h iterator iteratee value =>
    h = heading ∧ ∃ part, iteration? (headerAndBody span).1 = some (iterator, part) ∧
      r.value part = .ok iteratee ∧ r.value (headerAndBody span).2 = .ok value
  | repetition h count value =>
    h = heading ∧ r.value (headerAndBody span).1 = .ok count ∧
      r.value (headerAndBody span).2 = .ok value
  | function h name parameters value =>
    h = heading ∧ ∃ part, functionParts? span = some (name, parameters, part) ∧
      r.value part = .ok value

theorem isReadFrom_of_readBody {form : BlockForm} {heading : Heading} {span : List Tree}
    {b : Block} (h : form.readBody r heading span = .ok b) :
    b.form = form ∧ b.IsReadFrom r heading span := by
  cases form with
  | imports =>
    rw [BlockForm.readBody] at h
    split at h
    next t symbols hm =>
      obtain rfl := Except.ok.inj h
      exact ⟨rfl, rfl, List.cons_ne_nil t symbols, hm⟩
    next => cases h
  | closure =>
    rw [BlockForm.readBody] at h
    dsimp only at h
    split at h
    next name hn =>
      obtain ⟨symbols, hs, h⟩ := bind_eq_ok.mp h
      obtain rfl := Except.ok.inj h
      exact ⟨rfl, rfl, hn, hs⟩
    next => cases h
  | conditional =>
    rw [BlockForm.readBody] at h
    dsimp only at h
    split at h
    next => cases h
    next =>
      obtain ⟨condition, hc, h⟩ := bind_eq_ok.mp h
      obtain ⟨value, hv, h⟩ := bind_eq_ok.mp h
      obtain rfl := Except.ok.inj h
      exact ⟨rfl, rfl, Readers.value_of_valueAt hc, Readers.value_of_valueAt hv⟩
  | otherwise =>
    obtain ⟨value, hv, h⟩ := bind_eq_ok.mp h
    obtain rfl := Except.ok.inj h
    exact ⟨rfl, rfl, Readers.value_of_valueAt hv⟩
  | sequence =>
    obtain ⟨steps, hsteps, h⟩ := bind_eq_ok.mp h
    split at h
    next => cases h
    next =>
      obtain rfl := Except.ok.inj h
      refine ⟨rfl, rfl, ?_⟩
      intro step hm
      obtain ⟨part, hp, he⟩ := exists_of_mem_mapM hsteps step hm
      exact ⟨part, hp, Readers.value_of_valueAt he⟩
  | each =>
    rw [BlockForm.readBody] at h
    dsimp only at h
    split at h
    next iterator part hi =>
      split at h
      next => cases h
      next =>
        obtain ⟨iteratee, ht, h⟩ := bind_eq_ok.mp h
        obtain ⟨value, hv, h⟩ := bind_eq_ok.mp h
        obtain rfl := Except.ok.inj h
        exact ⟨rfl, rfl, part, hi, Readers.value_of_valueAt ht, Readers.value_of_valueAt hv⟩
    next => cases h
  | repetition =>
    rw [BlockForm.readBody] at h
    dsimp only at h
    split at h
    next => cases h
    next =>
      obtain ⟨count, hc, h⟩ := bind_eq_ok.mp h
      obtain ⟨value, hv, h⟩ := bind_eq_ok.mp h
      obtain rfl := Except.ok.inj h
      exact ⟨rfl, rfl, Readers.value_of_valueAt hc, Readers.value_of_valueAt hv⟩
  | function =>
    rw [BlockForm.readBody] at h
    dsimp only at h
    split at h
    next name parameters part hp =>
      obtain ⟨value, hv, h⟩ := bind_eq_ok.mp h
      obtain rfl := Except.ok.inj h
      exact ⟨rfl, rfl, part, hp, Readers.value_of_valueAt hv⟩
    next => cases h

theorem Block.IsReadFrom.heading_eq {heading : Heading} {span : List Tree} {b : Block}
    (h : b.IsReadFrom r heading span) : b.heading = heading := by
  cases b <;> exact h.1

theorem readSymbols_isFrom (hr : r.Sound) {span : List Tree} {symbols : List Block}
    (hs : (leaves span).Sublist ts) (h : readSymbols r span = .ok symbols) :
    ∀ b ∈ symbols, (Node.block b).IsFrom ts := by
  intro b hb
  obtain ⟨part, hp, he⟩ := exists_of_mem_mapM h b hb
  have hpart := sublist_of_mem_splitWhere (List.mem_filter.mp hp).1
  exact (hr.block part b he).mono ((leaves_sublist hpart).trans hs)

theorem mem_leaves_of_pathTokens {span : List Tree} {symbols : List Token}
    (h : span.mapM pathToken? = some symbols) : ∀ t ∈ symbols, t ∈ leaves span := by
  induction span generalizing symbols with
  | nil =>
    obtain rfl := Option.some.inj h
    intro t ht
    cases ht
  | cons tree span ih =>
    rw [List.mapM_cons] at h
    obtain ⟨u, hu, h⟩ := Option.bind_eq_some_iff.mp h
    obtain ⟨rest, hrest, h⟩ := Option.bind_eq_some_iff.mp h
    obtain rfl := Option.some.inj h
    obtain rfl := token_of_pathToken? hu
    intro t ht
    rcases List.mem_cons.mp ht with rfl | ht
    · exact List.mem_cons_self
    · exact List.mem_cons_of_mem _ (ih hrest t ht)

theorem values_isFrom (hr : r.Sound) {heading : Heading} {span : List Tree} {b : Block}
    (hs : (leaves span).Sublist ts) (h : b.IsReadFrom r heading span) :
    ∀ v ∈ b.values, (Node.value v).IsFrom ts := by
  have hheader := (leaves_sublist (headerAndBody_fst_sublist span)).trans hs
  have hbody := (leaves_sublist (headerAndBody_snd_sublist span)).trans hs
  have read : ∀ {part v}, r.value part = .ok v → (leaves part).Sublist ts →
      (Node.value v).IsFrom ts := fun hv hp => (hr.value _ _ hv).mono hp
  cases b with
  | imports heading symbols => exact List.forall_mem_nil _
  | closure heading name symbols => exact List.forall_mem_nil _
  | conditional heading condition value =>
    obtain ⟨-, hc, hv⟩ := h
    exact forall_mem_pair (read hc hheader) (read hv hbody)
  | otherwise heading value =>
    obtain ⟨-, hv⟩ := h
    exact List.forall_mem_singleton.mpr (read hv hs)
  | sequence heading steps =>
    intro v hm
    obtain ⟨part, hp, hv⟩ := h.2 v hm
    exact read hv ((leaves_sublist_of_mem_stepsOf hp).trans hs)
  | each heading iterator iteratee value =>
    obtain ⟨-, part, hi, ht, hv⟩ := h
    have hpart := (leaves_sublist (iteration?_sublist hi)).trans hheader
    exact forall_mem_pair (read ht hpart) (read hv hbody)
  | repetition heading count value =>
    obtain ⟨-, hc, hv⟩ := h
    exact forall_mem_pair (read hc hheader) (read hv hbody)
  | function heading name parameters value =>
    obtain ⟨-, part, hp, hv⟩ := h
    have hpart := (leaves_functionParts?_sublist hp).trans hs
    exact List.forall_mem_singleton.mpr (read hv hpart)

theorem symbols_isFrom (hr : r.Sound) {heading : Heading} {span : List Tree} {b : Block}
    (hs : (leaves span).Sublist ts) (h : b.IsReadFrom r heading span) :
    ∀ s ∈ b.symbols, (Node.block s).IsFrom ts := by
  cases b with
  | closure heading name symbols =>
    obtain ⟨-, -, hsymbols⟩ := h
    have hbody := (leaves_sublist (headerAndBody_snd_sublist span)).trans hs
    rw [← leaves_ungroup] at hbody
    exact readSymbols_isFrom hr hbody hsymbols
  | _ => exact List.forall_mem_nil _

theorem tokens_from {heading : Heading} {span : List Tree} {b : Block}
    (hs : (leaves span).Sublist ts) (names : ∀ t ∈ heading.declarations, t ∈ ts)
    (h : b.IsReadFrom r heading span) : ∀ t ∈ b.tokens, t ∈ ts := by
  cases b with
  | imports heading symbols =>
    obtain ⟨rfl, -, hm⟩ := h
    intro t ht
    rcases List.mem_append.mp ht with ht | ht
    · exact names t ht
    · exact hs.subset (mem_leaves_of_pathTokens hm t ht)
  | _ =>
    obtain ⟨rfl, -⟩ := h
    exact names

theorem heading?_of_readHeading {form : BlockForm} {span body : List Tree} {heading : Heading}
    (h : readHeading form span = .ok (heading, body)) : heading? form span = some (heading, body) := by
  unfold readHeading at h
  split at h
  next result hr =>
    obtain rfl := Except.ok.inj h
    exact hr
  next => cases h

/-- What a block is read from: its heading has been found, and is followed by its body. -/
theorem heading?_of_blockStep {span : List Tree} {b : Block} (h : blockStep r span = .ok b) :
    ∃ body, heading? b.form span = some (b.heading, body) ∧ b.IsReadFrom r b.heading body := by
  unfold blockStep at h
  split at h
  next => cases h
  next => cases h
  next =>
    split at h
    next form _ =>
      obtain ⟨⟨heading, body⟩, hh, hread⟩ := bind_eq_ok.mp h
      obtain ⟨rfl, hb⟩ := isReadFrom_of_readBody hread
      obtain rfl := hb.heading_eq
      exact ⟨body, heading?_of_readHeading hh, hb⟩
    next => cases h

/-- All that a span which is read as a block consists of: a keyword, declarations and a body. -/
theorem blockStep_parts {span : List Tree} {b : Block} (h : blockStep r span = .ok b) :
    ∃ t rest body, span = .token t :: rest ∧ b.heading.origin = t.span.start ∧ body <:+ rest ∧
      (∀ name ∈ b.heading.declarations, .token name ∈ rest) ∧
      b.IsReadFrom r b.heading body := by
  obtain ⟨body, hh, hb⟩ := heading?_of_blockStep h
  obtain ⟨t, rest, hspan, origin, hsuffix, names⟩ := heading?_parts hh
  exact ⟨t, rest, body, hspan, origin, hsuffix, names, hb⟩

theorem blockStep_isFrom (hr : r.Sound) {span : List Tree} {b : Block}
    (h : blockStep r span = .ok b) : (Node.block b).IsFrom (leaves span) := by
  obtain ⟨t, rest, body, rfl, origin, hsuffix, names, hb⟩ := blockStep_parts h
  have hs := leaves_sublist hsuffix.sublist
  have hnames : ∀ u ∈ b.heading.declarations, u ∈ leaves rest :=
    fun u hu => mem_leaves_of_token_mem (names u hu)
  apply Node.IsFrom.of_block origin
  · exact tokens_from hs hnames hb
  · intro c hc
    rcases List.mem_append.mp hc with hc | hc
    · obtain ⟨s, hm, rfl⟩ := List.mem_map.mp hc
      exact symbols_isFrom hr hs hb s hm
    · obtain ⟨v, hm, rfl⟩ := List.mem_map.mp hc
      exact values_isFrom hr hs hb v hm

theorem readSimple_isFrom (hr : r.Sound) {span : List Tree} {compound : List Tree → Outcome Value}
    (hc : ∀ w, compound span = .ok w → (Node.value w).IsFrom (leaves span)) {v : Value}
    (h : readSimple r span compound = .ok v) : (Node.value v).IsFrom (leaves span) := by
  obtain ⟨t, rfl, -, rfl⟩ | ⟨inner, hi, hv⟩ | hv := readSimple_eq_ok h
  · apply Node.IsFrom.of_children
    · intro p hp
      obtain rfl := List.mem_singleton.mp hp
      exact List.mem_cons_self
    · intro c hc
      cases hc
  · exact (hr.value inner v hv).mono (leaves_inParens?_sublist hi)
  · exact hc v hv

theorem readConstruct_isFrom (hr : r.Sound) {span : List Tree} {v : Value}
    (h : readConstruct r span = .ok v) : (Node.value v).IsFrom (leaves span) := by
  obtain ⟨shape, c, hs, hc, rfl⟩ := readConstruct_eq_ok h
  exact readShape_isFrom hr (drawnFrom_of_shape? hs) hc

theorem readFlat_isFrom (hr : r.Sound) {span : List Tree} {v : Value}
    (h : readFlat r span = .ok v) : (Node.value v).IsFrom (leaves span) := by
  have hv := readSimple_isFrom hr (fun w hw => readConstruct_isFrom hr hw) h
  rw [leaves_regroup] at hv
  exact hv.mono (leaves_spread_sublist span)

theorem valueStep_isFrom (hr : r.Sound) {span : List Tree} {v : Value}
    (h : valueStep r span = .ok v) : (Node.value v).IsFrom (leaves span) := by
  have hu := leaves_unwrap_sublist span
  obtain ⟨first, rest, hspan, ⟨-, b, hb, rfl⟩ | ⟨-, hv⟩⟩ := valueStep_eq_ok h
  · rw [hspan] at hu
    have hblock := (blockStep_isFrom hr hb).mono hu
    apply Node.IsFrom.of_children
    · intro p hp
      cases hp
    · intro c hc
      obtain rfl := List.mem_singleton.mp hc
      exact hblock
  · rw [hspan] at hu
    exact (readSimple_isFrom hr (fun w hw => readFlat_isFrom hr hw) hv).mono hu

end

theorem below_sound (n : Nat) : (Readers.below n).Sound := by
  induction n with
  | zero => exact ⟨fun _ _ h => (by cases h), fun _ _ h => (by cases h)⟩
  | succ n ih =>
    exact ⟨fun span v h => valueStep_isFrom ih h, fun span b h => blockStep_isFrom ih h⟩

theorem readers_sound : readers.Sound :=
  ⟨fun span v h => (below_sound (leafCount span + 1)).value span v h,
    fun span b h => (below_sound (leafCount span + 1)).block span b h⟩

end Offside
