import Mathlib.Data.Prod.Lex
import Mathlib.Logic.Relation
import Offside.Proofs.ReadingRuns

namespace Offside

/-- Whether a query is made of tokens of a span, in their order. -/
def Query.IsFrom (query : Query) (span : List Tree) : Prop :=
  (leaves query.span).Sublist (leaves span)

/-- Whether a query is made of some tokens of a span, but not of all. -/
def Query.IsShorter (query : Query) (span : List Tree) : Prop :=
  query.IsFrom span ∧ leafCount query.span < leafCount span

section

variable {query : Query} {part span : List Tree}

theorem Query.IsFrom.trans (h : query.IsFrom part) (hs : (leaves part).Sublist (leaves span)) :
    query.IsFrom span :=
  List.Sublist.trans h hs

theorem Query.IsFrom.leafCount_le (h : query.IsFrom span) :
    leafCount query.span ≤ leafCount span :=
  List.Sublist.length_le h

theorem Query.isFrom_value (h : query = .value part) (hs : (leaves part).Sublist (leaves span)) :
    query.IsFrom span := by
  rw [h]
  exact hs

theorem groupCount_le_of_sublist (h : part.Sublist span) : groupCount part ≤ groupCount span := by
  induction h with
  | slnil => exact Nat.le_refl _
  | cons tree _ ih =>
    rw [groupCount]
    omega
  | cons_cons tree _ ih =>
    rw [groupCount, groupCount]
    omega

end

namespace Stepwise

section

variable {limit : Option Nat} {query : Query} {span : List Tree}

theorem isFrom_of_readArgument {opener : Position} {part : List Tree} {i : Nat}
    (h : (readArgument opener part i).Asks query) : query.IsFrom part := by
  unfold readArgument at h
  split at h
  next t rest hl =>
    replace h := Run.asks_of_bind_pure h
    exact Query.isFrom_value (Run.asks_valueAt h) (leaves_sublist (labelled?_parts hl).2)
  next =>
    replace h := Run.asks_of_bind_pure h
    exact Query.isFrom_value (Run.asks_valueAt h) (.refl _)

theorem isFrom_of_readEntry {opener : Position} {part : List Tree} {i : Nat}
    (hf : Fits limit (bracketCount part)) (h : (readEntry limit opener part i).Asks query) :
    query.IsFrom part := by
  rw [readEntry, topIndex?_eq hf, Run.bind_done] at h
  cases hi : Offside.topIndex? [.colon] part with
  | none =>
    rw [hi] at h
    replace h := Run.asks_of_bind_pure h
    exact Query.isFrom_value (Run.asks_valueAt h) (.refl _)
  | some n =>
    obtain ⟨left, colon, right, rfl, rfl, -⟩ := divide?_of_topIndex? hi
    rw [hi] at h
    dsimp only at h
    rw [Run.item_append, Run.bind_done, Run.before_append, Run.bind_done] at h
    rcases Run.asks_bind h with h | ⟨key, h⟩
    · exact Query.isFrom_value (Run.asks_valueAt h)
        (leaves_sublist (List.sublist_append_left _ _))
    · rw [Run.behind_item, Run.bind_done] at h
      replace h := Run.asks_of_bind_pure h
      exact Query.isFrom_value (Run.asks_valueAt h) (leaves_sublist (sublist_behind _ _ _))

theorem isFrom_of_readListed {α : Type} {read : List Tree → Nat → Run α}
    (hf : Fits limit (bracketCount span))
    (hread : ∀ part ∈ Offside.split [.comma] false span, ∀ i,
      (read part i).Asks query → query.IsFrom part)
    (h : (readListed limit read span).Asks query) : query.IsFrom span := by
  rw [readListed, split_eq hf, Run.bind_done] at h
  obtain ⟨⟨part, i⟩, hm, h⟩ := Run.asks_mapM h
  have hpart := List.fst_mem_of_mem_zipIdx hm
  exact (hread part hpart i h).trans (leaves_sublist (sublist_of_mem_split hpart))

/-- What stands behind the operator of a part, or the whole of it. -/
def operandOf (part : List Tree) : List Tree :=
  if (operatorOf? part).isSome then part.drop 1 else part

theorem operandOf_of_operator {t : Token} {part : List Tree} (h : operatorOf? part = some t) :
    part = .token t :: operandOf part := by
  rw [operandOf, h]
  unfold operatorOf? at h
  split at h
  next t' operand =>
    split at h
    next => rw [Option.some.inj h]; rfl
    next => cases h
  next => cases h

theorem operand_of_readOperands {i : Nat} {missing : Bool} {last : Option Token}
    {parts : List (List Tree)} (h : (readOperands span i missing last parts).Asks query) :
    ∃ part ∈ parts, query = .value (operandOf part) := by
  have later : ∀ {part : List Tree} {parts : List (List Tree)},
      (∃ p ∈ parts, query = .value (operandOf p)) →
      ∃ p ∈ part :: parts, query = .value (operandOf p) :=
    fun ⟨p, hp, hr⟩ => ⟨p, List.mem_cons_of_mem _ hp, hr⟩
  induction parts generalizing i missing last with
  | nil => cases missing <;> exact h.elim
  | cons part parts ih =>
    rw [readOperands] at h
    cases ho : operatorOf? part with
    | some t =>
      rw [ho] at h
      have hbehind : Run.behind part 1 = .done (operandOf part) := by
        have hitem := Run.behind_first (.token t) (operandOf part)
        rwa [← operandOf_of_operator ho] at hitem
      rcases Run.asks_bind h with h | ⟨rank, h⟩
      · exact (Run.asks_ofOutcome h).elim
      · rw [hbehind, Run.bind_done] at h
        split at h
        next =>
          replace h := Run.asks_of_bind_pure h
          exact later (ih h)
        next =>
          rcases Run.asks_bind h with h | ⟨value, h⟩
          · exact ⟨part, List.mem_cons_self, Run.asks_valueAt h⟩
          · replace h := Run.asks_of_bind_pure h
            exact later (ih h)
    | none =>
      rw [ho] at h
      dsimp only at h
      split at h
      next => exact later (ih h)
      next =>
        rcases Run.asks_bind h with h | ⟨value, h⟩
        · have hwhole : operandOf part = part := by
            rw [operandOf, ho]
            rfl
          exact ⟨part, List.mem_cons_self, by rw [hwhole]; exact Run.asks_valueAt h⟩
        · replace h := Run.asks_of_bind_pure h
          exact later (ih h)

theorem operand_of_readPostfix (hf : Fits limit (bracketCount span))
    (h : (readPostfix limit span).Asks query) :
    query = .value (cut [.operator] span).1 ∨
      ∃ c ∈ (cut [.operator] span).2, query = .value c.2 := by
  rw [readPostfix, split_eq hf, Run.bind_done] at h
  replace h := Run.asks_of_bind_pure h
  obtain ⟨part, hm, hr⟩ := operand_of_readOperands h
  by_cases hne : span = []
  · subst hne
    cases hm
  · rw [split_operators hne] at hm
    rcases List.mem_cons.mp hm with rfl | hm
    · rw [operandOf, operatorOf?_cut] at hr
      exact .inl hr
    · obtain ⟨c, hc, rfl⟩ := List.mem_map.mp hm
      rw [operandOf, operatorOf?_token (List.mem_singleton.mp (kind_of_mem_cut hc))] at hr
      exact .inr ⟨c, hc, hr⟩

/-- Whatever a composite expression asks for is shorter than the span. -/
theorem shorter_of_readShape {shape : Shape} (drawn : shape.DrawnFrom (leaves span))
    (below : shape.IsBelow (leafCount span)) (hf : Fits limit (bracketCount span))
    (h : (readShape limit shape).Asks query) :
    query.IsShorter span := by
  have single : ∀ {part : List Tree}, query = .value part → (leaves part).Sublist (leaves span) →
      leafCount part < leafCount span →
      query.IsShorter span := by
    rintro part rfl hs hlt
    exact ⟨hs, hlt⟩
  have listed : ∀ {items : List Tree}, query.IsFrom items →
      (leaves items).Sublist (leaves span) → leafCount items < leafCount span →
      query.IsShorter span :=
    fun hfrom hs hlt => ⟨hfrom.trans hs, hfrom.leafCount_le.trans_lt hlt⟩
  cases shape with
  | returning keyword value =>
    replace h := Run.asks_of_bind_pure h
    exact single (Run.asks_valueAt h) drawn below
  | call callee opener arguments =>
    rcases Run.asks_bind h with h | ⟨pairs, h⟩
    · refine listed ?_ drawn.2 below.2
      exact isFrom_of_readListed (fits_of_leaves hf drawn.2)
        (fun part _ i => isFrom_of_readArgument) h
    · replace h := Run.asks_of_bind_pure h
      exact single (Run.asks_valueOf h) drawn.1 below.1
  | access subject opener key =>
    rcases Run.asks_bind h with h | ⟨k, h⟩
    · exact single (Run.asks_valueAt h) drawn.2 below.2
    · replace h := Run.asks_of_bind_pure h
      exact single (Run.asks_valueOf h) drawn.1 below.1
  | chain subject accessors =>
    replace h := Run.asks_of_bind_pure h
    exact single (Run.asks_valueOf h) drawn.1 below
  | lambda parameters arrow body =>
    replace h := Run.asks_of_bind_pure h
    exact single (Run.asks_valueAt h) drawn below
  | dictionary opener entries =>
    have hentries := fits_of_leaves hf drawn.2
    replace h := Run.asks_of_bind_pure h
    refine listed ?_ drawn.2 below
    exact isFrom_of_readListed hentries (fun part hm i => isFrom_of_readEntry
      (fits_of_leaves hentries (leaves_sublist (sublist_of_mem_split hm)))) h
  | operation items =>
    replace h := Run.asks_of_bind_pure h
    rcases operand_of_readPostfix (fits_of_leaves hf drawn) h with hr | ⟨c, hc, hr⟩
    · exact single hr ((leaves_sublist cut_fst_sublist).trans drawn) below.1
    · exact single hr ((leaves_sublist (cut_snd_sublist hc)).trans drawn) (below.2 c hc)
  | assignment left t right =>
    rcases Run.asks_bind h with h | ⟨target, h⟩
    · exact single (Run.asks_valueAt h) drawn.1 below.1
    · replace h := Run.asks_of_bind_pure h
      exact single (Run.asks_valueAt h) drawn.2.2 below.2

theorem isFrom_of_readSymbols (h : (readSymbols span).Asks query) : query.IsFrom span := by
  obtain ⟨part, hm, h⟩ := Run.asks_mapM h
  rw [Query.IsFrom, Run.asks_blockOf h]
  exact leaves_sublist (sublist_of_mem_splitWhere (List.mem_filter.mp hm).1)

theorem isFrom_of_valueAt_bind₂ {part part' : List Tree} {position : Position}
    {f : Value → Value → Block} (hs : (leaves part).Sublist (leaves span))
    (hs' : (leaves part').Sublist (leaves span))
    (h : (do
      let v ← Run.valueAt part position
      let w ← Run.valueAt part' position
      return f v w).Asks query) : query.IsFrom span := by
  rcases Run.asks_bind h with h | ⟨v, h⟩
  · exact Query.isFrom_value (Run.asks_valueAt h) hs
  · replace h := Run.asks_of_bind_pure h
    exact Query.isFrom_value (Run.asks_valueAt h) hs'

theorem isFrom_of_readBody {form : BlockForm} {heading : Heading}
    (hf : Fits limit (bracketCount span)) (h : (readBody limit form heading span).Asks query) :
    query.IsFrom span := by
  have hheader := leaves_sublist (headerAndBody_fst_sublist span)
  have hbody := leaves_sublist (headerAndBody_snd_sublist span)
  cases form with
  | imports =>
    rw [readBody] at h
    split at h <;> exact h.elim
  | closure =>
    rw [readBody, headerAndBody_eq, Run.bind_done] at h
    dsimp only at h
    split at h
    next =>
      replace h := Run.asks_of_bind_pure h
      refine (isFrom_of_readSymbols h).trans ?_
      rw [leaves_ungroup]
      exact hbody
    next => exact h.elim
  | conditional =>
    rw [readBody, headerAndBody_eq, Run.bind_done] at h
    dsimp only at h
    split at h
    next => exact h.elim
    next => exact isFrom_of_valueAt_bind₂ hheader hbody h
  | otherwise =>
    replace h := Run.asks_of_bind_pure h
    exact Query.isFrom_value (Run.asks_valueAt h) (.refl _)
  | sequence =>
    have hsteps : Fits limit (bracketCount (ungroup span)) :=
      fits_of_leaves hf (leaves_ungroup span ▸ .refl _)
    rw [readBody, split_eq hsteps, Run.bind_done] at h
    rcases Run.asks_bind h with h | ⟨steps, h⟩
    · obtain ⟨part, hm, h⟩ := Run.asks_mapM h
      exact Query.isFrom_value (Run.asks_valueAt h) (leaves_sublist_of_mem_stepsOf hm)
    · split at h <;> exact h.elim
  | each =>
    rw [readBody, headerAndBody_eq, Run.bind_done] at h
    dsimp only at h
    split at h
    next iterator part hi =>
      split at h
      next => exact h.elim
      next =>
        rw [behind_of_iteration? hi, Run.bind_done] at h
        have hpart := (leaves_sublist (iteration?_sublist hi)).trans hheader
        exact isFrom_of_valueAt_bind₂ hpart hbody h
    next => exact h.elim
  | repetition =>
    rw [readBody, headerAndBody_eq, Run.bind_done] at h
    dsimp only at h
    split at h
    next => exact h.elim
    next => exact isFrom_of_valueAt_bind₂ hheader hbody h
  | function =>
    rw [readBody, functionParts?_eq hf, Run.bind_done] at h
    cases hp : Offside.functionParts? span with
    | none =>
      rw [hp] at h
      exact h.elim
    | some parts =>
      obtain ⟨name, parameters, part⟩ := parts
      rw [hp] at h
      replace h := Run.asks_of_bind_pure h
      exact Query.isFrom_value (Run.asks_valueAt h) (leaves_functionParts?_sublist hp)

/-- Whatever a block asks for comes without its keyword. -/
theorem shorter_of_blockRun (hf : Fits limit (bracketCount span))
    (h : (blockRun limit span).Asks query) :
    query.IsShorter span := by
  unfold blockRun at h
  split at h
  next => exact h.elim
  next => exact h.elim
  next t _ =>
    split at h
    next => exact h.elim
    next form _ =>
      rw [readHeading_eq] at h
      cases hh : Offside.readHeading form span with
      | error d =>
        rw [hh] at h
        exact h.elim
      | ok parts =>
        obtain ⟨heading, body⟩ := parts
        obtain ⟨t', rest, rfl, -, hsuffix, -⟩ := heading?_parts (heading?_of_readHeading hh)
        have hbody : (leaves body).Sublist (leaves (.token t' :: rest)) :=
          leaves_sublist (hsuffix.sublist.cons (.token t'))
        have hlt := leafCount_le_of_sublist hsuffix.sublist
        rw [hh] at h
        have hfrom := isFrom_of_readBody (fits_of_leaves hf hbody) h
        refine ⟨hfrom.trans hbody, ?_⟩
        have hle := hfrom.leafCount_le
        rw [leafCount_token_cons]
        omega

theorem shorter_of_simpleRun {compound : Run Value}
    (hc : compound.Asks query →
      query.IsShorter span)
    (h : (simpleRun span compound).Asks query) :
    query.IsShorter span := by
  unfold simpleRun at h
  split at h
  next => exact h.elim
  next =>
    split at h
    next inner hi =>
      rw [Run.asks_valueOf h]
      exact ⟨leaves_inParens?_sublist hi, leafCount_inParens?_lt hi⟩
    next => exact hc h

theorem shorter_of_constructRun (hf : Fits limit (bracketCount span))
    (h : (constructRun limit span).Asks query) :
    query.IsShorter span := by
  rw [constructRun, shape?_eq hf, Run.bind_done] at h
  cases hs : Offside.shape? span with
  | none =>
    rw [hs] at h
    exact h.elim
  | some shape =>
    rw [hs] at h
    replace h := Run.asks_of_bind_pure h
    exact shorter_of_readShape (drawnFrom_of_shape? hs) (divides_of_shape? hs).isBelow hf h

theorem shorter_of_flat (hf : Fits limit (bracketCount span))
    (h : (do
      let flat ← spread span
      let grouped ← regroup limit flat.1
      simpleRun grouped (constructRun limit grouped)).Asks query) :
    query.IsShorter span := by
  have hleaves : (leaves (Offside.regroup (Offside.spread span).1)).Sublist (leaves span) := by
    rw [leaves_regroup]
    exact leaves_spread_sublist span
  have hflat := fits_of_leaves hf (leaves_spread_sublist span)
  rw [spread_eq, Run.bind_done, regroup_eq hflat, Run.bind_done] at h
  obtain ⟨hfrom, hlt⟩ :=
    shorter_of_simpleRun (shorter_of_constructRun (fits_of_leaves hf hleaves)) h
  exact ⟨hfrom.trans hleaves, hlt.trans_le hleaves.length_le⟩

end

end Stepwise

section

/-- Of two queries for spans of as many tokens, the one for a block is the smaller, and of two
for values the one with fewer groups. -/
def Query.rank : Query → Nat
  | .value span => groupCount span + 1
  | .block _ => 0

/-- Whether a query is smaller than another one. -/
def Query.IsBelow (query other : Query) : Prop :=
  Prod.Lex (· < ·) (· < ·) (leafCount query.span, query.rank) (leafCount other.span, other.rank)

/-- Whether the run that answers a query makes another one. -/
def Query.Makes (limit : Option Nat) : Query → Query → Prop
  | .value span, query => (Stepwise.valueRun limit span).Asks query
  | .block span, query => (Stepwise.blockRun limit span).Asks query

variable {limit : Option Nat} {query next : Query}

theorem Query.isBelow_of_le (hle : leafCount query.span ≤ leafCount next.span)
    (hrank : query.rank < next.rank) : query.IsBelow next := by
  rw [IsBelow, Prod.lex_def]
  exact (Nat.lt_or_eq_of_le hle).imp_right fun he => ⟨he, hrank⟩

theorem Query.isBelow_of_lt (hlt : leafCount query.span < leafCount next.span) :
    query.IsBelow next :=
  Prod.Lex.left _ _ hlt

theorem Query.IsBelow.trans {a b c : Query} (h : a.IsBelow b) (h' : b.IsBelow c) :
    a.IsBelow c := by
  rw [IsBelow, Prod.lex_def] at *
  omega

theorem Stepwise.below_of_valueRun {span : List Tree} (hf : Fits limit (bracketCount span))
    (h : (valueRun limit span).Asks query) :
    query.IsFrom span ∧ query.IsBelow (.value span) := by
  have hline := leaves_sublist (joinLines_sublist span)
  have hgroups := groupCount_le_of_sublist (joinLines_sublist span)
  have shorter : query.IsFrom (joinLines span) ∧
        leafCount query.span < leafCount (joinLines span) →
      query.IsFrom span ∧ query.IsBelow (.value span) :=
    fun ⟨hfrom, hlt⟩ => ⟨hfrom.trans hline, Query.isBelow_of_lt (hlt.trans_le hline.length_le)⟩
  rw [valueRun] at h
  generalize joinLines span = line at *
  split at h
  next => exact h.elim
  next first _ =>
    split at h
    next =>
      replace h := Run.asks_of_bind_pure h
      rw [Run.asks_blockOf h]
      exact ⟨hline, Query.isBelow_of_le hline.length_le (Nat.succ_pos _)⟩
    next =>
      split at h
      next items hs =>
        obtain rfl := eq_of_soleGroup? hs
        have hitems : leaves [.group items] = leaves items := List.append_nil _
        have hcount : groupCount [.group items] = groupCount items + 1 := rfl
        rw [Run.asks_valueOf h]
        rw [hitems] at hline
        exact ⟨hline, Query.isBelow_of_le hline.length_le (by
          show groupCount items + 1 < groupCount span + 1
          omega)⟩
      next =>
        exact shorter (shorter_of_simpleRun (shorter_of_flat (fits_of_leaves hf hline)) h)

/-- A query is only made on behalf of a larger one. -/
theorem Query.Makes.isBelow (hf : Fits limit (bracketCount query.span))
    (h : query.Makes limit next) : next.IsFrom query.span ∧ next.IsBelow query := by
  cases query with
  | value span => exact Stepwise.below_of_valueRun hf h
  | block span =>
    obtain ⟨hfrom, hlt⟩ := Stepwise.shorter_of_blockRun hf h
    exact ⟨hfrom, isBelow_of_lt hlt⟩

/-- How a run ends if each query is answered by the run for it. It breaks off where one of
those does. -/
inductive Ends (limit : Option Nat) : {α : Type} → Run α → Option (Outcome α) → Prop
  | done {α : Type} (result : α) : Ends limit (.done result) (some (.ok result))
  | refused {α : Type} (diagnostic : Diagnostic) :
    Ends limit (.refused diagnostic : Run α) (some (.error diagnostic))
  | broken {α : Type} : Ends limit (.broken : Run α) none
  | value {α : Type} {span : List Tree} {next : Outcome Value → Run α} {answer : Outcome Value}
    {outcome : Option (Outcome α)} (asked : Ends limit (Stepwise.valueRun limit span) (some answer))
    (after : Ends limit (next answer) outcome) : Ends limit (.value span next) outcome
  | valueBroken {α : Type} {span : List Tree} {next : Outcome Value → Run α}
    (asked : Ends limit (Stepwise.valueRun limit span) none) : Ends limit (.value span next) none
  | block {α : Type} {span : List Tree} {next : Outcome Block → Run α} {answer : Outcome Block}
    {outcome : Option (Outcome α)} (asked : Ends limit (Stepwise.blockRun limit span) (some answer))
    (after : Ends limit (next answer) outcome) : Ends limit (.block span next) outcome
  | blockBroken {α : Type} {span : List Tree} {next : Outcome Block → Run α}
    (asked : Ends limit (Stepwise.blockRun limit span) none) : Ends limit (.block span next) none

theorem Ends.unique {α : Type} {run : Run α} {outcome outcome' : Option (Outcome α)}
    (h : Ends limit run outcome) (h' : Ends limit run outcome') : outcome = outcome' := by
  induction h with
  | done result => cases h'; rfl
  | refused diagnostic => cases h'; rfl
  | broken => cases h'; rfl
  | value asked after ihasked ihafter =>
    cases h' with
    | value asked' after' =>
      obtain rfl := Option.some.inj (ihasked asked')
      exact ihafter after'
    | valueBroken asked' => cases ihasked asked'
  | valueBroken asked ihasked =>
    cases h' with
    | value asked' after' => cases ihasked asked'
    | valueBroken asked' => rfl
  | block asked after ihasked ihafter =>
    cases h' with
    | block asked' after' =>
      obtain rfl := Option.some.inj (ihasked asked')
      exact ihafter after'
    | blockBroken asked' => cases ihasked asked'
  | blockBroken asked ihasked =>
    cases h' with
    | block asked' after' => cases ihasked asked'
    | blockBroken asked' => rfl

/-- Whether the run for a query ends with what the readers answer. -/
def Query.IsAnswered (limit : Option Nat) : Query → Prop
  | .value span => Ends limit (Stepwise.valueRun limit span) (some (readValue span))
  | .block span => Ends limit (Stepwise.blockRun limit span) (some (readBlock span))

theorem ends_of_isAnswered {α : Type} {run : Run α}
    (h : ∀ query, run.Asks query → query.IsAnswered limit) :
    Ends limit run (run.eval readers) := by
  induction run with
  | done result => exact .done result
  | refused diagnostic => exact .refused diagnostic
  | broken => exact .broken
  | value span next ih =>
    exact .value (h (.value span) (.inl rfl))
      (ih (readValue span) fun query hr => h query (.inr ⟨_, hr⟩))
  | block span next ih =>
    exact .block (h (.block span) (.inl rfl))
      (ih (readBlock span) fun query hr => h query (.inr ⟨_, hr⟩))

theorem isAnswered (query : Query) (hf : Fits limit (bracketCount query.span)) :
    query.IsAnswered limit := by
  have inside : ∀ next, query.Makes limit next → next.IsAnswered limit := by
    intro next hm
    obtain ⟨hfrom, hbelow⟩ := hm.isBelow hf
    exact isAnswered next (hf.mono (bracketCount_le hfrom))
  cases query with
  | value span =>
    have h := ends_of_isAnswered inside
    rwa [@Stepwise.eval_valueRun _ span hf] at h
  | block span =>
    have h := ends_of_isAnswered inside
    rwa [@Stepwise.eval_blockRun _ _ span hf, ← readBlock_eq] at h
termination_by (leafCount query.span, query.rank)
decreasing_by exact hbelow

theorem isBelow_of_transGen (h : Relation.TransGen (Query.Makes none) query next) :
    next.IsBelow query := by
  induction h with
  | single h => exact (h.isBelow (fits_none _)).2
  | tail _ h ih => exact (h.isBelow (fits_none _)).2.trans ih

theorem Stepwise.eval_programOf (source : Source) (tree : List Tree) :
    (programOf source tree).eval readers = some (Offside.programOf source tree) :=
  Run.eval_bind_of_eval (eval_readSymbols tree) fun _ => rfl

theorem Stepwise.ends_programOf (source : Source) {tree : List Tree}
    (hf : Fits limit (bracketCount tree)) :
    Ends limit (programOf source tree) (some (Offside.programOf source tree)) := by
  rw [← eval_programOf]
  refine ends_of_isAnswered fun query h => isAnswered query ?_
  replace h := Run.asks_of_bind_pure h
  exact hf.mono (bracketCount_le (isFrom_of_readSymbols h))

/-- Reading ends, however a tree is made up. A value is only read on behalf of another one from
fewer tokens, or from no more tokens in fewer groups, and a block on behalf of another one only
from fewer tokens. -/
theorem reading_descends :
    (∀ span part, Relation.TransGen (Query.Makes none) (.value span) (.value part) →
      leafCount part < leafCount span ∨
        leafCount part ≤ leafCount span ∧ groupCount part < groupCount span) ∧
    (∀ span part, Relation.TransGen (Query.Makes none) (.block span) (.block part) →
      leafCount part < leafCount span) ∧
    (∀ span outcome,
      Ends none (Stepwise.valueRun none span) outcome ↔ outcome = some (readValue span)) ∧
    (∀ span outcome,
      Ends none (Stepwise.blockRun none span) outcome ↔ outcome = some (readBlock span)) ∧
    ∀ source tree outcome,
      Ends none (Stepwise.programOf source tree) outcome ↔
        outcome = some (programOf source tree) := by
  have only : ∀ {α : Type} {run : Run α} {outcome : Option (Outcome α)}, Ends none run outcome →
      ∀ outcome', Ends none run outcome' ↔ outcome' = outcome :=
    fun h outcome' => ⟨fun h' => h'.unique h, fun he => he ▸ h⟩
  refine ⟨fun span part h => ?_, fun span part h => ?_, fun span => ?_, fun span => ?_,
    fun source tree => only (Stepwise.ends_programOf source (fits_none _))⟩
  · have hbelow := isBelow_of_transGen h
    rw [Query.IsBelow, Prod.lex_def] at hbelow
    rcases hbelow with hlt | ⟨he, hlt⟩
    · exact .inl hlt
    · exact .inr ⟨Nat.le_of_eq he, Nat.lt_of_succ_lt_succ hlt⟩
  · have hbelow := isBelow_of_transGen h
    rw [Query.IsBelow, Prod.lex_def] at hbelow
    rcases hbelow with hlt | ⟨-, hlt⟩
    · exact hlt
    · exact absurd hlt (Nat.lt_irrefl 0)
  · exact only (isAnswered (.value span) (fits_none _))
  · exact only (isAnswered (.block span) (fits_none _))

/-- The step of a sequence is read on behalf of the value that the sequence is. -/
theorem reading_descends_through_block :
    let word : Tree := .token ⟨.keyword, "do", default⟩
    let name : Tree := .token ⟨.name, "a", default⟩
    Relation.TransGen (Query.Makes none) (.value [word, name]) (.value [name]) ∧
      (leafCount [name] < leafCount [word, name] ∨
        leafCount [name] ≤ leafCount [word, name] ∧ groupCount [name] < groupCount [word, name]) := by
  intro word name
  have hblock : Query.Makes none (.value [word, name]) (.block [word, name]) := .inl rfl
  have hvalue : Query.Makes none (.block [word, name]) (.value [name]) := .inl rfl
  have hmakes := (Relation.TransGen.single hblock).tail hvalue
  exact ⟨hmakes, reading_descends.1 [word, name] [name] hmakes⟩

end

end Offside
