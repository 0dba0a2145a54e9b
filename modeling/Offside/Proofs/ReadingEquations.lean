import Offside.Proofs.Descent
import Offside.Reading

namespace Offside

theorem mapM_congr {ε α β : Type} {f g : α → Except ε β} {xs : List α}
    (h : ∀ x ∈ xs, f x = g x) : xs.mapM f = xs.mapM g := by
  induction xs with
  | nil => rfl
  | cons x xs ih =>
    rw [List.mapM_cons, List.mapM_cons, h x List.mem_cons_self,
      ih fun y hy => h y (List.mem_cons_of_mem _ hy)]

theorem Readers.AgreeBelow.mono {r r' : Readers} {n bound : Nat} (h : r.AgreeBelow r' bound)
    (hn : n ≤ bound) : r.AgreeBelow r' n :=
  ⟨fun part hp => h.value part (by omega), fun part hp => h.block part (by omega)⟩

section

variable {r r' : Readers} {bound : Nat} (h : r.AgreeBelow r' bound)

include h

theorem Readers.AgreeBelow.valueAt {part : List Tree} (hp : leafCount part < bound)
    (p : Position) : r.valueAt part p = r'.valueAt part p := by
  rw [Readers.valueAt, Readers.valueAt, h.value part hp]

theorem readArgument_congr (opener : Position) {part : List Tree} (hp : leafCount part < bound)
    (i : Nat) : readArgument r opener part i = readArgument r' opener part i := by
  rw [readArgument, readArgument]
  split
  next t rest hl =>
    have hle := leafCount_le_of_sublist (labelled?_parts hl).2
    rw [h.valueAt (by omega)]
  next => rw [h.valueAt hp]

theorem readEntry_congr (opener : Position) {part : List Tree} (hp : leafCount part < bound)
    (i : Nat) : readEntry r opener part i = readEntry r' opener part i := by
  rw [readEntry, readEntry]
  split
  next left colon right hd =>
    rw [eq_of_divide? hd, leafCount_append, leafCount_token_cons] at hp
    rw [h.valueAt (by omega), h.valueAt (by omega)]
  next =>
    dsimp only
    rw [h.valueAt hp]

omit h in
theorem readListed_congr {α : Type} {read read' : List Tree → Nat → Outcome α}
    (hread : ∀ part, leafCount part < bound → ∀ i, read part i = read' part i)
    {span : List Tree} (hs : leafCount span < bound) :
    readListed read span = readListed read' span := by
  refine mapM_congr ?_
  rintro ⟨part, i⟩ hm
  have hle := leafCount_le_of_sublist (sublist_of_mem_split (List.fst_mem_of_mem_zipIdx hm))
  exact hread part (Nat.lt_of_le_of_lt hle hs) i

theorem readClauses_congr {clauses : List (Token × List Tree)}
    (hc : ∀ c ∈ clauses, leafCount c.2 < bound) (missing : Option Position) :
    readClauses r missing clauses = readClauses r' missing clauses := by
  induction clauses generalizing missing with
  | nil => cases missing <;> rfl
  | cons clause clauses ih =>
    obtain ⟨t, operand⟩ := clause
    have ih := fun missing => ih (fun c hm => hc c (List.mem_cons_of_mem _ hm)) missing
    rw [readClauses, readClauses, h.valueAt (hc _ List.mem_cons_self), ih none,
      ih (some t.span.start)]

theorem readParts_congr {span : List Tree} (hs : (Shape.operation span).IsBelow bound) :
    readParts r span = readParts r' span := by
  obtain ⟨hfirst, hclauses⟩ := hs
  rw [readParts, readParts]
  rcases hcut : cut [.operator] span with ⟨_ | ⟨tree, first⟩, clauses⟩
  · rw [hcut] at hclauses
    exact readClauses_congr h hclauses _
  · rw [hcut] at hfirst hclauses
    dsimp only
    rw [h.valueAt hfirst, readClauses_congr h hclauses]

theorem readShape_congr {shape : Shape} (hs : shape.IsBelow bound) :
    shape.read r = shape.read r' := by
  cases shape with
  | returning keyword value => rw [Shape.read, Shape.read, h.valueAt hs]
  | call callee opener arguments =>
    rw [Shape.read, Shape.read, h.value callee hs.1,
      readListed_congr (fun part hp i => readArgument_congr h _ hp i) hs.2]
  | access subject opener key => rw [Shape.read, Shape.read, h.value subject hs.1, h.valueAt hs.2]
  | chain subject accessors => rw [Shape.read, Shape.read, h.value subject hs]
  | lambda parameters arrow body => rw [Shape.read, Shape.read, h.valueAt hs]
  | dictionary opener entries =>
    rw [Shape.read, Shape.read,
      readListed_congr (fun part hp i => readEntry_congr h _ hp i) hs]
  | operation span =>
    rw [Shape.read, Shape.read, readPostfix, readPostfix, readParts_congr h hs]
  | assignment left t right =>
    rw [Shape.read, Shape.read, h.valueAt hs.1, h.valueAt hs.2]

theorem readSymbols_congr {span : List Tree} (hs : leafCount span < bound) :
    readSymbols r span = readSymbols r' span := by
  refine mapM_congr fun part hm => h.block part ?_
  have hle := leafCount_le_of_sublist (sublist_of_mem_splitWhere (List.mem_filter.mp hm).1)
  omega

theorem readBody_congr (form : BlockForm) (heading : Heading) {span : List Tree}
    (hs : leafCount span < bound) :
    form.readBody r heading span = form.readBody r' heading span := by
  have hheader := leafCount_le_of_sublist (headerAndBody_fst_sublist span)
  have hbody := leafCount_le_of_sublist (headerAndBody_snd_sublist span)
  cases form with
  | imports => rfl
  | closure =>
    have hungroup : leafCount (ungroup (headerAndBody span).2) < bound := by
      rw [leafCount, leaves_ungroup, ← leafCount]
      omega
    simp only [BlockForm.readBody, readSymbols_congr h hungroup]
  | conditional =>
    simp only [BlockForm.readBody, h.valueAt (Nat.lt_of_le_of_lt hheader hs),
      h.valueAt (Nat.lt_of_le_of_lt hbody hs)]
  | otherwise => simp only [BlockForm.readBody, h.valueAt hs]
  | sequence =>
    have hsteps : (stepsOf span).mapM (fun part => r.valueAt part heading.origin) =
        (stepsOf span).mapM fun part => r'.valueAt part heading.origin := by
      refine mapM_congr fun part hm => h.valueAt ?_ _
      exact Nat.lt_of_le_of_lt (leaves_sublist_of_mem_stepsOf hm).length_le hs
    simp only [BlockForm.readBody, hsteps]
  | each =>
    simp only [BlockForm.readBody, h.valueAt (Nat.lt_of_le_of_lt hbody hs)]
    split
    next iterator part hi =>
      have hpart := leafCount_le_of_sublist (iteration?_sublist hi)
      rw [h.valueAt (by omega)]
    next => rfl
  | repetition =>
    simp only [BlockForm.readBody, h.valueAt (Nat.lt_of_le_of_lt hheader hs),
      h.valueAt (Nat.lt_of_le_of_lt hbody hs)]
  | function =>
    simp only [BlockForm.readBody]
    split
    next name parameters part hf =>
      have hpart := (leaves_functionParts?_sublist hf).length_le
      rw [h.valueAt (Nat.lt_of_le_of_lt hpart hs)]
    next => rfl

end

section

variable {r r' : Readers} {span : List Tree}

theorem leafCount_lt_of_readHeading {form : BlockForm} {heading : Heading} {body : List Tree}
    (h : readHeading form span = .ok (heading, body)) : leafCount body < leafCount span := by
  rw [readHeading] at h
  split at h
  next result hh =>
    obtain rfl := Except.ok.inj h
    obtain ⟨t, rest, rfl, -, hs, -⟩ := heading?_parts hh
    have hle := leafCount_le_of_sublist hs.sublist
    rw [leafCount_token_cons]
    omega
  next => cases h

theorem blockStep_congr (h : r.AgreeBelow r' (leafCount span)) :
    blockStep r span = blockStep r' span := by
  have hread : ∀ form : BlockForm, form.read r span = form.read r' span := by
    intro form
    rw [BlockForm.read, BlockForm.read]
    cases hh : readHeading form span with
    | error d => rfl
    | ok result => exact readBody_congr h form result.1 (leafCount_lt_of_readHeading hh)
  rw [blockStep.eq_def, blockStep.eq_def]
  simp only [hread]

theorem readConstruct_congr (h : r.AgreeBelow r' (leafCount span)) :
    readConstruct r span = readConstruct r' span := by
  rw [readConstruct, readConstruct]
  split
  next shape hs => rw [readShape_congr h (divides_of_shape? hs).isBelow]
  next => rfl

theorem leafCount_inParens?_lt {inner : List Tree} (h : inParens? span = some inner) :
    leafCount inner < leafCount span := by
  obtain ⟨opener, closer, rfl, -, -⟩ := eq_of_inParens? h
  rw [leafCount_token_cons, leafCount_group_cons]
  omega

theorem readSimple_congr (h : r.AgreeBelow r' (leafCount span))
    {compound compound' : List Tree → Outcome Value} (hc : compound span = compound' span) :
    readSimple r span compound = readSimple r' span compound' := by
  rw [readSimple, readSimple]
  split
  next => rfl
  next =>
    split
    next inner hi => exact h.value inner (leafCount_inParens?_lt hi)
    next => exact hc

theorem leafCount_spread_le (span : List Tree) : leafCount (spread span).1 ≤ leafCount span :=
  (leaves_spread_sublist span).length_le

theorem leafCount_regroup (span : List Tree) : leafCount (regroup span) = leafCount span := by
  rw [leafCount, leaves_regroup, leafCount]

theorem readFlat_congr (h : r.AgreeBelow r' (leafCount span)) :
    readFlat r span = readFlat r' span := by
  rw [readFlat, readFlat]
  have hflat : r.AgreeBelow r' (leafCount (regroup (spread span).1)) :=
    h.mono (by rw [leafCount_regroup]; exact leafCount_spread_le span)
  exact readSimple_congr hflat (readConstruct_congr hflat)

theorem leafCount_unwrap_le (span : List Tree) : leafCount (unwrap span) ≤ leafCount span :=
  (leaves_unwrap_sublist span).length_le

theorem valueStep_congr (h : r.AgreeBelow r' (leafCount span)) :
    valueStep r span = valueStep r' span := by
  have hu := h.mono (leafCount_unwrap_le span)
  rw [valueStep, valueStep]
  split
  next => rfl
  next first rest hs =>
    rw [hs] at hu
    rw [blockStep_congr hu, readSimple_congr hu (readFlat_congr hu)]

/-- A bound that a span stays below makes no difference to how it is read. -/
theorem below_agree {m n : Nat} : (Readers.below m).AgreeBelow (Readers.below n) (min m n) := by
  induction m generalizing n with
  | zero => exact ⟨fun part hp => by omega, fun part hp => by omega⟩
  | succ m ih =>
    cases n with
    | zero => exact ⟨fun part hp => by omega, fun part hp => by omega⟩
    | succ n =>
      have hin : ∀ part, leafCount part < min (m + 1) (n + 1) →
          (Readers.below m).AgreeBelow (Readers.below n) (leafCount part) :=
        fun part hp => ih.mono (by omega)
      exact ⟨fun part hp => valueStep_congr (hin part hp),
        fun part hp => blockStep_congr (hin part hp)⟩

theorem readers_agree (n : Nat) : readers.AgreeBelow (Readers.below n) n := by
  cases n with
  | zero => exact ⟨fun part hp => by omega, fun part hp => by omega⟩
  | succ n =>
    have hin : ∀ part, leafCount part < n + 1 →
        (Readers.below (leafCount part)).AgreeBelow (Readers.below n) (leafCount part) :=
      fun part hp => below_agree.mono (by omega)
    exact ⟨fun part hp => valueStep_congr (hin part hp),
      fun part hp => blockStep_congr (hin part hp)⟩

/-- Reading a value takes one step, and the spans inside are read in the same way. -/
theorem readValue_eq (span : List Tree) : readValue span = valueStep readers span :=
  (valueStep_congr (readers_agree _)).symm

/-- Reading a block takes one step, and the spans inside are read in the same way. -/
theorem readBlock_eq (span : List Tree) : readBlock span = blockStep readers span :=
  (blockStep_congr (readers_agree _)).symm

/-- A token of a value kind that stands alone is read as it is. -/
theorem readValue_literal {t : Token} (h : t.kind.isValue = true) :
    readValue [.token t] = .ok (.literal t) := by
  have hnewline : Tree.hasKind .newline (.token t) = false := by
    cases hk : t.kind <;> simp_all [Tree.hasKind, Kind.isValue]
  have hopens : Tree.opensBlock (.token t) = false := by
    have hk : t.kind ≠ .keyword := by
      intro hk
      rw [hk] at h
      cases h
    rw [Tree.opensBlock, Tree.block?, BlockForm.introducedBy?, if_neg hk]
    rfl
  have hunwrap : unwrap [.token t] = [.token t] := by
    rw [unwrap, hnewline]
    rfl
  rw [readValue_eq, valueStep, hunwrap]
  dsimp only
  rw [hopens, readSimple, literal?, if_pos h]
  rfl

end

end Offside
