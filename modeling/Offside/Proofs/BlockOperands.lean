import Offside.Proofs.InlineBlocks
import Offside.Proofs.PrintRoundTrip

namespace Offside

/-- The operator an element of an operation stands for. -/
def Item.operator? : Item → Option Token
  | operator t => some t
  | unary t => some t
  | operand _ => none

section

variable {r : Readers} {span : List Tree}

theorem operators_of_readClauses {missing : Option Position} {clauses : List (Token × List Tree)}
    {parts : List Part} (h : readClauses r missing clauses = .ok parts) :
    (parts.map Part.item).filterMap Item.operator? = clauses.map Prod.fst := by
  induction clauses generalizing missing parts with
  | nil =>
    obtain ⟨-, rfl⟩ := readClauses_nil_eq_ok h
    rfl
  | cons clause clauses ih =>
    obtain ⟨t, operand⟩ := clause
    obtain ⟨rank, rest, -, rfl, hrest⟩ := readClauses_cons_eq_ok h
    have hoperator : (if missing.isSome then Part.unary t rank else .binary t rank).item.operator? =
        some t := by
      cases missing <;> rfl
    rw [List.map_cons, List.map_cons, List.filterMap_cons_some hoperator]
    rcases hrest with ⟨-, hrest⟩ | ⟨-, v, others, -, hothers, rfl⟩
    · rw [ih hrest]
    · rw [List.map_cons, List.filterMap_cons_none rfl, ih hothers]

theorem topOperators_eq_cut (span : List Tree) :
    topOperators span = (cut [.operator] span).2.map Prod.fst := by
  rw [topOperators, ← map_fst_sections, cut, List.map_map]
  rfl

theorem topOperators_eq_nil_iff : topOperators span = [] ↔ topIndex? [.operator] span = none := by
  rw [topOperators, List.filterMap_eq_nil_iff, topIndex?_eq_none_iff]
  rfl

/-- Each operator outside of brackets comes out of an operation once. -/
theorem operators_of_readPostfix {items : List Item} (h : readPostfix r span = .ok items) :
    (items.filterMap Item.operator?).Perm (topOperators span) := by
  obtain ⟨parts, hparts, h⟩ := bind_eq_ok.mp h
  obtain rfl := Except.ok.inj h
  have hclauses : (parts.map Part.item).filterMap Item.operator? =
      (cut [.operator] span).2.map Prod.fst := by
    obtain ⟨-, hclauses⟩ | ⟨-, v, rest, -, hclauses, rfl⟩ := readParts_eq_ok hparts
    · exact operators_of_readClauses hclauses
    · rw [List.map_cons, List.filterMap_cons_none rfl, operators_of_readClauses hclauses]
  rw [topOperators_eq_cut, ← hclauses]
  exact (shunt_perm [] parts).filterMap _

end

section

variable {block : List Tree} {b : Block} {t o : Token}

theorem cut_behind_operator (ht : t.kind.isValue = true) (ho : o.kind = .operator)
    (block : List Tree) : cut [.operator] (.token t :: .token o :: block) =
      ([.token t], (o, (cut [.operator] block).1) :: (cut [.operator] block).2) := by
  have hbalanced : IsBalanced [.token t] := by
    cases hk : t.kind <;> simp_all [IsBalanced, Depth.after, Kind.isValue]
  have hundivided : IsUndivided [.operator] .top [.token t] :=
    isUndivided_of_value ht (by decide)
  have happend := @cut_append _ _ (.token o :: block) hbalanced hundivided
  rw [cut_cons (by simp [Token.hasKindIn, ho]) (by simp [Depth.after, ho])] at happend
  exact happend

/-- A block behind an operator is one operand as long as no operator stands in it outside of
brackets: an operation is divided at every such operator, those of a block included. -/
theorem readPostfix_block_operand (plain : ∀ tree ∈ block, tree.hasKind .newline = false)
    (h : readBlock block = .ok b) (ht : t.kind.isValue = true) (ho : o.kind = .operator)
    (hrank : (rankOf? o.text).isSome) :
    readPostfix readers (.token t :: .token o :: block) =
      .ok [.operand (.literal t), .operand (.block b), .operator o] ↔
        topIndex? [.operator] block = none := by
  have hcut := cut_behind_operator ht ho block
  constructor
  · intro hread
    have hperm := operators_of_readPostfix hread
    rw [topOperators_eq_cut, hcut, List.map_cons, ← topOperators_eq_cut] at hperm
    have hlength : 1 = (topOperators block).length + 1 := hperm.length_eq
    exact topOperators_eq_nil_iff.mp (List.eq_nil_of_length_eq_zero (by omega))
  · intro hnone
    have hfirst := valueAt_of_ok (r := readers) (readValue_literal ht) (origin [.token t])
    have hblock := valueAt_of_ok (r := readers) (readValue_of_readBlock plain h) (origin block)
    have hne : block.isEmpty = false := by
      obtain ⟨keyword, rest, form, rfl, -⟩ := exists_cons_of_readBlock h
      rfl
    rw [cut_of_isUndivided (topIndex?_eq_none_iff.mp hnone)] at hcut
    have hclauses : readClauses readers none [(o, block)] =
        .ok [.binary o o.rank, .operand (.block b)] := by
      rw [readClauses, operatorRank_of_isSome hrank, hne, hblock]
      rfl
    rw [readPostfix, readParts, hcut]
    dsimp only
    rw [hfirst, hclauses]
    rfl

/-- The operations `a * do f(x + y)` and `a * do x + y`. -/
theorem readPostfix_block_operand_in_parens :
    let token (kind : Kind) (text : String) : Token := ⟨kind, text, default⟩
    let word (kind : Kind) (text : String) : Tree := .token (token kind text)
    let sum : List Tree := [word .name "x", word .operator "+", word .name "y"]
    let inParens : List Tree := [word .keyword "do", word .name "f", word .openParen "("] ++ sum ++
      [word .closeParen ")"]
    let bare : List Tree := word .keyword "do" :: sum
    (∃ b, readBlock inParens = .ok b ∧
      readPostfix readers (word .name "a" :: word .operator "*" :: inParens) =
        .ok [.operand (.literal (token .name "a")), .operand (.block b),
          .operator (token .operator "*")]) ∧
    ∃ b, readBlock bare = .ok b ∧
      readPostfix readers (word .name "a" :: word .operator "*" :: bare) ≠
        .ok [.operand (.literal (token .name "a")), .operand (.block b),
          .operator (token .operator "*")] := by
  intro token word sum inParens bare
  have hread : ∀ block ∈ [inParens, bare], ∃ b, readBlock block = .ok b := by
    intro block hm
    have hsome : (readBlock block).toOption.isSome = true := by
      simp only [List.mem_cons, List.not_mem_nil, or_false] at hm
      rcases hm with rfl | rfl <;> cbv
    cases hr : readBlock block with
    | ok b => exact ⟨b, rfl⟩
    | error d =>
      rw [hr] at hsome
      cases hsome
  obtain ⟨b, hb⟩ := hread inParens (by simp)
  obtain ⟨b', hb'⟩ := hread bare (by simp)
  have hkept := readPostfix_block_operand (t := token .name "a") (o := token .operator "*")
    (by decide) hb rfl rfl (by decide)
  have hdivided := readPostfix_block_operand (t := token .name "a") (o := token .operator "*")
    (by decide) hb' rfl rfl (by decide)
  exact ⟨⟨b, hb, hkept.mpr (by decide)⟩, b', hb', mt hdivided.mp (by decide)⟩

/-- The operation `a + do x + y`: its second operand is the block `do x`, and `y` is a third one. -/
theorem not_readPostfix_block_operand :
    ¬∀ (t o : Token) (block : List Tree) (b : Block), t.kind.isValue = true →
      o.kind = .operator → (rankOf? o.text).isSome →
      (∀ tree ∈ block, tree.hasKind .newline = false) → readBlock block = .ok b →
      readPostfix readers (.token t :: .token o :: block) =
        .ok [.operand (.literal t), .operand (.block b), .operator o] := by
  intro h
  let token (kind : Kind) (text : String) : Token := ⟨kind, text, default⟩
  let name (text : String) : Item := .operand (.literal (token .name text))
  let block : List Tree := [.token (token .keyword "do"), .token (token .name "x"),
    .token (token .operator "+"), .token (token .name "y")]
  have hread : readBlock block = .ok (.sequence ⟨[], .unknown⟩
      [.construct (.operation [name "x", name "y", .operator (token .operator "+")])]) := by cbv
  have hdivided : readPostfix readers (.token (token .name "a") ::
      .token (token .operator "+") :: block) = .ok [name "a",
        .operand (.block (.sequence ⟨[], .unknown⟩ [.literal (token .name "x")])),
        .operator (token .operator "+"), name "y", .operator (token .operator "+")] := by cbv
  have hclaimed := h (token .name "a") (token .operator "+") block _ rfl rfl (by decide) (by decide)
    hread
  cases hclaimed.symm.trans hdivided

end

end Offside
