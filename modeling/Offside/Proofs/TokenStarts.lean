import Mathlib.Data.List.Nodup
import Mathlib.Data.List.Pairwise
import Offside.Proofs.IndentUnits

namespace Offside

/-- Where the tokens of some lines begin. -/
def starts (lines : List (List Token)) : List Position :=
  lines.flatten.map (·.span.start)

theorem mem_starts {lines : List (List Token)} {line : List Token} {p : Position}
    (hl : line ∈ lines) (hp : p ∈ line.map (·.span.start)) : p ∈ starts lines := by
  obtain ⟨t, ht, rfl⟩ := List.mem_map.mp hp
  exact List.mem_map.mpr ⟨t, List.mem_flatten.mpr ⟨line, hl, ht⟩, rfl⟩

theorem exists_line_of_mem_starts {lines : List (List Token)} {p : Position}
    (h : p ∈ starts lines) : ∃ line ∈ lines, p ∈ line.map (·.span.start) := by
  obtain ⟨t, ht, rfl⟩ := List.mem_map.mp h
  obtain ⟨line, hl, ht⟩ := List.mem_flatten.mp ht
  exact ⟨line, hl, List.mem_map.mpr ⟨t, ht, rfl⟩⟩

theorem starts_leaves_nest {lines : List (List Token)} {t : Token} (h : t ∈ leaves (nest lines)) :
    t.span.start ∈ starts lines := by
  rw [leaves_nest] at h
  obtain ⟨line, hl, ht⟩ := List.mem_flatMap.mp h
  exact mem_starts hl (start_mem_of_mem_layLine ht)

/-- Tokens follow each other, so none begins before the offset or where another one does. -/
theorem place_starts {source : Source} {kindOf? : List Char → Option Kind}
    (accepts : ∀ piece kind, kindOf? piece = some kind → IsPiece piece) (offset : Nat)
    (pieces : List (List Char)) :
    (∀ t ∈ place source kindOf? offset pieces, ∃ k, offset ≤ k ∧
      t.span.start = .within source k) ∧
    ((place source kindOf? offset pieces).map (·.span.start)).Nodup := by
  induction pieces generalizing offset with
  | nil => exact ⟨fun t ht => (by cases ht), List.nodup_nil⟩
  | cons piece pieces ih =>
    obtain ⟨ihstart, ihnodup⟩ := ih (offset + byteLength piece)
    rw [place]
    split
    next kind hk =>
      have hpos : 0 < byteLength piece := by
        cases piece with
        | nil => exact absurd rfl (accepts _ _ hk).ne_nil
        | cons c piece =>
          have hc := c.utf8Size_pos
          rw [byteLength_cons]
          omega
      refine ⟨?_, ?_⟩
      · intro t ht
        rcases List.mem_cons.mp ht with rfl | ht
        · exact ⟨offset, Nat.le_refl _, rfl⟩
        · obtain ⟨k, hle, hs⟩ := ihstart t ht
          exact ⟨k, by omega, hs⟩
      · refine List.nodup_cons.mpr ⟨?_, ihnodup⟩
        intro hm
        obtain ⟨t, ht, he⟩ := List.mem_map.mp hm
        obtain ⟨k, hle, hs⟩ := ihstart t ht
        obtain ⟨-, hk⟩ := Position.within.inj (hs.symm.trans he)
        omega
    next =>
      refine ⟨?_, ihnodup⟩
      intro t ht
      obtain ⟨k, hle, hs⟩ := ihstart t ht
      exact ⟨k, by omega, hs⟩

/-- Tokens of either strategy are pieces of the source, placed one after the other. -/
theorem exists_pieces_of_tokensOf {strategy : Strategy} {source : Source} {tokens : List Token}
    (h : tokensOf strategy source = .ok tokens) :
    ∃ (kindOf? : List Char → Option Kind) (pieces : List (List Char)),
      (∀ piece kind, kindOf? piece = some kind → IsPiece piece) ∧
      pieces.flatten <+: source.text.toList ∧
      tokens = dropComments (place source kindOf? 0 pieces) := by
  cases strategy with
  | fast =>
    obtain rfl := Except.ok.inj h
    refine ⟨firstKind?, greedy source.text.toList, ?_, ?_, rfl⟩
    · intro piece kind hk
      exact firstKind?_isSome_iff.mp (by rw [hk]; rfl)
    · have hflat := greedy_flatten source.text.toList
      simp only [hflat, List.prefix_rfl]
  | classic =>
    have hflat := munch_flatten source.text.toList
    change classicTokens source = .ok tokens at h
    unfold classicTokens at h
    split at h
    next pieces hm =>
      obtain rfl := Except.ok.inj h
      refine ⟨preferredKind?, pieces, ?_, ?_, rfl⟩
      · intro piece kind hk
        exact preferredKind?_isSome_iff.mp (by rw [hk]; rfl)
      · rw [hm] at hflat
        exact ⟨[], hflat⟩
    next => cases h

theorem span_of_mem_place {source : Source} {kindOf? : List Char → Option Kind} {offset : Nat}
    {pieces : List (List Char)} {t : Token} (h : t ∈ place source kindOf? offset pieces) :
    ∃ k, t.span.start = .within source k ∧
      t.span.stop = .within source (k + byteLength t.text.toList) ∧
      k + byteLength t.text.toList ≤ offset + byteLength pieces.flatten := by
  induction pieces generalizing offset with
  | nil => cases h
  | cons piece pieces ih =>
    rw [List.flatten_cons, byteLength_append]
    have below : t ∈ place source kindOf? (offset + byteLength piece) pieces →
        ∃ k, t.span.start = .within source k ∧
          t.span.stop = .within source (k + byteLength t.text.toList) ∧
          k + byteLength t.text.toList ≤
            offset + (byteLength piece + byteLength pieces.flatten) := by
      intro ht
      obtain ⟨k, hstart, hstop, hle⟩ := ih ht
      exact ⟨k, hstart, hstop, by omega⟩
    rw [place] at h
    split at h
    next kind hk =>
      rcases List.mem_cons.mp h with rfl | h
      · refine ⟨offset, rfl, ?_, ?_⟩
        · rw [String.toList_ofList]
        · rw [String.toList_ofList]
          omega
      · exact below h
    next => exact below h

/-- Where a token of either strategy stands. -/
theorem span_of_mem_tokensOf {strategy : Strategy} {source : Source} {tokens : List Token}
    (h : tokensOf strategy source = .ok tokens) {t : Token} (ht : t ∈ tokens) :
    ∃ k, t.span.start = .within source k ∧
      t.span.stop = .within source (k + byteLength t.text.toList) ∧
      k + byteLength t.text.toList ≤ byteLength source.text.toList ∧ t.text.toList ≠ [] := by
  obtain ⟨kindOf?, pieces, accepts, ⟨rest, hflat⟩, rfl⟩ := exists_pieces_of_tokensOf h
  have hplaced := (List.mem_filter.mp ht).1
  obtain ⟨k, hstart, hstop, hle⟩ := span_of_mem_place hplaced
  refine ⟨k, hstart, hstop, ?_, (accepts _ _ (mem_place hplaced).2).ne_nil⟩
  rw [← hflat, byteLength_append]
  omega

/-- Tokens of either strategy follow each other, so no two begin at the same place. -/
theorem nodup_tokensOf {strategy : Strategy} {source : Source} {tokens : List Token}
    (h : tokensOf strategy source = .ok tokens) : (tokens.map (·.span.start)).Nodup := by
  obtain ⟨kindOf?, pieces, accepts, -, rfl⟩ := exists_pieces_of_tokensOf h
  exact (place_starts accepts 0 pieces).2.sublist (List.filter_sublist.map _)

theorem nodup_classicTokens {source : Source} {tokens : List Token}
    (h : classicTokens source = .ok tokens) : (tokens.map (·.span.start)).Nodup :=
  @nodup_tokensOf .classic _ _ h

theorem start_known_of_classicTokens {source : Source} {tokens : List Token}
    (h : classicTokens source = .ok tokens) : ∀ t ∈ tokens, t.span.start ≠ .unknown := by
  intro t ht hu
  obtain ⟨k, hs, -⟩ := @span_of_mem_tokensOf .classic _ _ h _ ht
  cases hs.symm.trans hu

/-- Indentation is rewritten in its place. -/
theorem indentFrom_starts {unit? : Option String} {fresh : Bool} {tokens out : List Token}
    (h : indentFrom unit? fresh tokens = .ok out) :
    (out.map (·.span.start)).Sublist (tokens.map (·.span.start)) := by
  fun_induction indentFrom unit? fresh tokens generalizing out with
  | case1 =>
    obtain rfl := Except.ok.inj h
    exact .refl _
  | case2 unit? fresh t tokens hk hfresh unit width whole =>
    rename_i ih
    obtain ⟨rest, hrest, h⟩ := bind_eq_ok.mp h
    obtain rfl := Except.ok.inj h
    exact (ih hrest).cons_cons _
  | case3 => cases h
  | case4 unit? fresh t tokens hk hfresh ih => exact (ih h).cons _
  | case5 unit? fresh t tokens hk ih =>
    obtain ⟨rest, hrest, h⟩ := bind_eq_ok.mp h
    obtain rfl := Except.ok.inj h
    exact (ih hrest).cons_cons _
  | case6 unit? fresh t tokens hw hn ih =>
    obtain ⟨rest, hrest, h⟩ := bind_eq_ok.mp h
    obtain rfl := Except.ok.inj h
    exact (ih hrest).cons_cons _

theorem flatten_splitWhere {α : Type} (p : α → Bool) (xs : List α) :
    (splitWhere p xs).flatten = xs.filter (!p ·) := by
  induction xs with
  | nil => rfl
  | cons x xs ih =>
    rw [splitWhere_cons]
    cases hp : p x with
    | true =>
      rw [if_pos rfl, List.flatten_cons, List.nil_append, ih,
        List.filter_cons_of_neg (by simp [hp])]
    | false =>
      rw [List.filter_cons_of_pos (by simp [hp]), ← ih]
      rfl

theorem flatten_lines (tokens : List Token) :
    (lines tokens).flatten = tokens.filter (!·.kind == .newline) := by
  rw [lines, List.flatten_filter_not_isEmpty, flatten_splitWhere]

theorem flatten_lines_sublist (tokens : List Token) : (lines tokens).flatten.Sublist tokens := by
  rw [flatten_lines]
  exact List.filter_sublist

theorem flatMap_statementsAt (level : String) (lines : List (List Token)) :
    (statementsAt level lines).flatMap (fun s => s.1 :: s.2) = lines := by
  fun_induction statementsAt level lines with
  | case1 => rfl
  | case2 line lines ih =>
    rw [List.flatMap_cons, ih, List.cons_append, List.takeWhile_append_dropWhile]

theorem flatMap_statements (lines : List (List Token)) :
    (statements lines).flatMap (fun s => s.1 :: s.2) = lines := by
  cases lines with
  | nil => rfl
  | cons line lines => exact flatMap_statementsAt _ _

/-- What belongs to members of a list stands in one of them only, if there are no duplicates. -/
theorem eq_of_mem_flatMap {α β : Type} {f : α → List β} {xs : List α} {a b : α} {p : β}
    (nodup : (xs.flatMap f).Nodup) (ha : a ∈ xs) (hb : b ∈ xs) (hp : p ∈ f a) (hp' : p ∈ f b) :
    a = b := by
  have apart := (List.nodup_flatMap.mp nodup).2
  have symm : Std.Symm (Function.onFun List.Disjoint f) := ⟨fun _ _ h => List.disjoint_symm h⟩
  by_contra hne
  exact apart.forall ha hb hne hp hp'

end Offside
