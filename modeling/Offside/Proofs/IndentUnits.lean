import Offside.Program
import Offside.Proofs.LineLayout
import Offside.Proofs.LongestMatch
import Offside.Proofs.Provenance

namespace Offside

theorem text_length_pos_of_mem_place {source : Source} {kindOf? : List Char → Option Kind}
    (accepts : ∀ piece kind, kindOf? piece = some kind → IsPiece piece) {offset : Nat}
    {pieces : List (List Char)} {t : Token} (h : t ∈ place source kindOf? offset pieces) :
    0 < t.text.length := by
  have hp := accepts _ _ (mem_place h).2
  have hne := hp.ne_nil
  rw [← String.length_toList]
  exact List.length_pos_iff.mpr hne

theorem text_length_pos_of_classicTokens {source : Source} {tokens : List Token}
    (h : classicTokens source = .ok tokens) : ∀ t ∈ tokens, 0 < t.text.length := by
  unfold classicTokens at h
  split at h
  next pieces _ =>
    obtain rfl := Except.ok.inj h
    intro t ht
    refine text_length_pos_of_mem_place ?_ (List.mem_filter.mp ht).1
    intro piece kind hk
    have hs : (preferredKind? piece).isSome = true := by rw [hk]; rfl
    exact preferredKind?_isSome_iff.mp hs
  next => cases h

theorem repeatText_one (text : String) : repeatText 1 text = text := by
  simp [repeatText]

/-- Whether all indentations in some tokens consist of whole units. The unit is the one that is
known, or else the first indentation. -/
structure KeepsUnit (unit? : Option String) (unit : String) (tokens : List Token) : Prop where
  positive : 0 < unit.length
  known : ∀ u ∈ unit?, u = unit
  whole : ∀ t ∈ tokens, t.kind = .whitespace → ∃ n, 0 < n ∧ t.text = repeatText n unit
  first : unit? = none → ∀ t ∈ tokens.find? (·.kind == .whitespace), t.text = unit

theorem KeepsUnit.cons {unit? : Option String} {unit : String} {t : Token} {tokens : List Token}
    (h : KeepsUnit unit? unit tokens) (ht : t.kind ≠ .whitespace) :
    KeepsUnit unit? unit (t :: tokens) := by
  refine ⟨h.positive, h.known, ?_, ?_⟩
  · intro u hu hk
    rcases List.mem_cons.mp hu with rfl | hu
    · exact absurd hk ht
    · exact h.whole u hu hk
  · intro hn
    rw [List.find?_cons_of_neg (by simpa using ht)]
    exact h.first hn

theorem KeepsUnit.indentation {unit? : Option String} {unit : String} {t : Token}
    {tokens : List Token} {span : Span} (h : KeepsUnit (some unit) unit tokens)
    (known : unit = unit?.getD t.text) (ht : 0 < t.text.length)
    (whole : t.text.length % unit.length = 0) :
    KeepsUnit unit? unit
      (⟨.whitespace, repeatText (t.text.length / unit.length) unit, span⟩ :: tokens) := by
  refine ⟨h.positive, ?_, ?_, ?_⟩
  · intro u hu
    rw [known, Option.mem_def.mp hu, Option.getD_some]
  · intro u hu hk
    rcases List.mem_cons.mp hu with rfl | hu
    · exact ⟨_, Nat.div_pos (Nat.le_of_dvd ht (Nat.dvd_of_mod_eq_zero whole)) h.positive, rfl⟩
    · exact h.whole u hu hk
  · intro hn u hu
    rw [hn, Option.getD_none] at known
    obtain rfl := Option.some.inj hu
    show repeatText (t.text.length / unit.length) unit = unit
    rw [← known, Nat.div_self h.positive, repeatText_one]

/-- Every indentation that is kept consists of whole units, and the first one sets the unit. -/
theorem indentFrom_keepsUnit {unit? : Option String} {fresh : Bool} {tokens out : List Token}
    (units : ∀ u ∈ unit?, 0 < u.length) (texts : ∀ t ∈ tokens, 0 < t.text.length)
    (h : indentFrom unit? fresh tokens = .ok out) : ∃ unit, KeepsUnit unit? unit out := by
  fun_induction indentFrom unit? fresh tokens generalizing out with
  | case1 unit? fresh =>
    obtain rfl := Except.ok.inj h
    cases unit? with
    | none => exact ⟨" ", by decide, by simp, by simp, by simp⟩
    | some u => exact ⟨u, units u rfl, by simp, by simp, by simp⟩
  | case2 unit? fresh t tokens hk hfresh unit width whole =>
    rename_i ih
    have ht := texts t List.mem_cons_self
    have hpos : 0 < unit.length := by
      cases hu : unit? with
      | none =>
        have hunit : unit = t.text := by simp only [unit, hu, Option.getD_none]
        rw [hunit]
        exact ht
      | some u =>
        have hunit : unit = u := by simp only [unit, hu, Option.getD_some]
        rw [hunit]
        exact units u hu
    have hknown : ∀ u ∈ some unit, 0 < u.length := by
      intro u hu
      obtain rfl := Option.some.inj hu
      exact hpos
    obtain ⟨rest, hrest, h⟩ := bind_eq_ok.mp h
    obtain ⟨inner, hi⟩ := ih hknown (fun u hu => texts u (List.mem_cons_of_mem _ hu)) hrest
    obtain rfl := hi.known unit rfl
    obtain rfl := Except.ok.inj h
    exact ⟨_, hi.indentation rfl ht whole⟩
  | case3 => cases h
  | case4 unit? fresh t tokens hk hfresh ih =>
    exact ih units (fun u hu => texts u (List.mem_cons_of_mem _ hu)) h
  | case5 unit? fresh t tokens hk ih =>
    obtain ⟨rest, hrest, h⟩ := bind_eq_ok.mp h
    obtain rfl := Except.ok.inj h
    obtain ⟨unit, hu⟩ := ih units (fun u hu => texts u (List.mem_cons_of_mem _ hu)) hrest
    exact ⟨unit, hu.cons Kind.noConfusion⟩
  | case6 unit? fresh t tokens hw hn ih =>
    obtain ⟨rest, hrest, h⟩ := bind_eq_ok.mp h
    obtain rfl := Except.ok.inj h
    obtain ⟨unit, hu⟩ := ih units (fun u hu => texts u (List.mem_cons_of_mem _ hu)) hrest
    exact ⟨unit, hu.cons hw⟩

theorem indent_keepsUnit {tokens out : List Token} (texts : ∀ t ∈ tokens, 0 < t.text.length)
    (h : indent tokens = .ok out) : ∃ unit, KeepsUnit none unit out :=
  indentFrom_keepsUnit (fun u hu => by cases hu) texts h

theorem mem_of_mem_lines {tokens l : List Token} (h : l ∈ lines tokens) :
    l ≠ [] ∧ l.Sublist tokens ∧ ∀ t ∈ l, t.kind ≠ .newline := by
  obtain ⟨hm, hne⟩ := List.mem_filter.mp h
  refine ⟨by simpa using hne, sublist_of_mem_splitWhere hm, ?_⟩
  intro t ht
  have hp := not_of_mem_splitWhere hm t ht
  simpa using hp

theorem head_of_indentation? {l : List Token} {s : String} (h : indentation? l = some s) :
    ∃ t rest, l = t :: rest ∧ t.kind = .whitespace ∧ t.text = s := by
  cases l with
  | nil => cases h
  | cons t rest =>
    rw [indentation?] at h
    split at h
    next hk => exact ⟨t, rest, rfl, hk, Option.some.inj h⟩
    next => cases h

theorem KeepsUnit.areIndentedBy {unit? : Option String} {unit : String} {tokens : List Token}
    (h : KeepsUnit unit? unit tokens) : AreIndentedBy unit (lines tokens) := by
  refine ⟨h.positive, ?_, ?_⟩
  · intro l hl
    have hm := mem_of_mem_lines hl
    exact ⟨hm.1, hm.2.2⟩
  · intro l hl s hs
    obtain ⟨t, rest, rfl, hk, rfl⟩ := head_of_indentation? hs
    exact h.whole t ((mem_of_mem_lines hl).2.1.subset List.mem_cons_self) hk

/-- The first line begins with the first token that breaks no line. -/
theorem head_lines (tokens : List Token) :
    (lines tokens).head?.bind List.head? = tokens.find? (·.kind != .newline) := by
  induction tokens with
  | nil => rfl
  | cons t tokens ih =>
    cases hk : t.kind == .newline with
    | true =>
      have hl : lines (t :: tokens) = lines tokens := by
        simp only [lines, splitWhere, sections, hk, if_true, List.map_cons]
        rfl
      rw [hl, ih, List.find?_cons_of_neg (by simp [bne, hk])]
    | false =>
      rw [List.find?_cons_of_pos (by simp [bne, hk])]
      simp only [lines, splitWhere, sections, hk, Bool.false_eq_true, if_false]
      rfl

theorem KeepsUnit.leastFirst {unit : String} {tokens : List Token}
    (h : KeepsUnit none unit tokens) : LeastFirst (lines tokens) := by
  intro base hb l hl h0 m hm hpos
  cases hi : indentation? base with
  | none =>
    have hzero : indentWidth base = 0 := by
      rw [indentWidth, levelOf, hi]
      rfl
    omega
  | some s =>
    obtain ⟨t, rest, rfl, hk, rfl⟩ := head_of_indentation? hi
    have hhead := head_lines tokens
    rw [Option.mem_def.mp hb] at hhead
    have hfind : tokens.find? (·.kind == .whitespace) = some t := by
      obtain ⟨_, before, after, rfl, hbefore⟩ := List.find?_eq_some_iff_append.mp hhead.symm
      refine List.find?_eq_some_iff_append.mpr ⟨by simp [hk], before, after, rfl, ?_⟩
      intro u hu
      have hn : u.kind = .newline := by simpa using hbefore u hu
      simp [hn]
    have hunit := h.first rfl t hfind
    obtain ⟨n, hn⟩ := h.areIndentedBy.level hm
    have hw : indentWidth (t :: rest) = unit.length := by
      rw [indentWidth, levelOf, hi, hunit]
      rfl
    have hwm : indentWidth m = n * unit.length := by rw [indentWidth, hn, length_repeatText]
    rw [hwm] at hpos
    rw [hw, hwm]
    exact Nat.le_mul_of_pos_left _ (Nat.pos_of_mul_pos_right hpos)

end Offside
