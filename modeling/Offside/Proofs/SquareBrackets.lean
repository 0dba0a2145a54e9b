import Offside.Proofs.Pairing

namespace Offside

/-- Whether a square bracket stands at an index and a search from it ends at the last item. -/
def IsClosedByLast (span : List Tree) (i : Nat) : Prop :=
  (∃ opener, span[i]? = some opener ∧ opener.hasKind .openBracket = true) ∧
    closeOf? span i = some (span.length - 1)

/-- Whether the square bracket at an index is still open at a later one: from the bracket on, no
stretch of items that ends there or before closes as many square brackets as it opens. -/
structure IsOpenAt (span : List Tree) (i j : Nat) : Prop where
  opens : ∃ opener, span[i]? = some opener ∧ opener.hasKind .openBracket = true
  before : i < j
  remains : ∀ n, 0 < n → i + n ≤ j + 1 →
    ((span.drop i).take n).countP (·.hasKind .closeBracket) <
      ((span.drop i).take n).countP (·.hasKind .openBracket)

section

variable {opening closing : Kind} {inner n : Nat} {span : List Tree} {tree closer : Tree}

theorem Closes.of_cons (h : Closes opening closing inner (tree :: span))
    (step : n + (if tree.hasKind closing then 1 else 0) =
      inner + if tree.hasKind opening then 1 else 0) : Closes opening closing n span := by
  obtain ⟨htotal, hbefore⟩ := h
  refine ⟨?_, fun xs hx => ?_⟩
  · rw [List.countP_cons, List.countP_cons] at htotal
    omega
  · have hle := hbefore (tree :: xs) (List.cons_prefix_cons.mpr ⟨rfl, hx⟩)
    rw [List.countP_cons, List.countP_cons] at hle
    omega

/-- A search for a closing bracket stops behind a span that closes what it opens. -/
theorem Closes.closerIndex?_eq (h : Closes opening closing inner span)
    (hne : opening ≠ closing) (hc : closer.hasKind closing = true) (after : List Tree) :
    closerIndex? opening closing inner (span ++ closer :: after) = some span.length := by
  -- `inner` counts the brackets that keep the search open, and each item changes it as the counts.
  induction span generalizing inner with
  | nil =>
    have hinner : inner = 0 := by simpa using h.total.symm
    simp [closerIndex?_cons, hasKind_eq_false hne.symm hc, hc, hinner]
  | cons tree span ih =>
    rw [List.cons_append, closerIndex?_cons]
    by_cases ho : tree.hasKind opening = true
    · have hstep := h.of_cons (n := inner + 1) (by simp [ho, hasKind_eq_false hne ho])
      rw [if_pos ho, ih hstep]
      rfl
    · by_cases hk : tree.hasKind closing = true
      · have hle := h.before [tree] ⟨span, rfl⟩
        have hpos : 1 ≤ inner := by simpa [ho, hk] using hle
        have hstep := h.of_cons (n := inner - 1) (by simp [ho, hk, Nat.sub_add_cancel hpos])
        rw [if_neg ho, if_pos hk, if_neg (by omega), ih hstep]
        rfl
      · have hstep := h.of_cons (n := inner) (by simp [ho, hk])
        rw [if_neg ho, if_neg hk, ih hstep]
        rfl

theorem closerIndex?_eq_some_iff (hne : opening ≠ closing) {i : Nat} :
    closerIndex? opening closing inner span = some i ↔
      ∃ before closer after, span = before ++ closer :: after ∧ before.length = i ∧
        closer.hasKind closing = true ∧ Closes opening closing inner before := by
  constructor
  · exact closerIndex?_split hne
  · rintro ⟨before, closer, after, rfl, rfl, hc, hbefore⟩
    exact hbefore.closerIndex?_eq hne hc after

/-- A span that closes what it opens does so from its end as well, with opening and closing
brackets exchanged. -/
theorem Closes.reverse (h : Closes opening closing 0 span) :
    Closes closing opening 0 span.reverse := by
  obtain ⟨htotal, hbefore⟩ := h
  rw [Nat.zero_add] at htotal
  refine ⟨by rw [List.countP_reverse, List.countP_reverse, htotal, Nat.zero_add], ?_⟩
  rintro xs ⟨ys, hs⟩
  -- What a beginning lacks to the total stands in the rest, which is a beginning from the end.
  have hspan : span = ys.reverse ++ xs.reverse := by
    rw [← List.reverse_append, hs, List.reverse_reverse]
  have hle := hbefore ys.reverse ⟨xs.reverse, hspan.symm⟩
  simp only [hspan, List.countP_append, List.countP_reverse] at htotal hle
  omega

theorem closes_reverse_iff :
    Closes closing opening 0 span.reverse ↔ Closes opening closing 0 span := by
  constructor
  · intro h
    have h := h.reverse
    rwa [List.reverse_reverse] at h
  · exact Closes.reverse

end

section

variable {span key : List Tree} {i j : Nat}

/-- A square bracket at the end is matched with one in front of a span that closes what it opens. -/
theorem openOfLast?_eq_some_iff : openOfLast? span = some i ↔
    ∃ subject opener key closer, span = subject ++ .token opener :: (key ++ [.token closer]) ∧
      subject.length = i ∧ opener.kind = .openBracket ∧ closer.kind = .closeBracket ∧
        Closes .openBracket .closeBracket 0 key := by
  constructor
  · intro h
    obtain ⟨subject, opener, key, closer, hs, hi, ho, hc, hkey⟩ := openOfLast?_split h
    exact ⟨subject, opener, key, closer, hs, hi, ho, hc, closes_reverse_iff.mp hkey⟩
  · rintro ⟨subject, opener, key, closer, rfl, rfl, ho, hc, hkey⟩
    have hreverse : (subject ++ Tree.token opener :: (key ++ [.token closer])).reverse =
        .token closer :: (key.reverse ++ .token opener :: subject.reverse) := by simp
    have hopen : (Tree.token opener).hasKind .openBracket = true := beq_iff_eq.mpr ho
    have hfound := hkey.reverse.closerIndex?_eq (by decide) hopen subject.reverse
    rw [openOfLast?, hreverse]
    simp [Tree.hasKind, hc, hfound]

theorem closeOf?_append {opener : Token} {closing : Kind}
    (hc : opener.kind.closer? = some closing) (subject rest : List Tree) :
    closeOf? (subject ++ .token opener :: rest) subject.length =
      (closerIndex? opener.kind closing 0 rest).map (subject.length + 1 + ·) := by
  rw [closeOf?, List.drop_left]
  simp only [hc, Option.bind_eq_bind, Option.bind_some]
  cases closerIndex? opener.kind closing 0 rest with
  | none => rfl
  | some n => rfl

/-- A square bracket is closed by the last item in the same case. -/
theorem isClosedByLast_iff : IsClosedByLast span i ↔
    ∃ subject opener key closer, span = subject ++ .token opener :: (key ++ [.token closer]) ∧
      subject.length = i ∧ opener.kind = .openBracket ∧ closer.kind = .closeBracket ∧
        Closes .openBracket .closeBracket 0 key := by
  have hcloser : ∀ {opener : Token}, opener.kind = .openBracket →
      opener.kind.closer? = some .closeBracket := by
    intro opener ho
    rw [ho]
    rfl
  constructor
  · rintro ⟨⟨opener, hget, ho⟩, hclose⟩
    obtain ⟨opener, rfl, hk⟩ := token_of_hasKind ho
    obtain ⟨hi, hget⟩ := List.getElem?_eq_some_iff.mp hget
    obtain ⟨subject, rest, rfl, rfl⟩ : ∃ subject rest,
        span = subject ++ .token opener :: rest ∧ subject.length = i := by
      refine ⟨span.take i, span.drop (i + 1), ?_, List.length_take_of_le hi.le⟩
      rw [← hget, ← List.drop_eq_getElem_cons hi, List.take_append_drop]
    rw [closeOf?_append (hcloser hk), hk] at hclose
    obtain ⟨n, hn, hlast⟩ := Option.map_eq_some_iff.mp hclose
    obtain ⟨key, closer, after, rfl, rfl, hc, hkey⟩ :=
      (closerIndex?_eq_some_iff (by decide)).mp hn
    obtain ⟨closer, rfl, hcloses⟩ := token_of_hasKind hc
    simp only [List.length_append, List.length_cons] at hlast
    obtain rfl : after = [] := List.eq_nil_of_length_eq_zero (by omega)
    exact ⟨subject, opener, key, closer, rfl, rfl, hk, hcloses, hkey⟩
  · rintro ⟨subject, opener, key, closer, rfl, rfl, ho, hc, hkey⟩
    have hclose : (Tree.token closer).hasKind .closeBracket = true := beq_iff_eq.mpr hc
    refine ⟨⟨.token opener, by simp, beq_iff_eq.mpr ho⟩, ?_⟩
    rw [closeOf?_append (hcloser ho), ho, hkey.closerIndex?_eq (by decide) hclose []]
    simp only [Option.map_some, List.length_append, List.length_cons, List.length_nil]
    congr 1
    omega

/-- The square bracket in front of a span that closes what it opens is open throughout the span. -/
theorem isOpenAt_of_closes {subject after : List Tree} {opener : Token}
    (ho : opener.kind = .openBracket) (hkey : Closes .openBracket .closeBracket 0 key)
    (hi : subject.length < j) (hj : j ≤ subject.length + key.length) :
    IsOpenAt (subject ++ .token opener :: (key ++ after)) subject.length j := by
  have hopen : (Tree.token opener).hasKind .openBracket = true := beq_iff_eq.mpr ho
  have hclose : (Tree.token opener).hasKind .closeBracket = false :=
    hasKind_eq_false (by decide) hopen
  refine ⟨⟨.token opener, by simp, hopen⟩, hi, fun n hn hle => ?_⟩
  obtain ⟨m, rfl⟩ := Nat.exists_eq_add_one_of_ne_zero hn.ne'
  have hbefore := hkey.before (key.take m) (List.take_prefix m key)
  rw [List.drop_left, List.take_succ_cons, List.take_append_of_le_length (by omega),
    List.countP_cons, List.countP_cons, hopen, hclose, if_pos rfl, if_neg Bool.false_ne_true]
  omega

/-- Looking back from a square bracket at the end of a span and looking ahead from the one that it
closes are inverse to each other, also where other brackets are not balanced. What stands between
the two is inside of them. -/
theorem openOfLast?_inverts_closeOf? (span : List Tree) :
    (∀ i, openOfLast? span = some i ↔ IsClosedByLast span i) ∧
    (openOfLast? span = none ↔ ¬∃ i, IsClosedByLast span i) ∧
    ∀ i, openOfLast? span = some i → ∀ j, i < j → j + 1 < span.length → IsOpenAt span i j := by
  have hmatch : ∀ i, openOfLast? span = some i ↔ IsClosedByLast span i :=
    fun i => openOfLast?_eq_some_iff.trans isClosedByLast_iff.symm
  refine ⟨hmatch, ?_, fun i h j hi hj => ?_⟩
  · simp only [← hmatch, Option.eq_none_iff_forall_ne_some, not_exists, ne_eq]
  · obtain ⟨subject, opener, key, closer, rfl, rfl, ho, -, hkey⟩ := openOfLast?_eq_some_iff.mp h
    simp only [List.length_append, List.length_cons, List.length_nil] at hj
    exact isOpenAt_of_closes ho hkey hi (by omega)

/-- The span `] [ a [ ( ] ) ]`. -/
theorem openOfLast?_inverts_closeOf?_unbalanced :
    let mark (kind : Kind) (text : String) : Tree := .token ⟨kind, text, default⟩
    let span : List Tree := [mark .closeBracket "]", mark .openBracket "[", mark .name "a",
      mark .openBracket "[", mark .openParen "(", mark .closeBracket "]", mark .closeParen ")",
      mark .closeBracket "]"]
    openOfLast? span = some 1 ∧ closeOf? span 1 = some 7 ∧ IsOpenAt span 1 6 := by
  intro mark span
  obtain ⟨hmatch, -, hinside⟩ := openOfLast?_inverts_closeOf? span
  have hopen : openOfLast? span = some 1 := rfl
  exact ⟨hopen, ((hmatch 1).mp hopen).2, hinside 1 hopen 6 (by decide) (by decide)⟩

end

end Offside
