import Offside.Proofs.Division

namespace Offside

/-- Whether a search that `inner` brackets keep open passes a span, and then stops at the first
closing bracket. -/
structure Closes (opening closing : Kind) (inner : Nat) (span : List Tree) : Prop where
  total : span.countP (·.hasKind closing) = inner + span.countP (·.hasKind opening)
  before : ∀ xs, xs <+: span →
    xs.countP (·.hasKind closing) ≤ inner + xs.countP (·.hasKind opening)

section

variable {opening closing : Kind} {inner n : Nat} {span : List Tree}

theorem closes_nil : Closes opening closing 0 [] := by
  refine ⟨rfl, fun xs hx => ?_⟩
  rw [List.prefix_nil.mp hx]
  exact Nat.le_refl _

theorem Closes.cons {tree : Tree} (h : Closes opening closing n span)
    (step : n + (if tree.hasKind closing then 1 else 0) =
      inner + if tree.hasKind opening then 1 else 0) :
    Closes opening closing inner (tree :: span) := by
  refine ⟨?_, fun xs hx => ?_⟩
  · rw [List.countP_cons, List.countP_cons, h.total]
    omega
  · cases xs with
    | nil => exact Nat.zero_le _
    | cons first xs =>
      obtain ⟨rfl, hxs⟩ := List.cons_prefix_cons.mp hx
      have hle := h.before xs hxs
      rw [List.countP_cons, List.countP_cons]
      omega

/-- What a search for a closing bracket passes, and the item that it ends at. -/
theorem closerIndex?_split (hne : opening ≠ closing) {i : Nat}
    (h : closerIndex? opening closing inner span = some i) :
    ∃ before closer after, span = before ++ closer :: after ∧ before.length = i ∧
      closer.hasKind closing = true ∧ Closes opening closing inner before := by
  have step : ∀ {o : Option Nat} {tree : Tree} {span : List Tree} {inner n i : Nat},
      (∀ {j}, o = some j → ∃ before closer after, span = before ++ closer :: after ∧
        before.length = j ∧ closer.hasKind closing = true ∧ Closes opening closing n before) →
      n + (if tree.hasKind closing then 1 else 0) =
        inner + (if tree.hasKind opening then 1 else 0) →
      o.map (· + 1) = some i → ∃ before closer after, tree :: span = before ++ closer :: after ∧
        before.length = i ∧ closer.hasKind closing = true ∧
          Closes opening closing inner before := by
    intro o tree span inner n i hj hn he
    obtain ⟨j, hs, rfl⟩ := Option.map_eq_some_iff.mp he
    obtain ⟨before, closer, after, rfl, rfl, hk, hbefore⟩ := hj hs
    exact ⟨tree :: before, closer, after, rfl, rfl, hk, hbefore.cons hn⟩
  fun_induction closerIndex? opening closing inner span generalizing i with
  | case1 => cases h
  | case2 inner tree span ho ih =>
    have hc : tree.hasKind closing = false := by
      obtain ⟨t, rfl, hk⟩ := token_of_hasKind ho
      simpa [Tree.hasKind, hk] using hne
    refine step ih ?_ h
    rw [ho, hc]
    simp
  | case3 tree span ho hc =>
    obtain rfl := Option.some.inj h
    exact ⟨[], tree, span, rfl, rfl, hc, closes_nil⟩
  | case4 tree span ho hc inner ih => exact step ih (by simp [ho, hc]) h
  | case5 inner tree span ho hc ih => exact step ih (by simp [ho, hc]) h

/-- A square bracket at the end and the one that it closes. -/
theorem openOfLast?_split {i : Nat} (h : openOfLast? span = some i) :
    ∃ subject opener key closer, span = subject ++ .token opener :: (key ++ [.token closer]) ∧
      subject.length = i ∧ opener.kind = .openBracket ∧ closer.kind = .closeBracket ∧
        Closes .closeBracket .openBracket 0 key.reverse := by
  unfold openOfLast? at h
  split at h
  next => cases h
  next last rest hr =>
    split at h
    next hlast =>
      obtain ⟨j, hj, rfl⟩ := Option.map_eq_some_iff.mp h
      obtain ⟨key, opener, before, rfl, rfl, hopen, hcloses⟩ := closerIndex?_split (by decide) hj
      obtain ⟨opener, rfl, ho⟩ := token_of_hasKind hopen
      obtain ⟨closer, rfl, hc⟩ := token_of_hasKind hlast
      refine ⟨before.reverse, opener, key.reverse, closer, ?_, ?_, ho, hc, ?_⟩
      · have hs := congrArg List.reverse hr
        simpa using hs
      · simp only [List.length_append, List.length_cons, List.length_reverse]
        omega
      · rwa [List.reverse_reverse]
    next => cases h

end

/-! What each form has found where it takes a span apart. -/

section

variable {span : List Tree} {shape : Shape}

theorem returning?_eq_some (h : returning? span = some shape) :
    ∃ keyword value, span = .token keyword :: value ∧ keyword.kind = .returnWord ∧
      shape = .returning (.token keyword) value := by
  unfold returning? at h
  split at h
  next => cases h
  next keyword value =>
    split at h
    next hw =>
      obtain ⟨t, rfl, hk⟩ := token_of_hasKind hw
      exact ⟨t, value, rfl, hk, (Option.some.inj h).symm⟩
    next => cases h

theorem call?_eq_some (h : call? span = some shape) :
    ∃ callee opener arguments closer,
      span = callee ++ [.token opener, .group arguments, .token closer] ∧
      opener.kind = .openParen ∧ closer.kind = .closeParen ∧ hasArrow span = false ∧
      canBeSubject callee = true ∧ shape = .call callee (.token opener) arguments := by
  unfold call? at h
  split at h
  next closer arguments opener before hr =>
    have hs : span = before.reverse ++ [opener, .group arguments, closer] := by
      have h := congrArg List.reverse hr
      simpa using h
    dsimp only at h
    split at h
    next hc =>
      simp only [Bool.and_eq_true, Bool.not_eq_true'] at hc
      obtain ⟨⟨⟨hclose, hopen⟩, harrow⟩, hsubject⟩ := hc
      obtain ⟨t, rfl, ht⟩ := token_of_hasKind hopen
      obtain ⟨u, rfl, hu⟩ := token_of_hasKind hclose
      exact ⟨_, t, arguments, u, hs, ht, hu, harrow, hsubject, (Option.some.inj h).symm⟩
    next => cases h
  next => cases h

theorem access?_eq_some (h : access? span = some shape) :
    ∃ subject opener key closer, span = subject ++ .token opener :: (key ++ [.token closer]) ∧
      opener.kind = .openBracket ∧ closer.kind = .closeBracket ∧
      Closes .closeBracket .openBracket 0 key.reverse ∧ hasArrow span = false ∧
      canBeSubject subject = true ∧ shape = .access subject (.token opener) key := by
  obtain ⟨i, hi, h⟩ := Option.bind_eq_some_iff.mp h
  obtain ⟨subject, opener, key, closer, rfl, rfl, ho, hc, hcloses⟩ := openOfLast?_split hi
  rw [List.drop_left, List.take_left] at h
  dsimp only at h
  split at h
  next hcan =>
    obtain ⟨harrow, hsubject⟩ := Bool.and_eq_true_iff.mp hcan
    rw [List.dropLast_concat] at h
    exact ⟨subject, opener, key, closer, rfl, ho, hc, hcloses, by simpa using harrow, hsubject,
      (Option.some.inj h).symm⟩
  next => cases h

theorem chain?_eq_some (h : chain? span = some shape) :
    ∃ subject dot rest accessors, divide? [.dot] span = some (subject, dot, rest) ∧
      hasArrow span = false ∧ canBeSubject subject = true ∧ accessors? rest = some accessors ∧
      accessors ≠ [] ∧ shape = .chain subject accessors := by
  obtain ⟨⟨subject, dot, rest⟩, hd, h⟩ := Option.bind_eq_some_iff.mp h
  dsimp only at h
  split at h
  next => cases h
  next hc =>
    simp only [Bool.or_eq_true, Bool.not_eq_true', not_or, Bool.not_eq_true,
      Bool.not_eq_false] at hc
    obtain ⟨accessors, ha, h⟩ := Option.bind_eq_some_iff.mp h
    split at h
    next => cases h
    next hne =>
      exact ⟨subject, dot, rest, accessors, hd, hc.1, hc.2, ha, mt List.isEmpty_iff.mpr hne,
        (Option.some.inj h).symm⟩

theorem lambda?_eq_some (h : lambda? span = some shape) :
    ∃ head arrow body parameters, divide? [.arrow] span = some (head, arrow, body) ∧
      parameters? head = some parameters ∧ shape = .lambda parameters arrow body := by
  obtain ⟨⟨head, arrow, body⟩, hd, h⟩ := Option.bind_eq_some_iff.mp h
  obtain ⟨parameters, hp, h⟩ := Option.bind_eq_some_iff.mp h
  exact ⟨head, arrow, body, parameters, hd, hp, (Option.some.inj h).symm⟩

theorem dictionary?_eq_some (h : dictionary? span = some shape) :
    ∃ opener entries closer, span = .token opener :: (entries ++ [.token closer]) ∧
      opener.kind = .openCurly ∧ closer.kind = .closeCurly ∧
      Closes .openCurly .closeCurly 0 entries ∧ shape = .dictionary (.token opener) entries := by
  unfold dictionary? at h
  split at h
  next => cases h
  next opener rest =>
    split at h
    next hc =>
      obtain ⟨hopen, hclose⟩ := Bool.and_eq_true_iff.mp hc
      obtain ⟨t, rfl, hk⟩ := token_of_hasKind hopen
      -- the bracket that closes the first item is the last item of the span
      have hclose := eq_of_beq hclose
      rw [closeOf?, List.drop_zero] at hclose
      simp only [hk, Kind.closer?, Option.bind_eq_bind, Option.bind_some] at hclose
      obtain ⟨n, hn, he⟩ := Option.bind_eq_some_iff.mp hclose
      obtain ⟨entries, closer, after, rfl, rfl, hkind, hcloses⟩ := closerIndex?_split (by decide) hn
      have hlen := Option.some.inj he
      simp only [List.length_append, List.length_cons] at hlen
      obtain rfl : after = [] := List.length_eq_zero_iff.mp (by omega)
      obtain ⟨u, rfl, hu⟩ := token_of_hasKind hkind
      rw [List.dropLast_concat] at h
      exact ⟨t, entries, u, rfl, hk, hu, hcloses, (Option.some.inj h).symm⟩
    next => cases h

theorem operation?_eq_some (h : operation? span = some shape) :
    ∃ left t right, divide? [.operator, .assignment] span = some (left, t, right) ∧
      t.kind = .operator ∧ shape = .operation span := by
  obtain ⟨⟨left, t, right⟩, hd, h⟩ := Option.bind_eq_some_iff.mp h
  dsimp only at h
  split at h
  next hk => exact ⟨left, t, right, hd, hk, (Option.some.inj h).symm⟩
  next => cases h

theorem assignment?_eq_some (h : assignment? span = some shape) :
    ∃ left t right, divide? [.operator, .assignment] span = some (left, t, right) ∧
      t.kind = .assignment ∧ shape = .assignment left t right := by
  obtain ⟨⟨left, t, right⟩, hd, h⟩ := Option.bind_eq_some_iff.mp h
  dsimp only at h
  split at h
  next hk => exact ⟨left, t, right, hd, hk, (Option.some.inj h).symm⟩
  next => cases h

end

end Offside
