import Offside.Proofs.FreeBreaks
import Offside.Proofs.RenestedReading
import Offside.Proofs.SquareBrackets

namespace Offside

/-- What an outcome says without the place of its diagnostic. -/
def Outcome.placeless {α : Type} (outcome : Outcome α) : Except Cause α :=
  outcome.mapError (·.cause)

/-- A shape with the lines joined in its parts. -/
def Shape.joined : Shape → Shape
  | returning keyword value => returning keyword (joinLines value)
  | call callee opener arguments => call (joinLines callee) opener arguments
  | access subject opener key => access (joinLines subject) opener (joinLines key)
  | chain subject accessors => chain (joinLines subject) accessors
  | lambda parameters arrow body => lambda parameters arrow (joinLines body)
  | dictionary opener entries => dictionary opener (joinLines entries)
  | operation span => operation (joinLines span)
  | assignment left operator right => assignment (joinLines left) operator (joinLines right)

section

variable {α β : Type} {outcome : Outcome α}

theorem placeless_bind (outcome : Outcome α) (f : α → Outcome β) :
    (outcome >>= f : Outcome β).placeless = outcome.placeless >>= fun a => (f a).placeless := by
  cases outcome <;> rfl

theorem placeless_orAt (outcome : Outcome α) (position : Position) :
    (outcome.orAt position).placeless = outcome.placeless := by
  cases outcome <;> rfl

theorem placeless_mapM (f : α → Outcome β) (xs : List α) :
    (xs.mapM f : Outcome (List β)).placeless = xs.mapM fun x => (f x).placeless := by
  induction xs with
  | nil => rfl
  | cons x xs ih =>
    rw [List.mapM_cons, List.mapM_cons, placeless_bind]
    congr 1
    funext b
    rw [placeless_bind, ih]
    rfl

/-- Outcomes are the same but for a place when they give the same value or have the same cause. -/
theorem placeless_eq_iff {outcome outcome' : Outcome α} : outcome.placeless = outcome'.placeless ↔
    (∀ a, outcome = .ok a → outcome' = .ok a) ∧
      ∀ d, outcome = .error d → ∃ d', outcome' = .error d' ∧ d'.cause = d.cause := by
  cases outcome <;> cases outcome' <;> simp [Outcome.placeless, Except.mapError, eq_comm]

theorem placeless_valueAt (span : List Tree) (position : Position) :
    (readers.valueAt span position).placeless = (readValue span).placeless :=
  placeless_orAt _ _

end

section

variable {span : List Tree}

theorem readClauses_joinLines {clauses : List (Token × List Tree)}
    (h : ∀ c ∈ clauses, (joinLines c.2).isEmpty = c.2.isEmpty) (missing : Option Position) :
    (readClauses readers missing (clauses.map fun c => (c.1, joinLines c.2))).placeless =
      (readClauses readers missing clauses).placeless := by
  induction clauses generalizing missing with
  | nil => rfl
  | cons c clauses ih =>
    obtain ⟨t, operand⟩ := c
    obtain ⟨hoperand, hclauses⟩ := List.forall_mem_cons.mp h
    have hoperand : (joinLines operand).isEmpty = operand.isEmpty := hoperand
    rw [List.map_cons, readClauses, readClauses, hoperand, placeless_bind, placeless_bind]
    congr 1
    funext rank
    cases hempty : operand.isEmpty with
    | true => simp only [if_true, placeless_bind, ih hclauses]
    | false =>
      simp only [if_neg, Bool.false_eq_true, placeless_bind, placeless_valueAt, readValue_joinLines,
        ih hclauses, not_false_eq_true]

theorem readParts_joinLines (h : BreaksFreely span)
    (first : ∀ tree ∈ span.head?, tree.hasKind .newline = false) :
    (readParts readers (joinLines span)).placeless = (readParts readers span).placeless := by
  have hclauses := readClauses_joinLines fun c hc => h.isEmpty_operand hc
  have held := @BreaksFreely.leaves_ne_nil [] [] span (by simpa using h)
  rw [readParts, readParts, cut_joinLines (by decide), origin_joinLines held first]
  rcases hcut : cut [.operator] span with ⟨part, clauses⟩
  rw [hcut] at hclauses
  dsimp only at hclauses ⊢
  cases part with
  | nil => exact hclauses _
  | cons tree part =>
    obtain ⟨rest, hspan⟩ : tree :: part <+: span := by
      have hprefix := @cut_fst_isPrefix [.operator] span
      rwa [hcut] at hprefix
    rw [joinLines_cons (first tree (by rw [← hspan]; rfl))]
    simp only [← joinLines_cons (first tree (by rw [← hspan]; rfl)), placeless_bind,
      placeless_valueAt, readValue_joinLines, hclauses]

theorem readEntry_joinLines {part : List Tree} {opener : Position} (i : Nat)
    (h : origin (joinLines part) = origin part ∨ divide? [.colon] part ≠ none) :
    (readEntry readers opener (joinLines part) i).placeless =
      (readEntry readers opener part i).placeless := by
  rw [readEntry, readEntry, divide?_joinLines (by decide)]
  cases hd : divide? [.colon] part with
  | none =>
    simp only [Option.map_none, h.resolve_right (by simp [hd]), placeless_bind, placeless_valueAt,
      readValue_joinLines]
  | some d => simp only [Option.map_some, placeless_bind, placeless_valueAt, readValue_joinLines]

/-- Joining the lines of the entries of a dictionary makes no difference to them. -/
theorem BreaksFreely.readEntries_eq {opener closer : Token}
    (h : BreaksFreely (.token opener :: (span ++ [.token closer]))) (ho : opener.kind = .openCurly)
    (hc : closer.kind = .closeCurly) (position : Position) :
    (readListed (readEntry readers position) (joinLines span)).placeless =
      (readListed (readEntry readers position) span).placeless := by
  have first : ∀ tree ∈ span.head?, tree.hasKind .newline = false := by
    intro tree htree
    obtain ⟨rest, rfl⟩ := List.head?_eq_some_iff.mp htree
    by_contra hk
    obtain ⟨t, rfl, ht⟩ := token_of_hasKind (by simpa using hk)
    exact not_mayBreak_of_openCurly ho (h [] _ t (rest ++ [.token closer]) rfl ht)
  have hparts : List.Forall₂ (fun part part' => part' = joinLines part ∧
        (origin (joinLines part) = origin part ∨ divide? [.colon] part ≠ none))
      (split [.comma] false span) (split [.comma] false (joinLines span)) := by
    rw [split, split, isEmpty_joinLines first, cut_joinLines (by decide)]
    have hothers := fun c hm => @BreaksFreely.origin_entry span opener closer c h hc hm
    have hfirst : origin (joinLines (cut [.comma] span).1) = origin (cut [.comma] span).1 := by
      obtain ⟨rest, hrest⟩ := @cut_fst_isPrefix [.comma] span
      generalize (cut [.comma] span).1 = part at hrest
      subst hrest
      refine origin_joinLines (@BreaksFreely.leaves_ne_nil [.token opener]
        (rest ++ [.token closer]) part (by simpa using h)) fun tree htree => first tree ?_
      obtain ⟨more, rfl⟩ := List.head?_eq_some_iff.mp htree
      rfl
    generalize cut [.comma] span = parts at hfirst hothers
    obtain ⟨part, others⟩ := parts
    split
    next => exact .nil
    next =>
      refine .cons ⟨rfl, .inl hfirst⟩ ?_
      rw [List.map_map]
      refine List.forall₂_map_left_iff.mpr (List.forall₂_map_right_iff.mpr ?_)
      exact List.forall₂_same.mpr fun c hc => ⟨rfl, hothers c hc⟩
  rw [readListed, readListed, placeless_mapM, placeless_mapM]
  have heq := @mapM_zipIdx_eq _ _ _ _ _ _ (fun part i => (readEntry readers position part i).placeless) _ _
    hparts fun part part' _ hp i => by rw [hp.1, readEntry_joinLines i hp.2]
  exact heq.symm

theorem Shape.read_joined {shape : Shape}
    (hoperation : ∀ span, shape = .operation span →
      (readParts readers (joinLines span)).placeless = (readParts readers span).placeless)
    (hdictionary : ∀ opener entries position, shape = .dictionary opener entries →
      (readListed (readEntry readers position) (joinLines entries)).placeless =
        (readListed (readEntry readers position) entries).placeless) :
    (shape.joined.read readers).placeless = (shape.read readers).placeless := by
  have value : ∀ span, readers.value (joinLines span) = readers.value span := readValue_joinLines
  cases shape with
  | returning keyword span =>
    simp only [joined, read, placeless_bind, placeless_valueAt, readValue_joinLines]
  | call callee opener arguments => simp only [joined, read, value]
  | access subject opener key =>
    simp only [joined, read, value, placeless_bind, placeless_valueAt, readValue_joinLines]
  | chain subject accessors => simp only [joined, read, value]
  | lambda parameters arrow body =>
    simp only [joined, read, placeless_bind, placeless_valueAt, readValue_joinLines]
  | dictionary opener entries =>
    simp only [joined, read, placeless_bind, hdictionary opener entries _ rfl]
  | operation span => simp only [joined, read, readPostfix, placeless_bind, hoperation span rfl]
  | assignment left t right =>
    simp only [joined, read, placeless_bind, placeless_valueAt, readValue_joinLines]

end

section

variable {span xs ys left right before after : List Tree} {tree : Tree} {t : Token}

theorem hasArrow_joinLines (span : List Tree) : hasArrow (joinLines span) = hasArrow span := by
  rw [hasArrow, hasArrow, ← Option.not_isNone, ← Option.not_isNone, topIndex?_joinLines (by decide)]

theorem canBeSubject_joinLines (first : ∀ tree ∈ span.head?, tree.hasKind .newline = false) :
    canBeSubject (joinLines span) = canBeSubject span := by
  rw [canBeSubject, canBeSubject, isEmpty_joinLines first, topIndex?_joinLines (by decide)]

theorem accessors?_eq_none_of_mem (hm : .token t ∈ span) (hvalue : t.kind.isValue = false)
    (hdot : t.kind ≠ .dot) : accessors? span = none := by
  induction span with
  | nil => cases hm
  | cons first span ih =>
    cases first with
    | group items => rfl
    | token u =>
      rw [accessors?]
      rcases List.mem_cons.mp hm with he | hm
      · obtain rfl := Tree.token.inj he
        simp [hvalue, hdot]
      · rw [ih hm]
        simp

/-- The tokens ahead of the arrow of a lambda. -/
theorem kind_of_parameters? {names : List String} (h : parameters? span = some names)
    (ht : t ∈ leaves span) : t.kind ∈ [.name, .comma, .openParen, .closeParen] := by
  have sole : ∀ {part : List Tree} {text : String}, soleName? part = some text →
      .token t ∈ part → t.kind = .name := by
    intro part text hp hm
    unfold soleName? at hp
    split at hp
    next tree =>
      obtain ⟨u, hu, -⟩ := Option.map_eq_some_iff.mp hp
      rw [List.mem_singleton, token_of_name? hu] at hm
      exact Tree.token.inj hm ▸ kind_of_name? hu
    next => cases hp
  unfold parameters? at h
  split at h
  next => cases h
  next u hleaves =>
    obtain ⟨text, htext, -⟩ := Option.map_eq_some_iff.mp h
    have hkind := sole htext (by simpa [hleaves] using ht)
    simp [hkind]
  next first rest _ hleaves =>
    split at h
    next hparens =>
      obtain ⟨hopen, hlast⟩ := Bool.and_eq_true_iff.mp hparens
      obtain ⟨inner, closer, rfl⟩ : ∃ inner closer, rest = inner ++ [closer] := by
        rcases List.eq_nil_or_concat' rest with rfl | hconcat
        · cases hlast
        · exact hconcat
      have hclose : closer.kind = .closeParen := by simpa using hlast
      rw [List.dropLast_concat] at h
      rw [hleaves, List.mem_cons, List.mem_append, List.mem_singleton] at ht
      rcases ht with rfl | ht | rfl
      · simp [eq_of_beq hopen]
      · have hm : Tree.token t ∈ inner.map Tree.token := List.mem_map_of_mem ht
        have hne : inner.map Tree.token ≠ [] := List.ne_nil_of_mem hm
        have hparts := exists_of_mapM_some h
        rw [split_of_ne_nil hne] at hparts
        obtain ⟨hfirst, hothers⟩ := List.forall_mem_cons.mp hparts
        rw [← append_cut [.comma] (inner.map Tree.token)] at hm
        rcases List.mem_append.mp hm with hm | hm
        · obtain ⟨text, htext⟩ := hfirst
          simp [sole htext hm]
        · obtain ⟨c, hc, hm⟩ := List.mem_flatMap.mp hm
          rcases List.mem_cons.mp hm with he | hm
          · have hkind := kind_of_mem_cut hc
            rw [← Tree.token.inj he] at hkind
            simp [List.mem_singleton.mp hkind]
          · obtain ⟨text, htext⟩ := hothers _ (List.mem_map_of_mem hc)
            simp [sole htext hm]
      · simp [hclose]
    next => cases h

theorem parameters?_eq_none_of_mem (hm : .token t ∈ span)
    (hk : t.kind ∉ [.name, .comma, .openParen, .closeParen]) : parameters? span = none :=
  Option.eq_none_iff_forall_ne_some.mpr fun _ h =>
    hk (kind_of_parameters? h (mem_leaves_of_token_mem hm))

theorem closes_joinLines_iff {opening closing : Kind} {n : Nat} (ho : opening ≠ .newline)
    (hc : closing ≠ .newline) :
    Closes opening closing n (joinLines span) ↔ Closes opening closing n span := by
  have count : ∀ {kind : Kind}, kind ≠ .newline → ∀ xs : List Tree,
      (joinLines xs).countP (·.hasKind kind) = xs.countP (·.hasKind kind) := by
    intro kind hk xs
    rw [joinLines, List.countP_filter]
    refine List.countP_congr fun tree _ => ?_
    cases tree with
    | group items => simp [Tree.hasKind]
    | token t =>
      simp only [Tree.hasKind, Bool.and_eq_true, beq_iff_eq, Bool.not_eq_true', beq_eq_false_iff_ne,
        and_iff_left_iff_imp]
      rintro rfl
      exact hk
  constructor
  · rintro ⟨htotal, hbefore⟩
    refine ⟨by rwa [count ho, count hc] at htotal, fun xs hx => ?_⟩
    have h := hbefore (joinLines xs) (hx.filter _)
    rwa [count ho, count hc] at h
  · rintro ⟨htotal, hbefore⟩
    refine ⟨by rwa [count ho, count hc], fun xs hx => ?_⟩
    obtain ⟨rest, hrest⟩ := hx
    obtain ⟨front, back, rfl, rfl, -⟩ := List.filter_eq_append_iff.mp hrest.symm
    have h := hbefore front (List.prefix_append _ _)
    rwa [← joinLines, count ho, count hc]

theorem joinLines_append_parens {callee arguments : List Tree} {opener closer : Token}
    (ho : opener.kind = .openParen) (hc : closer.kind = .closeParen) :
    joinLines (callee ++ [.token opener, .group arguments, .token closer]) =
      joinLines callee ++ [.token opener, .group arguments, .token closer] := by
  rw [joinLines_append, joinLines_parens ho hc]
  rfl

theorem access?_append {subject key : List Tree} {opener closer : Token}
    (ho : opener.kind = .openBracket) (hc : closer.kind = .closeBracket)
    (hkey : Closes .openBracket .closeBracket 0 key) :
    access? (subject ++ .token opener :: (key ++ [.token closer])) =
      if !hasArrow (subject ++ .token opener :: (key ++ [.token closer])) &&
          canBeSubject subject then
        some (.access subject (.token opener) key)
      else none := by
  have hi := openOfLast?_eq_some_iff.mpr ⟨subject, opener, key, closer, rfl, rfl, ho, hc, hkey⟩
  rw [access?, hi]
  simp

theorem dictionary?_append {entries : List Tree} {opener closer : Token}
    (ho : opener.kind = .openCurly) (hc : closer.kind = .closeCurly)
    (hentries : Closes .openCurly .closeCurly 0 entries) :
    dictionary? (.token opener :: (entries ++ [.token closer])) =
      some (.dictionary (.token opener) entries) := by
  have hclose := hentries.closerIndex?_eq (by decide)
    (show (Tree.token closer).hasKind .closeCurly = true by simp [Tree.hasKind, hc]) []
  have hcloser : opener.kind.closer? = some .closeCurly := by rw [ho]; rfl
  have hat : closeOf? (.token opener :: (entries ++ [.token closer])) 0 =
      some (entries.length + 1) := by
    have h := closeOf?_append hcloser [] (entries ++ [.token closer])
    rw [ho, hclose] at h
    simpa [Nat.add_comm] using h
  rw [dictionary?, hat, if_pos (by simp [Tree.hasKind, ho]), List.dropLast_concat]

theorem operation?_joinLines (span : List Tree) :
    operation? (joinLines span) = (operation? span).map Shape.joined := by
  rw [operation?, operation?, divide?_joinLines (by decide)]
  cases divide? [.operator, .assignment] span with
  | none => rfl
  | some d =>
    simp only [Option.map_some, Option.bind_eq_bind, Option.bind_some]
    split <;> rfl

theorem assignment?_joinLines (span : List Tree) :
    assignment? (joinLines span) = (assignment? span).map Shape.joined := by
  rw [assignment?, assignment?, divide?_joinLines (by decide)]
  cases divide? [.operator, .assignment] span with
  | none => rfl
  | some d =>
    simp only [Option.map_some, Option.bind_eq_bind, Option.bind_some]
    split <;> rfl

theorem readSimple_eq_readConstruct (hl : ∀ t, xs ≠ [.token t])
    (hp : ∀ items, inParens? xs ≠ some items) :
    readSimple readers xs (readConstruct readers) = readConstruct readers xs := by
  have hliteral : literal? xs = none := by
    unfold literal?
    split
    next t => exact absurd rfl (hl t)
    next => rfl
  rw [readSimple, hliteral, Option.eq_none_iff_forall_ne_some.mpr hp]

end

section

variable {xs : List Tree} (h : BreaksFreely xs)
  (first : ∀ tree ∈ xs.head?, tree.hasKind .newline = false)

include h first

theorem BreaksFreely.exists_of_newline {left right : List Tree} {t : Token}
    (hs : xs = left ++ .token t :: right) (ht : t.kind = .newline) :
    ∃ front last, left = front ++ [last] ∧ MayBreak last right := by
  rcases List.eq_nil_or_concat' left with rfl | ⟨front, last, rfl⟩
  · have hnot := first (.token t) (by rw [hs]; rfl)
    simp [Tree.hasKind, ht] at hnot
  · exact ⟨front, last, rfl, h front last t right (by rw [hs]; simp) ht⟩

theorem BreaksFreely.returning? :
    returning? (joinLines xs) = (Offside.returning? xs).map Shape.joined := by
  cases xs with
  | nil => rfl
  | cons tree span =>
    rw [joinLines_cons (first tree rfl), Offside.returning?, Offside.returning?]
    split <;> rfl

theorem BreaksFreely.endsWithParens (hj : EndsWithParens (joinLines xs)) : EndsWithParens xs := by
  obtain ⟨callee, opener, arguments, closer, hspan, ho, hc⟩ := hj
  obtain ⟨front, back, rfl, -, hback⟩ := exists_of_joinLines_eq hspan
  obtain ⟨lines, back, rfl, hlines, hcloser⟩ := @exists_of_joinLines_eq _ _ [] _ hback
  obtain ⟨lines', back, rfl, hlines', hrest⟩ := @exists_of_joinLines_eq _ _ [] _ hcloser
  obtain rfl := h.eq_nil hlines (not_mayBreak_of_openParen ho)
  have h' : BreaksFreely ((front ++ [.token opener]) ++
      .group arguments :: (lines' ++ .token closer :: back)) := by simpa using h
  obtain rfl := h'.eq_nil hlines' (not_mayBreak_of_closeParen hc)
  have hback : BreaksFreely ((front ++ [.token opener, .group arguments]) ++
      .token closer :: (back ++ [])) := by simpa using h
  obtain rfl := hback.eq_nil hrest not_mayBreak_nil
  exact ⟨front, opener, arguments, closer, rfl, ho, hc⟩

theorem BreaksFreely.call? : call? (joinLines xs) = (Offside.call? xs).map Shape.joined := by
  by_cases hform : EndsWithParens xs
  · obtain ⟨callee, opener, arguments, closer, rfl, ho, hc⟩ := hform
    rw [joinLines_append_parens ho hc, call?_append ho hc, call?_append ho hc,
      ← joinLines_append_parens ho hc, hasArrow_joinLines,
      canBeSubject_joinLines (not_newline_of_append first)]
    split <;> rfl
  · have hform' : ¬EndsWithParens (joinLines xs) := fun hj => hform (h.endsWithParens first hj)
    rw [call?_eq_none_of_not_endsWithParens hform, call?_eq_none_of_not_endsWithParens hform']
    rfl

theorem BreaksFreely.access? :
    access? (joinLines xs) = (Offside.access? xs).map Shape.joined := by
  cases hx : openOfLast? xs with
  | some i =>
    obtain ⟨subject, opener, key, closer, rfl, -, ho, hc, hcloses⟩ := openOfLast?_eq_some_iff.mp hx
    have hjoin : joinLines (subject ++ .token opener :: (key ++ [.token closer])) =
        joinLines subject ++ .token opener :: (joinLines key ++ [.token closer]) := by
      rw [joinLines_append, joinLines_token (by simp [ho]), joinLines_append,
        joinLines_token (by simp [hc])]
      rfl
    rw [hjoin, access?_append ho hc ((closes_joinLines_iff (by decide) (by decide)).mpr hcloses),
      access?_append ho hc hcloses, ← hjoin, hasArrow_joinLines,
      canBeSubject_joinLines (not_newline_of_append first)]
    split <;> rfl
  | none =>
    have hj : openOfLast? (joinLines xs) = none := by
      refine Option.eq_none_iff_forall_ne_some.mpr fun i hi => ?_
      obtain ⟨subject, opener, key, closer, hspan, -, ho, hc, hcloses⟩ :=
        openOfLast?_eq_some_iff.mp hi
      obtain ⟨front, back, rfl, -, hback⟩ := exists_of_joinLines_eq hspan
      obtain ⟨inside, back, rfl, rfl, hlines⟩ := exists_of_joinLines_eq hback
      have hspan : BreaksFreely ((front ++ .token opener :: inside) ++ .token closer :: (back ++ [])) := by
        simpa using h
      obtain rfl := hspan.eq_nil hlines not_mayBreak_nil
      have hfound := openOfLast?_eq_some_iff.mpr ⟨front, opener, inside, closer, rfl, rfl, ho, hc,
        (closes_joinLines_iff (by decide) (by decide)).mp hcloses⟩
      cases hx.symm.trans hfound
    rw [Offside.access?, Offside.access?, hx, hj]
    rfl

theorem BreaksFreely.chain? :
    chain? (joinLines xs) = (Offside.chain? xs).map Shape.joined := by
  rw [Offside.chain?, Offside.chain?, divide?_joinLines (by decide), hasArrow_joinLines]
  cases hd : divide? [.dot] xs with
  | none => rfl
  | some d =>
    obtain ⟨subject, dot, rest⟩ := d
    have hdot := List.mem_singleton.mp (kind_of_divide? hd)
    obtain rfl := eq_of_divide? hd
    have hrest : accessors? (joinLines rest) = accessors? rest := by
      by_cases hlines : ∀ tree ∈ rest, tree.hasKind .newline = false
      · rw [joinLines_eq_self hlines]
      · obtain ⟨t, left, right, rfl, ht⟩ := exists_newline hlines
        obtain ⟨front, last, hleft, hbreak⟩ := h.exists_of_newline first
          (show _ = (subject ++ .token dot :: left) ++ .token t :: right by simp) ht
        obtain ⟨u, hu, hvalue, hkind⟩ := hbreak.exists_not_accessor
        have hm : .token u ∈ left ++ .token t :: right := by
          rcases hu with rfl | hu
          · rcases List.eq_nil_or_concat' left with rfl | ⟨before, item, rfl⟩
            · have hu := Tree.token.inj (List.cons.inj (List.append_inj' hleft rfl).2).1
              simp [← hu, hdot] at hkind
            · rw [← List.cons_append, ← List.append_assoc] at hleft
              rw [(List.append_inj' hleft rfl).2]
              simp
          · simp [hu]
        have hjoin : .token u ∈ joinLines (left ++ .token t :: right) :=
          List.mem_filter.mpr ⟨hm, by simpa [Tree.hasKind] using fun he => hkind (by simp [he])⟩
        rw [accessors?_eq_none_of_mem hm hvalue fun he => hkind (by simp [he]),
          accessors?_eq_none_of_mem hjoin hvalue fun he => hkind (by simp [he])]
    simp only [Option.map_some, Option.bind_eq_bind, Option.bind_some, hrest,
      canBeSubject_joinLines (not_newline_of_append first)]
    split
    next => rfl
    next =>
      cases accessors? rest with
      | none => rfl
      | some accessors =>
        simp only [Option.bind_some]
        split <;> rfl

theorem BreaksFreely.lambda? :
    lambda? (joinLines xs) = (Offside.lambda? xs).map Shape.joined := by
  rw [Offside.lambda?, Offside.lambda?, divide?_joinLines (by decide)]
  cases hd : divide? [.arrow] xs with
  | none => rfl
  | some d =>
    obtain ⟨head, arrow, body⟩ := d
    have harrow := List.mem_singleton.mp (kind_of_divide? hd)
    obtain rfl := eq_of_divide? hd
    have hhead : parameters? (joinLines head) = parameters? head := by
      by_cases hlines : ∀ tree ∈ head, tree.hasKind .newline = false
      · rw [joinLines_eq_self hlines]
      · obtain ⟨t, left, right, rfl, ht⟩ := exists_newline hlines
        obtain ⟨front, last, rfl, hbreak⟩ := h.exists_of_newline first
          (show _ = left ++ .token t :: (right ++ .token arrow :: body) by simp) ht
        obtain ⟨u, hu, hkind, hne⟩ := hbreak.exists_not_parameter harrow
        have hm : .token u ∈ front ++ [last] ++ .token t :: right := by
          rcases hu with rfl | hu
          · simp
          · simp [hu]
        have hjoin : .token u ∈ joinLines (front ++ [last] ++ .token t :: right) :=
          List.mem_filter.mpr ⟨hm, by simpa [Tree.hasKind] using hne⟩
        rw [parameters?_eq_none_of_mem hm hkind, parameters?_eq_none_of_mem hjoin hkind]
    simp only [Option.map_some, Option.bind_eq_bind, Option.bind_some, hhead]
    cases parameters? head <;> rfl

theorem BreaksFreely.dictionary? :
    dictionary? (joinLines xs) = (Offside.dictionary? xs).map Shape.joined := by
  cases hx : Offside.dictionary? xs with
  | some shape =>
    obtain ⟨opener, entries, closer, rfl, ho, hc, hcloses, rfl⟩ := dictionary?_eq_some hx
    rw [joinLines_token (by simp [ho]), joinLines_append, joinLines_token (by simp [hc])]
    exact dictionary?_append ho hc ((closes_joinLines_iff (by decide) (by decide)).mpr hcloses)
  | none =>
    refine Option.eq_none_iff_forall_ne_some.mpr fun shape hj => ?_
    obtain ⟨opener, entries, closer, hspan, ho, hc, hcloses, -⟩ := dictionary?_eq_some hj
    cases xs with
    | nil => cases hspan
    | cons tree span =>
      rw [joinLines_cons (first tree rfl)] at hspan
      obtain ⟨rfl, hjoin⟩ := List.cons.inj hspan
      obtain ⟨inside, back, rfl, rfl, hlines⟩ := exists_of_joinLines_eq hjoin
      have hspan : BreaksFreely ((.token opener :: inside) ++ .token closer :: (back ++ [])) := by
        simpa using h
      obtain rfl := hspan.eq_nil hlines not_mayBreak_nil
      have hfound := dictionary?_append ho hc
        ((closes_joinLines_iff (by decide) (by decide)).mp hcloses)
      cases hx.symm.trans hfound

/-- A span is taken apart in the same way when its lines are joined. -/
theorem BreaksFreely.shape? : shape? (joinLines xs) = (Offside.shape? xs).map Shape.joined := by
  have each : ∀ form : ConstructForm,
      form.shape? (joinLines xs) = (form.shape? xs).map Shape.joined := by
    intro form
    cases form with
    | returning => exact h.returning? first
    | call => exact h.call? first
    | access => exact h.access? first
    | chain => exact h.chain? first
    | lambda => exact h.lambda? first
    | dictionary => exact h.dictionary? first
    | operation => exact operation?_joinLines xs
    | assignment => exact assignment?_joinLines xs
  rw [Offside.shape?, Offside.shape?, List.map_findSome?]
  congr 1
  funext form
  exact each form

/-- So it is read in the same way. -/
theorem BreaksFreely.readConstruct_eq :
    (readConstruct readers (joinLines xs)).placeless = (readConstruct readers xs).placeless := by
  rw [readConstruct, readConstruct, h.shape? first]
  cases hs : Offside.shape? xs with
  | none =>
    have held := @BreaksFreely.leaves_ne_nil [] [] xs (by simpa using h)
    simp only [Option.map_none, firstLeaf?_joinLines held first, origin_joinLines held first]
  | some shape =>
    simp only [Option.map_some, placeless_bind]
    rw [Shape.read_joined]
    · rintro span rfl
      cases divides_of_shape? hs
      exact readParts_joinLines h first
    · rintro opener entries position rfl
      cases divides_of_shape? hs with
      | @dictionary _ _ closer opens closes =>
        obtain ⟨opener, rfl, ho⟩ := token_of_hasKind opens
        obtain ⟨closer, rfl, hc⟩ := token_of_hasKind closes
        exact h.readEntries_eq ho hc position

/-- Nor does it make one to what is a single token or stands in parentheses. -/
theorem BreaksFreely.readSimple_eq :
    (readSimple readers (joinLines xs) (readConstruct readers)).placeless =
      (readSimple readers xs (readConstruct readers)).placeless := by
  by_cases hsame : joinLines xs = xs
  · rw [hsame]
  · -- with a line break to drop, neither is a single token or a group in parentheses
    have empty : ∀ {front rest : List Tree}, xs = front ++ rest → joinLines front = [] →
        front = [] := by
      intro front rest hs hfront
      have hempty := isEmpty_joinLines (@not_newline_of_append front rest (hs ▸ first))
      rw [hfront] at hempty
      exact List.isEmpty_iff.mp hempty.symm
    have hliteral : ∀ t, joinLines xs ≠ [.token t] := by
      intro t hs
      obtain ⟨front, back, hspan, hfront, hback⟩ := @exists_of_joinLines_eq xs (.token t) [] [] hs
      have hend : BreaksFreely (front ++ .token t :: (back ++ [])) := by
        rw [List.append_nil, ← hspan]
        exact h
      rw [empty hspan hfront, hend.eq_nil hback not_mayBreak_nil] at hspan
      exact hsame (hs.trans hspan.symm)
    have hparens : ∀ items, inParens? (joinLines xs) ≠ some items := by
      intro items hp
      obtain ⟨opener, closer, hs, ho, hc⟩ := eq_of_inParens? hp
      obtain ⟨front, opener', items', closer', hspan, ho', hc'⟩ :=
        h.endsWithParens first ⟨[], opener, items, closer, hs, ho, hc⟩
      have hfront : joinLines front = [] := by
        rw [hspan, joinLines_append_parens ho' hc'] at hs
        exact (@List.append_inj' _ _ _ [] _ hs rfl).1
      rw [empty hspan hfront, List.nil_append] at hspan
      have hjoin := @joinLines_append_parens [] items' _ _ ho' hc'
      rw [List.nil_append, ← hspan] at hjoin
      exact hsame hjoin
    have hunjoined : ∀ items, inParens? xs ≠ some items := by
      intro items hp
      obtain ⟨opener, closer, hs, ho, hc⟩ := eq_of_inParens? hp
      refine hsame (joinLines_eq_self ?_)
      simp [hs, Tree.hasKind, ho, hc]
    rw [readSimple_eq_readConstruct hliteral hparens, readSimple_eq_readConstruct ?_ hunjoined]
    · exact h.readConstruct_eq first
    · rintro t rfl
      exact hsame (joinLines_cons (first _ rfl) [])

end

end Offside
