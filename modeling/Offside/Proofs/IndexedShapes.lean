import Offside.Proofs.CountedBrackets
import Offside.Proofs.Descent
import Offside.Shape

namespace Offside

section

variable {kinds kinds' : List Kind} {span left right : List Tree} {t : Token} {i j : Nat}

theorem divide?_of_topIndex? (h : topIndex? kinds span = some i) :
    ∃ left t right, span = left ++ .token t :: right ∧ left.length = i ∧
      divide? kinds span = some (left, t, right) := by
  obtain ⟨left, t, right, rfl, hi, hleft, ht⟩ := findIdx?_depths h
  exact ⟨left, t, right, rfl, hi, divide?_eq_some_iff.mpr ⟨rfl, hleft, ht⟩⟩

theorem divide?_of_topIndex?_eq_none (h : topIndex? kinds span = none) :
    divide? kinds span = none :=
  divide?_eq_none_iff.mpr (topIndex?_eq_none_iff.mp h)

/-- The first separator of several kinds is the first one of its own kind. -/
theorem topIndex?_of_divide? (hs : kinds ⊆ kinds') (hk : t.kind ∈ kinds)
    (h : divide? kinds' span = some (left, t, right)) :
    topIndex? kinds span = some left.length := by
  obtain ⟨rfl, hleft, ht⟩ := divide?_eq_some_iff.mp h
  exact topIndex?_append (hleft.of_subset hs)
    (separator?_eq_some_iff.mpr ⟨hk, (separator?_eq_some_iff.mp ht).2⟩)

/-- All other separators stand behind it. -/
theorem lt_of_divide? (hs : kinds ⊆ kinds') (hk : t.kind ∉ kinds)
    (h : divide? kinds' span = some (left, t, right)) (hj : topIndex? kinds span = some j) :
    left.length < j := by
  obtain ⟨before, u, after, hspan, rfl, hd⟩ := divide?_of_topIndex? hj
  have hu := kind_of_divide? hd
  have hsep := (divide?_eq_some_iff.mp hd).2.2
  obtain ⟨rfl, hleft, -⟩ := divide?_eq_some_iff.mp h
  rcases List.append_eq_append_iff.mp hspan with ⟨more, rfl, hmore⟩ | ⟨more, rfl, hmore⟩
  · cases more with
    | nil =>
      obtain ⟨htoken, -⟩ := List.cons.inj hmore
      obtain rfl := Tree.token.inj htoken
      exact absurd hu hk
    | cons tree more =>
      rw [List.length_append, List.length_cons]
      omega
  · cases more with
    | nil =>
      obtain ⟨htoken, -⟩ := List.cons.inj hmore
      obtain rfl := Tree.token.inj htoken
      exact absurd hu hk
    | cons tree more =>
      -- a separator in front of the first one
      obtain ⟨rfl, -⟩ := List.cons.inj hmore
      have hundivided := (isUndivided_cons.mp (isUndivided_append.mp (hleft.of_subset hs)).2).1
      cases hundivided.symm.trans hsep

theorem any_lt_of_divide? (hs : kinds ⊆ kinds') (hk : t.kind ∉ kinds)
    (h : divide? kinds' span = some (left, t, right)) :
    (topIndex? kinds span).any (· < left.length) = false := by
  cases hj : topIndex? kinds span with
  | none => rfl
  | some j => exact decide_eq_false (Nat.not_lt.mpr (lt_of_divide? hs hk h hj).le)

end

namespace Stepwise

section

variable (limit : Option Nat)

def canBeSubject (span : List Tree) : Run Bool :=
  if span.isEmpty then .done false
  else do
    let found ← topIndex? limit [.operator, .assignment, .arrow] span
    return found.isNone

def hasArrow (span : List Tree) : Run Bool := do
  let found ← topIndex? limit [.arrow] span
  return found.isSome

def parameters? (span : List Tree) : Run (Option (List String)) :=
  match leaves span with
  | [] => .done none
  | [t] => .done ((soleName? [.token t]).map ([·]))
  | first :: rest =>
    if first.kind == .openParen && rest.getLast?.any (·.kind == .closeParen) then do
      let parts ← split limit [.comma] false (rest.dropLast.map .token)
      return parts.mapM soleName?
    else .done none

def returning? (span : List Tree) : Run (Option Shape) :=
  match span.head? with
  | none => .done none
  | some keyword =>
    if keyword.hasKind .returnWord then do
      let value ← Run.behind span 1
      return some (.returning keyword value)
    else .done none

def call? (span : List Tree) : Run (Option Shape) :=
  if span.length < 4 then .done none
  else do
    let last ← Run.minus span.length 1
    let closer ← Run.item span last
    let first ← Run.minus span.length 3
    let opener ← Run.item span first
    if closer.hasKind .closeParen && opener.hasKind .openParen then
      let inner ← Run.minus span.length 2
      let inside ← Run.item span inner
      match inside with
      | .token _ => return none
      | .group arguments =>
        let callee ← Run.before span first
        let arrow ← hasArrow limit span
        let subject ← canBeSubject limit callee
        return if !arrow && subject then some (.call callee opener arguments) else none
    else return none

def access? (span : List Tree) : Run (Option Shape) := do
  let found ← openOfLast? limit span
  match found with
  | none => return none
  | some i =>
    let subject ← Run.before span i
    let arrow ← hasArrow limit span
    let accessible ← canBeSubject limit subject
    if !arrow && accessible then
      let last ← Run.minus span.length 1
      let key ← Run.slice span (i + 1) last
      let opener ← Run.item span i
      return some (.access subject opener key)
    else return none

def chain? (span : List Tree) : Run (Option Shape) := do
  let arrow ← hasArrow limit span
  let found ← topIndex? limit [.dot] span
  match found with
  | none => return none
  | some i =>
    let subject ← Run.before span i
    let chainable ← canBeSubject limit subject
    if arrow || !chainable then return none
    else
      let rest ← Run.behind span i
      match accessors? rest with
      | none => return none
      | some accessors =>
        return if accessors.isEmpty then none else some (.chain subject accessors)

def lambda? (span : List Tree) : Run (Option Shape) := do
  let found ← topIndex? limit [.arrow] span
  match found with
  | none => return none
  | some i =>
    let head ← Run.before span i
    let names ← parameters? limit head
    match names with
    | none => return none
    | some parameters =>
      let body ← Run.behind span (i + 1)
      let arrow ← Run.item span i
      match arrow with
      | .token t => return some (.lambda parameters t body)
      | .group _ => .broken

def dictionary? (span : List Tree) : Run (Option Shape) :=
  if span.length < 2 then .done none
  else do
    let opener ← Run.item span 0
    if opener.hasKind .openCurly then
      let found ← closeOf? limit span 0
      let last ← Run.minus span.length 1
      if found == some last then
        let entries ← Run.slice span 1 last
        return some (.dictionary opener entries)
      else return none
    else return none

/-- Where a span is divided by a kind, unless another kind comes first. -/
def firstOf? (kind other : Kind) (span : List Tree) : Run (Option Nat) := do
  let found ← topIndex? limit [kind] span
  match found with
  | none => return none
  | some i =>
    let earlier ← topIndex? limit [other] span
    return if earlier.any (· < i) then none else some i

def operation? (span : List Tree) : Run (Option Shape) := do
  let found ← firstOf? limit .operator .assignment span
  return found.map fun _ => .operation span

def assignment? (span : List Tree) : Run (Option Shape) := do
  let found ← firstOf? limit .assignment .operator span
  match found with
  | none => return none
  | some i =>
    let sign ← Run.item span i
    match sign with
    | .group _ => return none
    | .token t =>
      let left ← Run.before span i
      let right ← Run.behind span (i + 1)
      return some (.assignment left t right)

def shapeOf? : ConstructForm → List Tree → Run (Option Shape)
  | .returning => returning?
  | .call => call? limit
  | .access => access? limit
  | .chain => chain? limit
  | .lambda => lambda? limit
  | .dictionary => dictionary? limit
  | .operation => operation? limit
  | .assignment => assignment? limit

/-- Tries a span for several forms, one after the other. -/
def firstShape? (span : List Tree) : List ConstructForm → Run (Option Shape)
  | [] => .done none
  | form :: forms => do
    let shape ← shapeOf? limit form span
    match shape with
    | some shape => return some shape
    | none => firstShape? span forms

def shape? (span : List Tree) : Run (Option Shape) :=
  firstShape? limit span ConstructForm.inOrder

end

section

variable {limit : Option Nat} {span : List Tree} (h : Fits limit (bracketCount span))

include h

theorem hasArrow_eq : hasArrow limit span = .done (Offside.hasArrow span) := by
  rw [hasArrow, topIndex?_eq h]
  rfl

theorem canBeSubject_eq : canBeSubject limit span = .done (Offside.canBeSubject span) := by
  rw [canBeSubject, Offside.canBeSubject]
  cases span.isEmpty with
  | true => rfl
  | false =>
    rw [if_neg (by decide), topIndex?_eq h]
    rfl

theorem fits_left {left right : List Tree} (hs : span = left ++ right) :
    Fits limit (bracketCount left) :=
  h.mono (by rw [hs, bracketCount_append]; exact Nat.le_add_right _ _)

theorem parameters?_eq : parameters? limit span = .done (Offside.parameters? span) := by
  rw [parameters?, Offside.parameters?]
  cases hl : leaves span with
  | nil => rfl
  | cons first rest =>
    have hinner : Fits limit (bracketCount (rest.dropLast.map .token)) := by
      refine h.mono (bracketCount_le ?_)
      rw [leaves_map_token, hl]
      exact (List.dropLast_sublist rest).cons first
    cases rest with
    | nil => rfl
    | cons second rest =>
      dsimp only
      split
      next =>
        rw [split_eq hinner]
        rfl
      next => rfl

omit h in
theorem returning?_eq (span : List Tree) :
    returning? span = .done (Offside.returning? span) := by
  cases span with
  | nil => rfl
  | cons keyword value =>
    rw [returning?, Offside.returning?, List.head?_cons]
    dsimp only
    split
    next =>
      rw [Run.behind_first]
      rfl
    next => rfl

omit h in
/-- A call has something in front of its bracket. -/
theorem call?_eq_none (hshort : span.length < 4) : Offside.call? span = none := by
  rw [Offside.call?]
  split
  next closer arguments opener before hr =>
    have hlen := congrArg List.length hr
    simp only [List.length_reverse, List.length_cons] at hlen
    obtain rfl : before = [] := List.length_eq_zero_iff.mp (by omega)
    simp [Offside.canBeSubject]
  next => rfl

omit h in
theorem exists_last_three (hlong : ¬span.length < 4) :
    ∃ callee opener inside closer, span = callee ++ [opener, inside, closer] := by
  match hr : span.reverse with
  | closer :: inside :: opener :: before =>
    have hspan := congrArg List.reverse hr
    exact ⟨before.reverse, opener, inside, closer, by simpa using hspan⟩
  | [_, _] | [_] | [] =>
    have hlen := congrArg List.length hr
    simp only [List.length_reverse, List.length_cons, List.length_nil] at hlen
    omega

theorem call?_eq : call? limit span = .done (Offside.call? span) := by
  rw [call?]
  split
  next hshort => rw [call?_eq_none hshort]
  next hlong =>
    obtain ⟨callee, opener, inside, closer, hspan⟩ := exists_last_three hlong
    have harrow := hasArrow_eq h
    have hcallee := canBeSubject_eq (fits_left h hspan)
    subst hspan
    have hlen : (callee ++ [opener, inside, closer]).length = callee.length + 3 := by simp
    have hopener : Run.item (callee ++ [opener, inside, closer]) callee.length = .done opener :=
      Run.item_append _ _ _
    have hinside : Run.item (callee ++ [opener, inside, closer]) (callee.length + 1) =
        .done inside := by simp [Run.item]
    have hcloser : Run.item (callee ++ [opener, inside, closer]) (callee.length + 2) =
        .done closer := by simp [Run.item]
    have hreverse : (callee ++ [opener, inside, closer]).reverse =
        closer :: inside :: opener :: callee.reverse := by simp
    rw [Run.minus_eq (hlen.trans (by rfl)), Run.bind_done, hcloser, Run.bind_done,
      Run.minus_eq hlen, Run.bind_done, hopener, Run.bind_done, Offside.call?, hreverse]
    cases hk : closer.hasKind .closeParen && opener.hasKind .openParen with
    | false =>
      rw [if_neg (by decide)]
      cases inside with
      | token t => rfl
      | group arguments =>
        dsimp only
        rw [hk]
        rfl
    | true =>
      rw [if_pos rfl, Run.minus_eq (hlen.trans (by rfl)), Run.bind_done, hinside, Run.bind_done]
      cases inside with
      | token t => rfl
      | group arguments =>
        dsimp only
        rw [Run.before_append, Run.bind_done, harrow, Run.bind_done, hcallee, Run.bind_done, hk,
          List.reverse_reverse, Bool.true_and]
        rfl

theorem access?_eq : access? limit span = .done (Offside.access? span) := by
  rw [access?, openOfLast?_eq h, Run.bind_done, Offside.access?]
  cases ho : Offside.openOfLast? span with
  | none => rfl
  | some i =>
    obtain ⟨subject, opener, key, closer, hspan, rfl, -⟩ := openOfLast?_split ho
    have harrow := hasArrow_eq h
    have hsubject := canBeSubject_eq (fits_left h hspan)
    subst hspan
    simp only [Option.bind_eq_bind, Option.bind_some, List.drop_left, List.take_left,
      List.dropLast_concat]
    rw [Run.before_append, Run.bind_done, harrow, Run.bind_done, hsubject, Run.bind_done]
    split
    next =>
      have hlen : (subject ++ Tree.token opener :: (key ++ [Tree.token closer])).length =
          subject.length + 1 + key.length + 1 := by simp [Nat.add_assoc, Nat.add_comm 1]
      rw [Run.minus_eq hlen, Run.bind_done, Run.slice_behind_item, Run.bind_done, Run.item_append]
      rfl
    next => rfl

theorem chain?_eq : chain? limit span = .done (Offside.chain? span) := by
  rw [chain?, hasArrow_eq h, Run.bind_done, topIndex?_eq h, Run.bind_done, Offside.chain?]
  cases hi : Offside.topIndex? [.dot] span with
  | none =>
    rw [divide?_of_topIndex?_eq_none hi]
    rfl
  | some i =>
    obtain ⟨subject, dot, rest, hspan, rfl, hd⟩ := divide?_of_topIndex? hi
    have hsubject := canBeSubject_eq (fits_left h hspan)
    have hdot := List.mem_singleton.mp (kind_of_divide? hd)
    rw [hd]
    subst hspan
    simp only [Option.bind_eq_bind, Option.bind_some]
    rw [Run.before_append, Run.bind_done, hsubject, Run.bind_done]
    split
    next => rfl
    next =>
      rw [Run.behind_append, Run.bind_done, accessors?, if_pos hdot]
      cases accessors? rest with
      | none => rfl
      | some accessors => rfl

theorem lambda?_eq : lambda? limit span = .done (Offside.lambda? span) := by
  rw [lambda?, topIndex?_eq h, Run.bind_done, Offside.lambda?]
  cases hi : Offside.topIndex? [.arrow] span with
  | none =>
    rw [divide?_of_topIndex?_eq_none hi]
    rfl
  | some i =>
    obtain ⟨head, arrow, body, hspan, rfl, hd⟩ := divide?_of_topIndex? hi
    have hparameters := parameters?_eq (fits_left h hspan)
    rw [hd]
    subst hspan
    simp only [Option.bind_eq_bind, Option.bind_some]
    rw [Run.before_append, Run.bind_done, hparameters, Run.bind_done]
    cases Offside.parameters? head with
    | none => rfl
    | some parameters =>
      dsimp only
      rw [Run.behind_item, Run.bind_done, Run.item_append]
      rfl

theorem dictionary?_eq : dictionary? limit span = .done (Offside.dictionary? span) := by
  rw [dictionary?]
  match span with
  | [] => rfl
  | [tree] =>
    have hclose : Offside.closeOf? [tree] 0 = none := by
      cases tree with
      | group items => rfl
      | token t => cases hk : t.kind <;> simp [Offside.closeOf?, hk, Kind.closer?, closerIndex?]
    rw [if_pos (show [tree].length < 2 from Nat.lt_succ_self 1), Offside.dictionary?, hclose]
    simp
  | opener :: second :: rest =>
    have hlen : (opener :: second :: rest).length = (second :: rest).length + 1 := rfl
    have hitem : Run.item (opener :: second :: rest) 0 = .done opener := rfl
    obtain ⟨entries, closer, hrest⟩ : ∃ entries closer, second :: rest = entries ++ [closer] :=
      ⟨_, _, (List.dropLast_concat_getLast (List.cons_ne_nil second rest)).symm⟩
    rw [if_neg (by simp), hitem, Run.bind_done, closeOf?_eq h, Run.minus_eq hlen,
      Offside.dictionary?]
    generalize Offside.closeOf? (opener :: second :: rest) 0 = found
    rw [hrest, List.dropLast_concat]
    cases hopener : opener.hasKind .openCurly with
    | false => rfl
    | true =>
      rw [if_pos rfl, Run.bind_done, Run.bind_done, Bool.true_and]
      split
      next =>
        rw [List.length_append, List.length_singleton, Run.slice_behind_first]
        rfl
      next => rfl

theorem firstOf?_eq {kind other : Kind} (hne : kind ≠ other)
    (hkinds : [kind, other].Perm [.operator, .assignment]) :
    firstOf? limit kind other span =
      .done ((divide? [.operator, .assignment] span).bind fun (left, t, _) =>
        if t.kind = kind then some left.length else none) := by
  have hs : [kind] ⊆ [.operator, .assignment] :=
    fun k hk => hkinds.subset (List.mem_cons.mpr (.inl (List.mem_singleton.mp hk)))
  have hs' : [other] ⊆ [.operator, .assignment] :=
    fun k hk => hkinds.subset (List.mem_cons_of_mem _ hk)
  rw [firstOf?, topIndex?_eq h, Run.bind_done, topIndex?_eq h]
  cases hd : divide? [.operator, .assignment] span with
  | none =>
    rw [topIndex?_eq_none_iff.mpr ((divide?_eq_none_iff.mp hd).of_subset hs)]
    rfl
  | some parts =>
    obtain ⟨left, t, right⟩ := parts
    simp only [Option.bind_some]
    by_cases hk : t.kind = kind
    · rw [topIndex?_of_divide? hs (List.mem_singleton.mpr hk) hd, if_pos hk]
      dsimp only
      rw [Run.bind_done, any_lt_of_divide? hs' (by rw [hk, List.mem_singleton]; exact hne) hd]
      rfl
    · have hother : t.kind ∈ [other] := by
        have hmem := hkinds.symm.subset (kind_of_divide? hd)
        exact (List.mem_cons.mp hmem).resolve_left hk
      rw [topIndex?_of_divide? hs' hother hd, if_neg hk]
      cases hi : Offside.topIndex? [kind] span with
      | none => rfl
      | some i =>
        have hlt := lt_of_divide? hs (by rwa [List.mem_singleton]) hd hi
        dsimp only
        rw [Run.bind_done, Option.any_some, decide_eq_true hlt]
        rfl

theorem operation?_eq : operation? limit span = .done (Offside.operation? span) := by
  rw [operation?, firstOf?_eq h (by decide) (by decide), Run.bind_done, Offside.operation?]
  cases divide? [.operator, .assignment] span with
  | none => rfl
  | some parts =>
    obtain ⟨left, t, right⟩ := parts
    simp only [Option.bind_eq_bind, Option.bind_some]
    split
    next => rfl
    next => rfl

theorem assignment?_eq : assignment? limit span = .done (Offside.assignment? span) := by
  rw [assignment?, firstOf?_eq h (by decide) (by decide), Run.bind_done, Offside.assignment?]
  cases hd : divide? [.operator, .assignment] span with
  | none => rfl
  | some parts =>
    obtain ⟨left, t, right⟩ := parts
    obtain rfl := eq_of_divide? hd
    simp only [Option.bind_eq_bind, Option.bind_some]
    by_cases hk : t.kind = .assignment
    · rw [if_pos hk, if_pos hk]
      dsimp only
      rw [Run.item_append, Run.bind_done]
      dsimp only
      rw [Run.before_append, Run.bind_done, Run.behind_item]
      rfl
    · rw [if_neg hk, if_neg hk]
      rfl

theorem shapeOf?_eq (form : ConstructForm) :
    shapeOf? limit form span = .done (form.shape? span) := by
  cases form with
  | returning => exact returning?_eq span
  | call => exact call?_eq h
  | access => exact access?_eq h
  | chain => exact chain?_eq h
  | lambda => exact lambda?_eq h
  | dictionary => exact dictionary?_eq h
  | operation => exact operation?_eq h
  | assignment => exact assignment?_eq h

theorem firstShape?_eq (forms : List ConstructForm) :
    firstShape? limit span forms = .done (forms.findSome? (·.shape? span)) := by
  induction forms with
  | nil => rfl
  | cons form forms ih =>
    rw [firstShape?, shapeOf?_eq h, Run.bind_done, List.findSome?_cons]
    cases form.shape? span with
    | some shape => rfl
    | none => exact ih

theorem shape?_eq : shape? limit span = .done (Offside.shape? span) :=
  firstShape?_eq h ConstructForm.inOrder

end

end Stepwise

end Offside
