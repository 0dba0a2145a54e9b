import Offside.Proofs.CountedBrackets

namespace Offside

namespace Stepwise

section

variable (limit : Option Nat)

/-- Regroups a span from an index on. While parentheses are open, `group` collects what stands
from the first of them on, and the bracket is taken off it at the end. -/
def regroupFrom (span : List Tree) (i : Nat) (depth : Int) (group : List Tree) :
    List Tree → Run (List Tree)
  | [] =>
    match group with
    | [] => .done []
    | opener :: part =>
      if part.isEmpty then .done [opener]
      else do
        let inside ← regroupFrom part 0 0 [] part
        return [opener, .group inside]
  | tree :: rest =>
    if depth = 0 ∧ tree.opensBlock then Run.behind span i
    else if tree.hasKind .openParen then do
      let deeper ← count limit (depth + 1)
      regroupFrom span (i + 1) deeper (group ++ [tree]) rest
    else if tree.hasKind .closeParen ∧ 0 < depth then do
      let shallower ← count limit (depth - 1)
      if shallower = 0 then
        match group with
        | [] => .broken
        | opener :: part => do
          let inside ← regroupFrom part 0 0 [] part
          let after ← regroupFrom span (i + 1) shallower [] rest
          return opener :: .group inside :: tree :: after
      else regroupFrom span (i + 1) shallower (group ++ [tree]) rest
    else if 0 < depth then regroupFrom span (i + 1) depth (group ++ [tree]) rest
    else do
      let after ← regroupFrom span (i + 1) depth group rest
      return tree :: after
termination_by rest => (group.length + rest.length, rest.length)
decreasing_by
  all_goals
    simp_wf
    rw [Prod.lex_def]
    omega

def regroup (span : List Tree) : Run (List Tree) :=
  regroupFrom limit span 0 0 [] span

/-- Spreads a span from an index on. -/
def spreadFrom (span : List Tree) (i : Nat) : List Tree → Run (List Tree × Bool)
  | [] => .done ([], false)
  | .token t :: rest =>
    if t.kind = .newline then spreadFrom span (i + 1) rest
    else if (BlockForm.introducedBy? t).isSome then do
      let kept ← Run.behind span i
      return (kept, true)
    else do
      let (after, met) ← spreadFrom span (i + 1) rest
      return (.token t :: after, met)
  | .group items :: rest => do
    let (inside, met) ← spreadFrom items 0 items
    if met then
      let kept ← Run.behind span (i + 1)
      return (inside ++ kept, true)
    else
      let (after, met) ← spreadFrom span (i + 1) rest
      return (inside ++ after, met)
termination_by rest => sizeOf rest
decreasing_by
  all_goals
    simp only [List.cons.sizeOf_spec, Tree.group.sizeOf_spec]
    omega

def spread (span : List Tree) : Run (List Tree × Bool) :=
  spreadFrom span 0 span

end

section

variable {limit : Option Nat}

theorem spreadFrom_eq (left span : List Tree) :
    spreadFrom (left ++ span) left.length span = .done (Offside.spread span) := by
  match span with
  | [] => rw [spreadFrom, Offside.spread]
  | .token t :: rest =>
    have ih := spreadFrom_eq (left ++ [.token t]) rest
    rw [← List.append_cons, List.length_append, List.length_singleton] at ih
    rw [spreadFrom, Offside.spread, Tree.spread]
    split
    next => rw [ih]; rfl
    next =>
      cases hb : (BlockForm.introducedBy? t).isSome with
      | true => rw [if_pos rfl, Run.behind_append]; rfl
      | false => rw [if_neg (by decide), ih]; rfl
  | .group items :: rest =>
    have inside := spreadFrom_eq [] items
    have ih := spreadFrom_eq (left ++ [.group items]) rest
    rw [← List.append_cons, List.length_append, List.length_singleton] at ih
    rw [List.nil_append, List.length_nil] at inside
    rw [spreadFrom, inside, Run.bind_done, Offside.spread, Tree.spread]
    cases Offside.spread items with
    | mk spreadItems met =>
      cases met with
      | true =>
        dsimp only
        rw [if_pos rfl, Run.behind_item]
        rfl
      | false =>
        dsimp only
        rw [if_neg (by decide), ih]
        rfl

theorem spread_eq (span : List Tree) : spread span = .done (Offside.spread span) :=
  spreadFrom_eq [] span

/-- What regrouping makes of an open parenthesis with `part` behind it and of the rest, when as
many parentheses as `inner` have to be closed first. -/
def regrouped (inner : Nat) (opener : Tree) (part rest : List Tree) : List Tree :=
  match closerIndex? .openParen .closeParen inner rest with
  | some n =>
    opener :: .group (Offside.regroup (part ++ rest.take n)) :: Offside.regroup (rest.drop n)
  | none =>
    if (part ++ rest).isEmpty then [opener] else [opener, .group (Offside.regroup (part ++ rest))]

theorem opensBlock_of_hasKind {kind : Kind} {tree : Tree} (hk : kind ≠ .keyword)
    (h : tree.hasKind kind = true) : tree.opensBlock = false := by
  obtain ⟨t, rfl, rfl⟩ := token_of_hasKind h
  rw [Tree.opensBlock, Tree.block?, BlockForm.introducedBy?, if_neg hk]
  rfl

theorem regroup_opener {opener : Tree} {rest : List Tree} (ho : opener.hasKind .openParen = true) :
    Offside.regroup (opener :: rest) = regrouped 0 opener [] rest := by
  have hb := opensBlock_of_hasKind (by decide) ho
  rw [Offside.regroup, if_neg (by rw [hb]; decide), if_pos ho]
  rfl

/-- An item that closes nothing goes into the group. -/
theorem regrouped_cons {inner next : Nat} {opener tree : Tree} {part rest : List Tree}
    (h : closerIndex? .openParen .closeParen inner (tree :: rest) =
      (closerIndex? .openParen .closeParen next rest).map (· + 1)) :
    regrouped inner opener part (tree :: rest) = regrouped next opener (part ++ [tree]) rest := by
  rw [regrouped, regrouped, h]
  cases closerIndex? .openParen .closeParen next rest with
  | none => simp
  | some n => simp

/-- The item that closes the parenthesis comes behind the group. -/
theorem regrouped_closer {opener closer : Tree} {part rest : List Tree}
    (hc : closer.hasKind .closeParen = true) :
    regrouped 0 opener part (closer :: rest) =
      opener :: .group (Offside.regroup part) :: closer :: Offside.regroup rest := by
  obtain ⟨t, rfl, hk⟩ := token_of_hasKind hc
  have ho : Tree.hasKind .openParen (.token t) = false := by simp [Tree.hasKind, hk]
  have hb := opensBlock_of_hasKind (by decide) hc
  rw [regrouped, closerIndex?_cons, if_neg (by rw [ho]; decide), if_pos hc, if_pos rfl]
  dsimp only
  rw [List.take_zero, List.append_nil, List.drop_zero, Offside.regroup,
    if_neg (by rw [hb]; decide), if_neg (by rw [ho]; decide)]

mutual

theorem regroupFrom_top (left span : List Tree) (h : Fits limit (bracketCount span)) :
    regroupFrom limit (left ++ span) left.length 0 [] span = .done (Offside.regroup span) := by
  match span with
  | [] => rw [regroupFrom, Offside.regroup]
  | tree :: rest =>
    have hlen : left.length + 1 = (left ++ [tree]).length := by simp
    cases hb : tree.opensBlock with
    | true => rw [regroupFrom, if_pos ⟨rfl, hb⟩, Run.behind_append, Offside.regroup, if_pos hb]
    | false =>
      rw [regroupFrom, if_neg (by simp [hb]), List.append_cons, hlen]
      cases ho : tree.hasKind .openParen with
      | true =>
        have hone := bracketCount_token rfl ho
        rw [if_pos rfl, Int.zero_add, count_eq (h.mono (by rw [bracketCount_cons, hone]; simp)),
          Run.bind_done, regroup_opener ho]
        exact regroupFrom_open (left ++ [tree]) rest 0 tree [] hone.ge h
      | false =>
        have hrest := h.mono (bracketCount_le (leaves_sublist (List.sublist_cons_self tree rest)))
        rw [if_neg (by decide), if_neg (by simp), if_neg (by decide),
          regroupFrom_top (left ++ [tree]) rest hrest, Offside.regroup, if_neg (by rw [hb]; decide),
          if_neg (by rw [ho]; decide)]
        rfl
termination_by (span.length, span.length)
decreasing_by
  all_goals
    simp only [Prod.lex_def, List.length_cons, List.length_nil]
    omega

-- The group holds a bracket for each parenthesis that is open, so the counter never goes beyond the
-- number of brackets.
theorem regroupFrom_open (left span : List Tree) (inner : Nat) (opener : Tree) (part : List Tree)
    (hle : inner + 1 ≤ bracketCount (opener :: part))
    (h : Fits limit (bracketCount (opener :: part ++ span))) :
    regroupFrom limit (left ++ span) left.length ((inner + 1 : Nat) : Int) (opener :: part) span =
      .done (regrouped inner opener part span) := by
  match span with
  | [] =>
    have hpart : Fits limit (bracketCount part) := by
      rw [List.append_nil] at h
      exact h.mono (bracketCount_le (leaves_sublist (List.sublist_cons_self opener part)))
    rw [regroupFrom, regrouped, closerIndex?, List.append_nil]
    dsimp only
    split
    next => rfl
    next =>
      have inside := regroupFrom_top [] part hpart
      rw [List.nil_append, List.length_nil] at inside
      rw [inside]
      rfl
  | tree :: rest =>
    have hlen : left.length + 1 = (left ++ [tree]).length := by simp
    have hcount : bracketCount (opener :: part ++ tree :: rest) =
        bracketCount (opener :: part) + (bracketCount [tree] + bracketCount rest) := by
      rw [bracketCount_append, bracketCount_cons tree]
    have hassoc : opener :: part ++ tree :: rest = opener :: (part ++ [tree]) ++ rest := by simp
    have hpushed : bracketCount (opener :: (part ++ [tree])) =
        bracketCount (opener :: part) + bracketCount [tree] :=
      bracketCount_append (opener :: part) _
    rw [regroupFrom, if_neg (by omega), List.append_cons, hlen, List.cons_append]
    cases ho : tree.hasKind .openParen with
    | true =>
      have hone := bracketCount_token rfl ho
      have hdeeper : ((inner + 1 : Nat) : Int) + 1 = ((inner + 1 + 1 : Nat) : Int) := rfl
      rw [if_pos rfl, hdeeper, count_eq (h.mono (by omega)), Run.bind_done,
        regroupFrom_open (left ++ [tree]) rest (inner + 1) opener (part ++ [tree])
          (by omega) (hassoc ▸ h)]
      rw [@regrouped_cons inner (inner + 1) _ _ _ _ (by rw [closerIndex?_cons, if_pos ho])]
    | false =>
      rw [if_neg (by decide)]
      cases hc : tree.hasKind .closeParen with
      | true =>
        have hshallower : ((inner + 1 : Nat) : Int) - 1 = (inner : Int) := by omega
        rw [if_pos ⟨rfl, by omega⟩, hshallower, count_eq (h.mono (by omega)), Run.bind_done]
        cases inner with
        | zero =>
          have inside := regroupFrom_top [] part (h.mono (by
            rw [hcount, bracketCount_cons opener]
            omega))
          have after := regroupFrom_top (left ++ [tree]) rest (h.mono (by omega))
          rw [List.nil_append, List.length_nil] at inside
          rw [Int.natCast_zero, if_pos rfl]
          dsimp only
          rw [inside, Run.bind_done, after, regrouped_closer hc]
          rfl
        | succ inner =>
          rw [if_neg (by omega), regroupFrom_open (left ++ [tree]) rest inner opener
            (part ++ [tree]) (by omega) (hassoc ▸ h)]
          rw [@regrouped_cons (inner + 1) inner _ _ _ _ (by
            rw [closerIndex?_cons, if_neg (by rw [ho]; decide), if_pos hc,
              if_neg (Nat.succ_ne_zero inner), Nat.add_sub_cancel])]
      | false =>
        rw [if_neg (by simp), if_pos (by omega), regroupFrom_open (left ++ [tree]) rest inner opener
          (part ++ [tree]) (by omega) (hassoc ▸ h)]
        rw [@regrouped_cons inner inner _ _ _ _ (by
          rw [closerIndex?_cons, if_neg (by rw [ho]; decide), if_neg (by rw [hc]; decide)])]
termination_by (1 + part.length + span.length, span.length)
decreasing_by
  all_goals
    simp only [Prod.lex_def, List.length_append, List.length_cons, List.length_nil]
    omega

end

theorem regroup_eq {span : List Tree} (h : Fits limit (bracketCount span)) :
    regroup limit span = .done (Offside.regroup span) :=
  regroupFrom_top [] span h

end

end Stepwise

end Offside
