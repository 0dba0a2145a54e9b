import Offside.Proofs.Division
import Offside.Proofs.Pairing
import Offside.Proofs.Runs

namespace Offside

def Kind.isBracket (kind : Kind) : Bool :=
  [openParen, openBracket, openCurly, closeParen, closeBracket, closeCurly].contains kind

/-- The number of brackets in a span, whatever their depth. -/
def bracketCount (span : List Tree) : Nat :=
  (leaves span).countP (·.kind.isBracket)

theorem bracketCount_append (xs ys : List Tree) :
    bracketCount (xs ++ ys) = bracketCount xs + bracketCount ys := by
  rw [bracketCount, leaves_append, List.countP_append]
  rfl

theorem bracketCount_cons (tree : Tree) (span : List Tree) :
    bracketCount (tree :: span) = bracketCount [tree] + bracketCount span :=
  bracketCount_append [tree] span

theorem bracketCount_reverse (span : List Tree) :
    bracketCount span.reverse = bracketCount span := by
  induction span with
  | nil => rfl
  | cons tree span ih =>
    rw [List.reverse_cons, bracketCount_append, ih, bracketCount_cons tree span, Nat.add_comm]

theorem bracketCount_le {xs ys : List Tree} (h : (leaves xs).Sublist (leaves ys)) :
    bracketCount xs ≤ bracketCount ys :=
  h.countP_le

theorem bracketCount_token {kind : Kind} {tree : Tree} (hb : kind.isBracket = true)
    (h : tree.hasKind kind = true) : bracketCount [tree] = 1 := by
  cases tree with
  | group items => cases h
  | token t =>
    have hk : t.kind = kind := eq_of_beq h
    show [t].countP (·.kind.isBracket) = 1
    rw [List.countP_cons_of_pos (by rw [hk]; exact hb), List.countP_nil]

/-- Whether counters that have a limit, if any, reach so far. -/
def Fits (limit : Option Nat) (n : Nat) : Prop :=
  ∀ m ∈ limit, n ≤ m

theorem Fits.mono {limit : Option Nat} {m n : Nat} (h : Fits limit n) (hle : m ≤ n) :
    Fits limit m :=
  fun k hk => Nat.le_trans hle (h k hk)

theorem fits_none (n : Nat) : Fits none n :=
  fun m hm => by cases hm

/-- Whether no count is further than `n` away from zero. -/
def Depth.IsWithin (n : Nat) (depth : Depth) : Prop :=
  depth.parens.natAbs ≤ n ∧ depth.brackets.natAbs ≤ n ∧ depth.braces.natAbs ≤ n

theorem isWithin_top : Depth.top.IsWithin 0 :=
  ⟨Nat.le_refl _, Nat.le_refl _, Nat.le_refl _⟩

theorem Depth.IsWithin.mono {m n : Nat} {depth : Depth} (h : depth.IsWithin m) (hle : m ≤ n) :
    depth.IsWithin n :=
  ⟨h.1.trans hle, h.2.1.trans hle, h.2.2.trans hle⟩

theorem Depth.IsWithin.after {n : Nat} {depth : Depth} (h : depth.IsWithin n) (tree : Tree) :
    (depth.after tree).IsWithin (n + bracketCount [tree]) := by
  cases tree with
  | group items => exact h.mono (Nat.le_add_right _ _)
  | token t =>
    have hone : t.kind.isBracket = true → bracketCount [.token t] = 1 :=
      fun hb => bracketCount_token hb (beq_self_eq_true _)
    have hkept := h.mono (Nat.le_add_right n (bracketCount [.token t]))
    obtain ⟨hp, hs, hc⟩ := h
    rw [Depth.after]
    split
    case h_7 => exact hkept
    all_goals
      rename_i hk
      have hstep := hone (by rw [hk]; rfl)
      exact ⟨by dsimp only; omega, by dsimp only; omega, by dsimp only; omega⟩

namespace Stepwise

variable (limit : Option Nat)

/-- Counters reach as far down as they reach up, and one further. -/
def holds (n : Int) : Bool :=
  limit.all fun m => -(m : Int) - 1 ≤ n && n ≤ m

def count (n : Int) : Run Int :=
  if holds limit n then .done n else .broken

/-- Counts an item. -/
def track (depth : Depth) (tree : Tree) : Run Depth := do
  let after := depth.after tree
  let parens ← count limit after.parens
  let brackets ← count limit after.brackets
  let braces ← count limit after.braces
  return ⟨parens, brackets, braces⟩

/-- Looks for a separator from an index on. -/
def topIndexFrom (kinds : List Kind) : Depth → Nat → List Tree → Run (Option Nat)
  | _, _, [] => .done none
  | depth, i, tree :: span => do
    let after ← track limit depth tree
    if (separator? kinds (tree, after)).isSome then return some i
    else topIndexFrom kinds after (i + 1) span

def topIndex? (kinds : List Kind) (span : List Tree) : Run (Option Nat) :=
  topIndexFrom limit kinds .top 0 span

/-- Cuts a span while `part` collects what stands after the last separator. -/
def splitFrom (kinds : List Kind) (keep : Bool) :
    Depth → List Tree → List Tree → Run (List (List Tree))
  | _, part, [] => .done [part]
  | depth, part, tree :: span => do
    let after ← track limit depth tree
    if (separator? kinds (tree, after)).isSome then
      let parts ← splitFrom kinds keep after (if keep then [tree] else []) span
      return part :: parts
    else splitFrom kinds keep after (part ++ [tree]) span

def split (kinds : List Kind) (keep : Bool) (span : List Tree) : Run (List (List Tree)) :=
  if span.isEmpty then .done [] else splitFrom limit kinds keep .top [] span

/-- Looks from an index on for the bracket that brings the count of open ones back to zero. -/
def closingFrom (opening closing : Kind) : Int → Nat → List Tree → Run (Option Nat)
  | _, _, [] => .done none
  | depth, i, tree :: span =>
    if tree.hasKind opening then do
      let deeper ← count limit (depth + 1)
      closingFrom opening closing deeper (i + 1) span
    else if tree.hasKind closing then do
      let shallower ← count limit (depth - 1)
      if shallower = 0 then return some i else closingFrom opening closing shallower (i + 1) span
    else closingFrom opening closing depth (i + 1) span

def closeOf? (span : List Tree) (i : Nat) : Run (Option Nat) :=
  match span[i]? with
  | some (.token t) =>
    match t.kind.closer? with
    | some closing => closingFrom limit t.kind closing 0 i (span.drop i)
    | none => .done none
  | _ => .done none

def openOfLast? (span : List Tree) : Run (Option Nat) :=
  match span.getLast? with
  | none => .done none
  | some last =>
    if last.hasKind .closeBracket then do
      let found ← closingFrom limit .closeBracket .openBracket 0 0 span.reverse
      return found.map (span.length - 1 - ·)
    else .done none

section

variable {limit : Option Nat} {span : List Tree} {depth : Depth} {n : Nat} {kinds : List Kind}

/-- A counter does not run over as long as it stays close enough to zero. -/
theorem count_eq {m : Int} (h : Fits limit m.natAbs) : count limit m = .done m := by
  refine if_pos ?_
  cases limit with
  | none => rfl
  | some k =>
    have hk := h k rfl
    simp [holds]
    omega

theorem track_eq {tree : Tree} (hd : depth.IsWithin n) (h : Fits limit (n + bracketCount [tree])) :
    track limit depth tree = .done (depth.after tree) := by
  obtain ⟨hp, hb, hc⟩ := hd.after tree
  rw [track, count_eq (h.mono hp), Run.bind_done, count_eq (h.mono hb), Run.bind_done,
    count_eq (h.mono hc)]
  rfl

theorem topIndexFrom_eq {i : Nat} (hd : depth.IsWithin n)
    (h : Fits limit (n + bracketCount span)) :
    topIndexFrom limit kinds depth i span =
      .done (((depths depth span).findIdx? fun item => (separator? kinds item).isSome).map
        (· + i)) := by
  induction span generalizing depth n i with
  | nil => rfl
  | cons tree span ih =>
    rw [bracketCount_cons, ← Nat.add_assoc] at h
    rw [topIndexFrom, track_eq hd (h.mono (Nat.le_add_right _ _)), Run.bind_done, depths,
      List.findIdx?_cons]
    cases hs : separator? kinds (tree, depth.after tree) with
    | some t => simp [pure]
    | none =>
      rw [ih (hd.after tree) h]
      simp [Function.comp_def, Nat.add_assoc, Nat.add_comm 1]

theorem topIndex?_eq (h : Fits limit (bracketCount span)) :
    topIndex? limit kinds span = .done (Offside.topIndex? kinds span) := by
  rw [topIndex?, topIndexFrom_eq isWithin_top (by rwa [Nat.zero_add])]
  simp [Offside.topIndex?]

-- A counter that holds one bracket runs over at the second.
example :
    let opener : Tree := .token ⟨.openParen, "(", default⟩
    topIndex? (some 1) [.comma] [opener, opener] = .broken :=
  rfl

theorem splitFrom_eq {keep : Bool} {part : List Tree} (hd : depth.IsWithin n)
    (h : Fits limit (n + bracketCount span)) :
    splitFrom limit kinds keep depth part span =
      .done ((part ++ (sections (separator? kinds) (depths depth span)).1.map Prod.fst) ::
        (sections (separator? kinds) (depths depth span)).2.map fun (t, items) =>
          if keep then .token t :: items.map Prod.fst else items.map Prod.fst) := by
  induction span generalizing depth n part with
  | nil => simp [splitFrom, depths, sections]
  | cons tree span ih =>
    rw [bracketCount_cons, ← Nat.add_assoc] at h
    rw [splitFrom, track_eq hd (h.mono (Nat.le_add_right _ _)), Run.bind_done, depths, sections]
    cases hs : separator? kinds (tree, depth.after tree) with
    | some t =>
      have htree : tree = .token t := token_of_separator? hs
      rw [if_pos (by rfl), ih (hd.after tree) h, Run.bind_done]
      cases keep <;> simp [pure, htree]
    | none =>
      rw [if_neg (by simp), ih (hd.after tree) h]
      simp

theorem split_eq {keep : Bool} (h : Fits limit (bracketCount span)) :
    split limit kinds keep span = .done (Offside.split kinds keep span) := by
  rw [split, Offside.split]
  split
  next => rfl
  next =>
    rw [splitFrom_eq isWithin_top (by rwa [Nat.zero_add])]
    simp [cut, Function.comp_def]

theorem closingFrom_eq {opening closing : Kind} {inner i : Nat} (hb : opening.isBracket = true)
    (h : Fits limit (inner + 1 + bracketCount span)) :
    closingFrom limit opening closing ((inner + 1 : Nat) : Int) i span =
      .done ((closerIndex? opening closing inner span).map (· + i)) := by
  have shift : ∀ (found : Option Nat) (i : Nat),
      (found.map (· + 1)).map (· + i) = found.map (· + (i + 1)) := by
    intro found i
    simp [Function.comp_def, Nat.add_assoc, Nat.add_comm 1]
  induction span generalizing inner i with
  | nil => rfl
  | cons tree span ih =>
    rw [bracketCount_cons] at h
    rw [closingFrom, closerIndex?_cons]
    split
    next ho =>
      have hone := bracketCount_token hb ho
      rw [hone] at h
      have hdeeper : ((inner + 1 : Nat) : Int) + 1 = ((inner + 1 + 1 : Nat) : Int) := rfl
      rw [hdeeper, count_eq (h.mono (by omega)), Run.bind_done, ih (h.mono (by omega)), shift]
    next =>
      split
      next hc =>
        have hshallower : ((inner + 1 : Nat) : Int) - 1 = (inner : Int) := by omega
        rw [hshallower, count_eq (h.mono (by omega)), Run.bind_done]
        cases inner with
        | zero => simp [pure]
        | succ inner =>
          rw [if_neg (by omega), ih (h.mono (by omega)), if_neg (Nat.succ_ne_zero inner),
            Nat.add_sub_cancel, shift]
      next => rw [ih (h.mono (by omega)), shift]

/-- The search for the bracket that closes the first item. -/
theorem closingFrom_opener {opening closing : Kind} {opener : Tree} {i : Nat}
    (hb : opening.isBracket = true) (ho : opener.hasKind opening = true)
    (h : Fits limit (bracketCount (opener :: span))) :
    closingFrom limit opening closing 0 i (opener :: span) =
      .done ((closerIndex? opening closing 0 span).map (· + (i + 1))) := by
  rw [bracketCount_cons, bracketCount_token hb ho] at h
  rw [closingFrom, if_pos ho, Int.zero_add, count_eq (h.mono (Nat.le_add_right _ _)),
    Run.bind_done]
  exact closingFrom_eq hb h

theorem closeOf?_eq {i : Nat} (h : Fits limit (bracketCount span)) :
    closeOf? limit span i = .done (Offside.closeOf? span i) := by
  rw [closeOf?, Offside.closeOf?, ← List.head?_drop]
  cases hs : span.drop i with
  | nil => rfl
  | cons tree rest =>
    cases tree with
    | group items => rfl
    | token t =>
      dsimp only [List.head?_cons]
      cases hc : t.kind.closer? with
      | none => rfl
      | some closing =>
        have hb : t.kind.isBracket = true := by
          cases hk : t.kind <;> first | rfl | (rw [hk] at hc; cases hc)
        have hle : bracketCount (.token t :: rest) ≤ bracketCount span := by
          rw [← hs]
          exact bracketCount_le (leaves_sublist (List.drop_sublist _ _))
        dsimp only
        rw [closingFrom_opener hb (beq_self_eq_true _) (h.mono hle)]
        simp only [Option.bind_eq_bind, Option.bind_some]
        cases closerIndex? t.kind closing 0 rest with
        | none => rfl
        | some n => simp [Nat.add_comm]

theorem openOfLast?_eq (h : Fits limit (bracketCount span)) :
    openOfLast? limit span = .done (Offside.openOfLast? span) := by
  rw [openOfLast?, Offside.openOfLast?, List.getLast?_eq_head?_reverse]
  have hsize : span.length = span.reverse.length := (List.length_reverse).symm
  cases hs : span.reverse with
  | nil => rfl
  | cons last rest =>
    dsimp only [List.head?_cons]
    split
    next hlast =>
      have hcount : bracketCount (last :: rest) = bracketCount span := by
        rw [← hs, bracketCount_reverse]
      rw [closingFrom_opener rfl hlast (h.mono hcount.le), Run.bind_done]
      rw [hs, List.length_cons] at hsize
      simp only [pure, Option.map_map, hsize]
      refine congrArg (fun f => Run.done (Option.map f _)) (funext fun j => ?_)
      show rest.length + 1 - 1 - (j + (0 + 1)) = rest.length - 1 - j
      omega
    next => rfl

end

end Stepwise

end Offside
