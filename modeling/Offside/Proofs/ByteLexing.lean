import Offside.Proofs.Runs
import Offside.Proofs.TokenStarts

namespace Offside

namespace Run

/-- The text from a byte offset on, which is not inside a character. -/
def bytesBehind : Nat → List Char → Run (List Char)
  | 0, text => done text
  | _ + 1, [] => broken
  | offset + 1, c :: text =>
    if c.utf8Size ≤ offset + 1 then bytesBehind (offset + 1 - c.utf8Size) text else broken

/-- The text up to a byte offset, which is not inside a character. -/
def bytesBefore : Nat → List Char → Run (List Char)
  | 0, _ => done []
  | _ + 1, [] => broken
  | offset + 1, c :: text =>
    if c.utf8Size ≤ offset + 1 then do
      let rest ← bytesBefore (offset + 1 - c.utf8Size) text
      return c :: rest
    else broken

def byteSlice (text : List Char) (start stop : Nat) : Run (List Char) := do
  let size ← minus stop start
  let rest ← bytesBehind start text
  bytesBefore size rest

section

variable {α β : Type} (c : Char) (left inside right text : List Char)

theorem bytesBehind_cons (size : Nat) :
    bytesBehind (c.utf8Size + size) (c :: text) = bytesBehind size text := by
  obtain ⟨n, hn⟩ := Nat.exists_eq_succ_of_ne_zero c.utf8Size_pos.ne'
  have hs : c.utf8Size + size = (n + size) + 1 := by omega
  rw [hs, bytesBehind, if_pos (by omega), ← hs, Nat.add_sub_cancel_left]

theorem bytesBefore_cons (size : Nat) :
    bytesBefore (c.utf8Size + size) (c :: text) =
      bytesBefore size text >>= fun rest => done (c :: rest) := by
  obtain ⟨n, hn⟩ := Nat.exists_eq_succ_of_ne_zero c.utf8Size_pos.ne'
  have hs : c.utf8Size + size = (n + size) + 1 := by omega
  rw [hs, bytesBefore, if_pos (by omega), ← hs, Nat.add_sub_cancel_left]
  rfl

theorem bytesBehind_append : bytesBehind (byteLength left) (left ++ right) = done right := by
  induction left with
  | nil =>
    rw [List.nil_append]
    cases right <;> rfl
  | cons c left ih => rw [byteLength_cons, List.cons_append, bytesBehind_cons, ih]

theorem bytesBefore_append : bytesBefore (byteLength left) (left ++ right) = done left := by
  induction left with
  | nil =>
    rw [List.nil_append]
    cases right <;> rfl
  | cons c left ih => rw [byteLength_cons, List.cons_append, bytesBefore_cons, ih, bind_done]

theorem byteSlice_append :
    byteSlice (left ++ (inside ++ right)) (byteLength left) (byteLength left + byteLength inside) =
      done inside := by
  rw [byteSlice, minus_eq (Nat.add_comm _ _), bind_done, bytesBehind_append, bind_done,
    bytesBefore_append]

theorem ofOutcome_bind (outcome : Outcome α) (f : α → Outcome β) :
    ofOutcome (outcome >>= f) = ofOutcome outcome >>= fun result => ofOutcome (f result) := by
  cases outcome with
  | ok result => rfl
  | error diagnostic => rfl

end

end Run

namespace Stepwise

/-- Cuts longest matching pieces off a source from a byte offset on. -/
def classicFrom (source : Source) (offset : Nat) : Run (List Token) :=
  if _ : byteLength source.text.toList ≤ offset then .done []
  else do
    let rest ← Run.bytesBehind offset source.text.toList
    match rest with
    | [] => .refused ⟨.unexpectedToken "", .within source offset⟩
    | c :: text =>
      match longestTail? c text with
      | none => .refused ⟨.unexpectedToken (String.singleton c), .within source offset⟩
      | some n =>
        let stop := offset + byteLength (c :: text.take n)
        let piece ← Run.byteSlice source.text.toList offset stop
        let tokens ← classicFrom source stop
        match preferredKind? (c :: text.take n) with
        | some kind =>
          return ⟨kind, String.ofList piece, ⟨.within source offset, .within source stop⟩⟩ :: tokens
        | none => return tokens
termination_by byteLength source.text.toList - offset
decreasing_by
  have hc := c.utf8Size_pos
  rw [byteLength_cons]
  omega

def tokensOf (strategy : Strategy) (source : Source) : Run (List Token) :=
  match strategy with
  | .fast => .done (fastTokens source)
  | .classic => do
    let tokens ← classicFrom source 0
    return dropComments tokens

def indentFrom (unit? : Option String) (fresh : Bool) : List Token → Run (List Token)
  | [] => .done []
  | token :: tokens =>
    match token.kind with
    | .whitespace =>
      if fresh && !endsLine tokens then do
        let unit := unit?.getD token.text
        let width := token.text.length
        let excess ← Run.remainder width unit.length
        if excess = 0 then
          let count ← Run.quotient width unit.length
          let rest ← indentFrom (some unit) fresh tokens
          return ⟨.whitespace, repeatText count unit, token.span⟩ :: rest
        else .refused ⟨.inconsistentIndentation width unit.length, token.span.start⟩
      else indentFrom unit? fresh tokens
    | .newline => do
      let rest ← indentFrom unit? true tokens
      return Token.lineBreak token.span :: rest
    | _ => do
      let rest ← indentFrom unit? false tokens
      return token :: rest

def indent (tokens : List Token) : Run (List Token) :=
  indentFrom none false tokens

theorem classicFrom_eq (source : Source) (left rest : List Char)
    (htext : source.text.toList = left ++ rest) :
    classicFrom source (byteLength left) = Run.ofOutcome (match munch rest with
      | (pieces, []) => .ok (place source preferredKind? (byteLength left) pieces)
      | (pieces, c :: _) => refuse (.unexpectedToken (String.singleton c))
          (.within source (byteLength left + byteLength pieces.flatten))) := by
  fun_induction munch rest generalizing left with
  | case1 =>
    rw [List.append_nil] at htext
    rw [classicFrom, dif_pos (by rw [htext])]
    rfl
  | case2 c text hnone =>
    have hpos := c.utf8Size_pos
    rw [classicFrom, dif_neg (by rw [htext, byteLength_append, byteLength_cons]; omega), htext,
      Run.bytesBehind_append, Run.bind_done]
    dsimp only
    rw [hnone]
    rfl
  | case3 c text n hn pieces rest he ih =>
    have hsplit : c :: text = (c :: text.take n) ++ text.drop n := by simp
    have hfirst : (left ++ c :: text.take n) ++ text.drop n = source.text.toList := by
      rw [htext, hsplit, List.append_assoc]
    have ih := ih (left ++ c :: text.take n) hfirst.symm
    have hslice := Run.byteSlice_append left (c :: text.take n) (text.drop n)
    rw [← List.append_assoc, hfirst] at hslice
    have hpos := c.utf8Size_pos
    rw [classicFrom, dif_neg (by rw [htext, byteLength_append, byteLength_cons]; omega)]
    conv => lhs; arg 1; rw [htext]
    rw [Run.bytesBehind_append, Run.bind_done]
    dsimp only
    rw [hn]
    dsimp only
    rw [hslice, Run.bind_done, ← byteLength_append, ih, he]
    obtain ⟨kind, hkind⟩ := Option.isSome_iff_exists.mp
      (preferredKind?_isSome_iff.mpr (isLongestPiece_of_longestTail? hn).isPiece)
    rw [hkind]
    cases rest with
    | nil =>
      simp only [place, hkind, byteLength_append]
      rfl
    | cons d rest =>
      dsimp only
      rw [List.flatten_cons, byteLength_append, byteLength_append, Nat.add_assoc]
      rfl

theorem tokensOf_eq (strategy : Strategy) (source : Source) :
    tokensOf strategy source = Run.ofOutcome (Offside.tokensOf strategy source) := by
  cases strategy with
  | fast => rfl
  | classic =>
    have h := classicFrom_eq source [] source.text.toList rfl
    have hstart : byteLength [] = 0 := rfl
    simp only [hstart, Nat.zero_add] at h
    rw [tokensOf, Offside.tokensOf, classicTokens, h]
    generalize munch source.text.toList = cuts
    obtain ⟨pieces, rest⟩ := cuts
    cases rest <;> rfl

theorem indentFrom_eq {unit? : Option String} {fresh : Bool} {tokens : List Token}
    (hu : ∀ unit ∈ unit?, 0 < unit.length) (ht : ∀ t ∈ tokens, 0 < t.text.length) :
    indentFrom unit? fresh tokens = Run.ofOutcome (Offside.indentFrom unit? fresh tokens) := by
  induction tokens generalizing unit? fresh with
  | nil => rfl
  | cons t tokens ih =>
    have htail : ∀ t ∈ tokens, 0 < t.text.length := fun t hm => ht t (List.mem_cons_of_mem _ hm)
    rw [indentFrom, Offside.indentFrom]
    cases hk : t.kind with
    | whitespace =>
      dsimp only
      split
      next =>
        have hunit : 0 < (unit?.getD t.text).length := by
          cases unit? with
          | none => exact ht t List.mem_cons_self
          | some unit => exact hu unit rfl
        have hne : ¬(unit?.getD t.text).length = 0 := hunit.ne'
        rw [Run.remainder, if_neg hne, Run.bind_done]
        split
        next =>
          rw [Run.quotient, if_neg hne, Run.bind_done, Run.ofOutcome_bind,
            ih (fun unit he => by rw [← Option.some.inj he]; exact hunit) htail]
          rfl
        next => rfl
      next => exact ih hu htail
    | newline =>
      dsimp only
      rw [Run.ofOutcome_bind, ih hu htail]
      rfl
    | _ =>
      dsimp only
      rw [Run.ofOutcome_bind, ih hu htail]
      rfl

theorem indent_eq {tokens : List Token} (ht : ∀ t ∈ tokens, 0 < t.text.length) :
    indent tokens = Run.ofOutcome (Offside.indent tokens) :=
  indentFrom_eq (fun unit hu => by cases hu) ht

end Stepwise

end Offside
