import Offside.Proofs.IndentUnits

namespace Offside

/-- Each element of a list with those before it and those after it. -/
def inContext {α : Type} (before : List α) : List α → List (List α × α × List α)
  | [] => []
  | x :: after => (before, x, after) :: inContext (before ++ [x]) after

/-- Whether a line break comes last among some tokens, whitespace apart. -/
def endsInBreak (tokens : List Token) : Bool :=
  (tokens.filter (·.kind != .whitespace)).getLast?.any (·.kind == .newline)

/-- Whether a token indents a line: it is whitespace, nothing but whitespace stands between it and
a line break before it, and right behind it the line goes on. -/
def indentsLine (before : List Token) (t : Token) (after : List Token) : Bool :=
  t.kind == .whitespace && endsInBreak before && after.head?.any (·.kind != .newline)

/-- The tokens that indent a line, when some tokens come before them. -/
def indentationsAfter (before tokens : List Token) : List Token :=
  ((inContext before tokens).filter fun c => indentsLine c.1 c.2.1 c.2.2).map (·.2.1)

def indentations (tokens : List Token) : List Token :=
  indentationsAfter [] tokens

/-- A token as it is written in whole units. Whitespace that indents no line is left out. -/
def inUnits (unit : String) (before : List Token) (t : Token) (after : List Token) : Option Token :=
  match t.kind with
  | .whitespace =>
    if indentsLine before t after then
      some ⟨.whitespace, repeatText (t.text.length / unit.length) unit, t.span⟩
    else none
  | .newline => some ⟨.newline, "\n", t.span⟩
  | _ => some t

def allInUnits (unit : String) (before tokens : List Token) : List Token :=
  (inContext before tokens).filterMap fun c => inUnits unit c.1 c.2.1 c.2.2

/-- The unit that is known, or else the first of some indentations. -/
def unitFrom (unit? : Option String) (indents : List Token) : String :=
  unit?.getD ((indents.head?.map (·.text)).getD "")

/-- The tokens that are given, if all of some indentations are multiples of the unit, and otherwise
the refusal of the first that is none. -/
def inWholeUnits (unit : String) (indents out : List Token) : Outcome (List Token) :=
  match indents.find? fun t => !decide (unit.length ∣ t.text.length) with
  | some t => refuse (.inconsistentIndentation t.text.length unit.length) t.span.start
  | none => .ok out

section

variable {before tokens after : List Token} {t : Token} {unit : String} {unit? : Option String}

theorem endsInBreak_append (before : List Token) (t : Token) : endsInBreak (before ++ [t]) =
    if t.kind = .whitespace then endsInBreak before else t.kind == .newline := by
  rw [endsInBreak, List.filter_append]
  split
  next h => simp [endsInBreak, h]
  next h => simp [h]

theorem indentsLine_eq (h : t.kind = .whitespace) :
    indentsLine before t after = (endsInBreak before && !endsLine after) := by
  cases after <;> simp [indentsLine, endsLine, h, bne]

theorem indentsLine_of_ne (h : t.kind ≠ .whitespace) : indentsLine before t after = false := by
  simp [indentsLine, h]

theorem indentationsAfter_cons : indentationsAfter before (t :: tokens) =
    if indentsLine before t tokens then t :: indentationsAfter (before ++ [t]) tokens
    else indentationsAfter (before ++ [t]) tokens := by
  rw [indentationsAfter, inContext, List.filter_cons]
  split <;> rfl

theorem allInUnits_cons : allInUnits unit before (t :: tokens) =
    (inUnits unit before t tokens).toList ++ allInUnits unit (before ++ [t]) tokens := by
  rw [allInUnits, inContext, List.filterMap_cons]
  cases inUnits unit before t tokens <;> rfl

/-- Stepping over an indentation of whole units. -/
theorem inWholeUnits_cons (h : unit.length ∣ t.text.length) (indents out : List Token) :
    inWholeUnits unit (t :: indents) out = inWholeUnits unit indents out := by
  rw [inWholeUnits, List.find?_cons_of_neg (by simpa using h), inWholeUnits]

theorem inWholeUnits_bind (first : Token) (indents out : List Token) :
    (inWholeUnits unit indents out >>= fun rest => return first :: rest) =
      inWholeUnits unit indents (first :: out) := by
  rw [inWholeUnits, inWholeUnits]
  split <;> rfl

theorem unitFrom_some (unit : String) (indents : List Token) :
    unitFrom (some unit) indents = unit :=
  rfl

theorem inUnits_of_plain (hw : t.kind ≠ .whitespace) (hn : t.kind ≠ .newline) :
    inUnits unit before t after = some t := by
  unfold inUnits
  split
  next h => exact absurd h hw
  next h => exact absurd h hn
  next => rfl

/-- What normalising does once it has come past some tokens: it stops at the first indentation that
is not a multiple of the unit, which the first of all indentations sets. -/
theorem indentFrom_eq {fresh : Bool} (h : endsInBreak before = fresh) :
    indentFrom unit? fresh tokens =
      inWholeUnits (unitFrom unit? (indentationsAfter before tokens))
        (indentationsAfter before tokens)
        (allInUnits (unitFrom unit? (indentationsAfter before tokens)) before tokens) := by
  fun_induction indentFrom unit? fresh tokens generalizing before with
  | case1 => rfl
  | case2 unit? fresh t tokens hk hfresh unit width whole =>
    rename_i ih
    have hindents : indentsLine before t tokens = true := by rw [indentsLine_eq hk, h, hfresh]
    have hunit : unitFrom unit? (t :: indentationsAfter (before ++ [t]) tokens) = unit := rfl
    have hline : inUnits unit before t tokens =
        some ⟨.whitespace, repeatText (width / unit.length) unit, t.span⟩ := by
      rw [inUnits, hk]
      exact if_pos hindents
    rw [indentationsAfter_cons, if_pos hindents, hunit, allInUnits_cons, hline,
      inWholeUnits_cons (Nat.dvd_of_mod_eq_zero whole),
      ih (by rw [endsInBreak_append, if_pos hk, h]), unitFrom_some, inWholeUnits_bind]
    rfl
  | case3 unit? fresh t tokens hk hfresh unit width =>
    rename_i odd
    have hindents : indentsLine before t tokens = true := by rw [indentsLine_eq hk, h, hfresh]
    have hunit : unitFrom unit? (t :: indentationsAfter (before ++ [t]) tokens) = unit := rfl
    rw [indentationsAfter_cons, if_pos hindents, hunit, inWholeUnits, List.find?_cons_of_pos]
    simpa [Nat.dvd_iff_mod_eq_zero] using odd
  | case4 unit? fresh t tokens hk hfresh ih =>
    have hindents : indentsLine before t tokens = false := by
      rw [indentsLine_eq hk, h, Bool.eq_false_iff.mpr hfresh]
    have hnone : ∀ unit, inUnits unit before t tokens = none := by
      intro unit
      rw [inUnits, hk]
      exact if_neg (by simp [hindents])
    rw [indentationsAfter_cons, if_neg (by simp [hindents]), allInUnits_cons, hnone,
      ih (by rw [endsInBreak_append, if_pos hk, h])]
    rfl
  | case5 unit? fresh t tokens hk ih =>
    have hw : t.kind ≠ .whitespace := by simp [hk]
    have hline : ∀ unit, inUnits unit before t tokens = some (.lineBreak t.span) := by
      intro unit
      rw [inUnits, hk]
      rfl
    have ih := @ih (before ++ [t]) (by rw [endsInBreak_append, if_neg hw, hk]; rfl)
    rw [indentationsAfter_cons, indentsLine_of_ne hw, allInUnits_cons, hline, ih,
      inWholeUnits_bind]
    rfl
  | case6 unit? fresh t tokens hw hn ih =>
    have ih := @ih (before ++ [t]) (by rw [endsInBreak_append, if_neg hw]; simpa using hn)
    rw [indentationsAfter_cons, indentsLine_of_ne hw, allInUnits_cons, inUnits_of_plain hw hn, ih,
      inWholeUnits_bind]
    rfl

theorem inWholeUnits_eq_ok_iff {indents out result : List Token} :
    inWholeUnits unit indents out = .ok result ↔
      (∀ t ∈ indents, unit.length ∣ t.text.length) ∧ result = out := by
  rw [inWholeUnits]
  split
  next t hfind =>
    have hodd : ¬unit.length ∣ t.text.length := by simpa using List.find?_some hfind
    constructor
    · intro h
      cases h
    · rintro ⟨whole, -⟩
      exact absurd (whole t (List.mem_of_find?_eq_some hfind)) hodd
  next hfind =>
    have whole : ∀ t ∈ indents, unit.length ∣ t.text.length := by
      simpa using List.find?_eq_none.mp hfind
    rw [Except.ok.injEq]
    exact ⟨fun h => ⟨whole, h.symm⟩, fun h => h.2.symm⟩

theorem inWholeUnits_eq_error_iff {indents out : List Token} {d : Diagnostic} :
    inWholeUnits unit indents out = .error d ↔
      ∃ whole t rest, indents = whole ++ t :: rest ∧
        (∀ u ∈ whole, unit.length ∣ u.text.length) ∧ ¬unit.length ∣ t.text.length ∧
        d = ⟨.inconsistentIndentation t.text.length unit.length, t.span.start⟩ := by
  rw [inWholeUnits]
  constructor
  · intro h
    split at h
    next t hfind =>
      obtain ⟨hodd, whole, rest, rfl, hwhole⟩ := List.find?_eq_some_iff_append.mp hfind
      exact ⟨whole, t, rest, rfl, by simpa using hwhole, by simpa using hodd,
        (Except.error.inj h).symm⟩
    next => cases h
  · rintro ⟨whole, t, rest, rfl, hwhole, hodd, rfl⟩
    have hfind : (whole ++ t :: rest).find? (fun t => !decide (unit.length ∣ t.text.length)) =
        some t :=
      List.find?_eq_some_iff_append.mpr
        ⟨by simpa using hodd, whole, rest, rfl, by simpa using hwhole⟩
    rw [hfind]
    rfl

end

/-- Indentation is normalised exactly: if the width of each indentation is a multiple of the width
of the first one, each is written as so many copies of the first one, each line break as one line
feed, all other whitespace goes and the rest stays. Otherwise the first indentation of another width is
refused. -/
theorem indent_writes_whole_units (tokens : List Token) :
    let unit := ((indentations tokens).head?.map (·.text)).getD ""
    (∀ out, indent tokens = .ok out ↔
      (∀ t ∈ indentations tokens, unit.length ∣ t.text.length) ∧
        out = allInUnits unit [] tokens) ∧
    ∀ d, indent tokens = .error d ↔ ∃ whole t rest, indentations tokens = whole ++ t :: rest ∧
      (∀ u ∈ whole, unit.length ∣ u.text.length) ∧ ¬unit.length ∣ t.text.length ∧
      d = ⟨.inconsistentIndentation t.text.length unit.length, t.span.start⟩ := by
  intro unit
  have heq : indent tokens = inWholeUnits unit (indentations tokens) (allInUnits unit [] tokens) :=
    indentFrom_eq rfl
  rw [heq]
  exact ⟨fun out => inWholeUnits_eq_ok_iff, fun d => inWholeUnits_eq_error_iff⟩

end Offside
