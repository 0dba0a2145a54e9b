import Offside.Proofs.LayoutDependence
import Offside.Proofs.LineLexing

namespace Offside

/-- Whether a line shows nothing, since it is empty or whitespace is all that it says. -/
def isBlankLine : List (Kind × String) → Bool
  | [] => true
  | [word] => word.1 == .whitespace
  | _ => false

/-- A line without the whitespace that it begins with. -/
def unindented (line : List (Kind × String)) : List (Kind × String) :=
  line.dropWhile (·.1 == .whitespace)

/-- The lines that show something. Whitespace in front of the first line indents nothing. -/
def visibleLines : List (List (Kind × String)) → List (List (Kind × String))
  | [] => []
  | first :: others => (unindented first :: others).filter (!isBlankLine ·)

/-- The unit of indentation behind a line. -/
def unitAfter (unit? : Option String) (fresh : Bool) (line : List Token) : Option String :=
  if fresh && !isBlankLine (line.map Token.word) then unit?.or (indentation? line) else unit?

/-- Normalises one line after the other. -/
def indentLines (unit? : Option String) (fresh : Bool) :
    List (List Token) → Outcome (List (List Token))
  | [] => .ok []
  | line :: lines => do
    let line' ← indentFrom unit? fresh line
    let lines' ← indentLines (unitAfter unit? fresh line) true lines
    return line' :: lines'

section

variable {tokens line below out : List Token} {mark : Token} {unit? : Option String} {fresh : Bool}

theorem endsLine_append (hm : mark.kind = .newline) :
    endsLine (line ++ mark :: below) = endsLine line := by
  cases line with
  | nil => simp [endsLine, hm]
  | cons t line => rfl

theorem eq_nil_of_endsLine (plain : ∀ t ∈ line, t.kind ≠ .newline) (h : endsLine line = true) :
    line = [] := by
  cases line with
  | nil => rfl
  | cons t line => exact absurd (eq_of_beq h) (plain t List.mem_cons_self)

theorem unitAfter_false (unit? : Option String) (line : List Token) :
    unitAfter unit? false line = unit? :=
  rfl

theorem unitAfter_some (unit : String) (fresh : Bool) (line : List Token) :
    unitAfter (some unit) fresh line = some unit := by
  rw [unitAfter]
  split <;> rfl

/-- Normalising goes from line to line and hands on nothing but the unit. -/
theorem indentFrom_line (plain : ∀ t ∈ line, t.kind ≠ .newline) (hm : mark.kind = .newline) :
    indentFrom unit? fresh (line ++ mark :: below) = do
      let line' ← indentFrom unit? fresh line
      let below' ← indentFrom (unitAfter unit? fresh line) true below
      return line' ++ Token.lineBreak mark.span :: below' := by
  fun_induction indentFrom unit? fresh line with
  | case1 unit? fresh =>
    rw [List.nil_append, indentFrom.eq_def]
    simp only [hm]
    cases fresh <;> rfl
  | case2 unit? fresh t line hk hfresh unit width whole =>
    rename_i ih
    obtain ⟨rfl, hends⟩ := Bool.and_eq_true_iff.mp hfresh
    have hunit : unitAfter unit? true (t :: line) = some unit := by
      cases line with
      | nil => cases hends
      | cons u line =>
        rw [unitAfter, indentation?, if_pos hk]
        cases unit? <;> rfl
    have hif : (true && !endsLine (line ++ mark :: below)) = true := by
      rwa [endsLine_append hm]
    rw [List.cons_append, indentFrom.eq_def]
    simp only [hk, hif, if_true]
    rw [if_pos whole, ih fun u hu => plain u (List.mem_cons_of_mem _ hu), unitAfter_some, hunit]
    simp only [bind_assoc, pure_bind, List.cons_append]
    rfl
  | case3 unit? fresh t line hk hfresh unit width whole =>
    obtain ⟨rfl, hends⟩ := Bool.and_eq_true_iff.mp hfresh
    have hif : (true && !endsLine (line ++ mark :: below)) = true := by
      rwa [endsLine_append hm]
    rw [List.cons_append, indentFrom.eq_def]
    simp only [hk, hif, if_true]
    rw [if_neg whole]
    rfl
  | case4 unit? fresh t line hk hfresh ih =>
    have hplain : ∀ u ∈ line, u.kind ≠ .newline := fun u hu => plain u (List.mem_cons_of_mem _ hu)
    have hunit : unitAfter unit? fresh (t :: line) = unitAfter unit? fresh line := by
      cases fresh with
      | false => rfl
      | true =>
        obtain rfl := eq_nil_of_endsLine hplain (by simpa using hfresh)
        simp [unitAfter, isBlankLine, Token.word, hk]
    rw [List.cons_append, indentFrom.eq_def]
    simp only [hk, endsLine_append hm, hfresh, hunit]
    exact ih hplain
  | case5 unit? fresh t tokens hk ih => exact absurd hk (plain t List.mem_cons_self)
  | case6 unit? fresh t line hw hn ih =>
    have hunit : unitAfter unit? fresh (t :: line) = unit? := by
      rw [unitAfter, indentation?, if_neg hw, Option.or_none, ite_self]
    rw [List.cons_append, indentFrom.eq_def]
    dsimp only
    split
    next hk => exact absurd hk hw
    next hk => exact absurd hk hn
    next =>
      rw [ih fun u hu => plain u (List.mem_cons_of_mem _ hu), unitAfter_false, hunit]
      simp only [bind_assoc, pure_bind, List.cons_append]

theorem plain_of_indentFrom (plain : ∀ t ∈ line, t.kind ≠ .newline)
    (h : indentFrom unit? fresh line = .ok out) : ∀ t ∈ out, (t.kind == .newline) = false := by
  fun_induction indentFrom unit? fresh line generalizing out with
  | case1 =>
    obtain rfl := Except.ok.inj h
    exact List.forall_mem_nil _
  | case2 unit? fresh t line hk hfresh unit width whole =>
    rename_i ih
    obtain ⟨rest, hrest, h⟩ := bind_eq_ok.mp h
    obtain rfl := Except.ok.inj h
    exact List.forall_mem_cons.mpr ⟨rfl, ih (fun u hu => plain u (List.mem_cons_of_mem _ hu)) hrest⟩
  | case3 => cases h
  | case4 unit? fresh t line hk hfresh ih =>
    exact ih (fun u hu => plain u (List.mem_cons_of_mem _ hu)) h
  | case5 unit? fresh t line hk ih => exact absurd hk (plain t List.mem_cons_self)
  | case6 unit? fresh t line hw hn ih =>
    obtain ⟨rest, hrest, h⟩ := bind_eq_ok.mp h
    obtain rfl := Except.ok.inj h
    exact List.forall_mem_cons.mpr ⟨beq_eq_false_iff_ne.mpr hn,
      ih (fun u hu => plain u (List.mem_cons_of_mem _ hu)) hrest⟩

/-- Broken into lines, the normalised tokens are the lines normalised one after the other. -/
theorem splitWhere_indentFrom (unit? : Option String) (fresh : Bool) (tokens : List Token) :
    splitWhere (·.kind == .newline) <$> indentFrom unit? fresh tokens =
      indentLines unit? fresh (splitWhere (·.kind == .newline) tokens) := by
  induction hlength : tokens.length using Nat.strongRecOn generalizing unit? fresh tokens with
  | _ n ih =>
  subst hlength
  cases hfind : tokens.find? (·.kind == .newline) with
  | none =>
    have hplain : ∀ t ∈ tokens, (t.kind == .newline) = false := by
      simpa using List.find?_eq_none.mp hfind
    rw [splitWhere_plain hplain]
    cases hout : indentFrom unit? fresh tokens with
    | error d => simp only [indentLines, hout]; rfl
    | ok out =>
      have hplain' := plain_of_indentFrom (fun t ht => beq_eq_false_iff_ne.mp (hplain t ht)) hout
      simp only [indentLines, hout]
      exact congrArg Except.ok (splitWhere_plain hplain')
  | some mark =>
    obtain ⟨hm, line, below, rfl, hplain⟩ := List.find?_eq_some_iff_append.mp hfind
    have hplain : ∀ t ∈ line, (t.kind == .newline) = false := by simpa using hplain
    have hline : ∀ t ∈ line, t.kind ≠ .newline := fun t ht => beq_eq_false_iff_ne.mp (hplain t ht)
    have hbelow := ih below.length (by simp; omega) (unitAfter unit? fresh line) true below rfl
    rw [splitWhere_append_cons hplain hm, indentFrom_line hline (eq_of_beq hm), indentLines,
      ← hbelow]
    cases hout : indentFrom unit? fresh line with
    | error d => rfl
    | ok out =>
      cases indentFrom (unitAfter unit? fresh line) true below with
      | error d => rfl
      | ok below' =>
        exact congrArg Except.ok (splitWhere_append_cons (plain_of_indentFrom hline hout) rfl)

/-- Whitespace that indents no line is dropped. -/
theorem indentFrom_unindented (unit? : Option String) (line : List Token) :
    indentFrom unit? false line =
      indentFrom unit? true (line.dropWhile (·.kind == .whitespace)) := by
  induction line with
  | nil => rfl
  | cons t line ih =>
    by_cases ht : t.kind = .whitespace
    · rw [List.dropWhile_cons_of_pos (by simp [ht]), ← ih, indentFrom.eq_def]
      simp [ht]
    · rw [List.dropWhile_cons_of_neg (by simp [ht]), indentFrom.eq_def, indentFrom.eq_def]
      dsimp only
      split
      next hk => exact absurd hk ht
      next => rfl
      next => rfl

theorem indentation?_unindented (line : List Token) :
    indentation? (line.dropWhile (·.kind == .whitespace)) = none := by
  induction line with
  | nil => rfl
  | cons t line ih =>
    by_cases ht : t.kind = .whitespace
    · rwa [List.dropWhile_cons_of_pos (by simp [ht])]
    · rw [List.dropWhile_cons_of_neg (by simp [ht]), indentation?, if_neg ht]

theorem indentLines_unindented (first : List Token) (others : List (List Token)) :
    indentLines none false (first :: others) =
      indentLines none true (first.dropWhile (·.kind == .whitespace) :: others) := by
  rw [indentLines, indentLines, indentFrom_unindented, unitAfter, unitAfter,
    indentation?_unindented, Option.or_none, ite_self]
  rfl

theorem indentFrom_blank (h : isBlankLine (line.map Token.word) = true) :
    indentFrom unit? fresh line = .ok [] := by
  match line, h with
  | [], _ => rfl
  | [t], h =>
    have ht : t.kind = .whitespace := eq_of_beq h
    simp [indentFrom, ht, endsLine]

/-- Blank lines leave no trace. -/
theorem indentLines_visible (unit? : Option String) (lines : List (List Token)) :
    List.filter (!·.isEmpty) <$> indentLines unit? true lines =
      List.filter (!·.isEmpty) <$>
        indentLines unit? true (lines.filter fun line => !isBlankLine (line.map Token.word)) := by
  induction lines generalizing unit? with
  | nil => rfl
  | cons line lines ih =>
    cases hb : isBlankLine (line.map Token.word) with
    | true =>
      have hunit : unitAfter unit? true line = unit? := by simp [unitAfter, hb]
      rw [List.filter_cons_of_neg (by simp [hb]), ← ih, indentLines, indentFrom_blank hb, hunit]
      cases indentLines unit? true lines <;> rfl
    | false =>
      rw [List.filter_cons_of_pos (by simp [hb]), indentLines, indentLines]
      cases indentFrom unit? true line with
      | error d => rfl
      | ok line' =>
        have hfront : ∀ x : Outcome (List (List Token)),
            List.filter (!·.isEmpty) <$> (x >>= fun lines' => pure (line' :: lines')) =
              ([line'].filter (!·.isEmpty) ++ ·) <$> (List.filter (!·.isEmpty) <$> x) := by
          intro x
          cases x with
          | error d => rfl
          | ok lines' => exact congrArg Except.ok (List.filter_append [line'] lines')
        exact (hfront _).trans ((congrArg _ (ih _)).trans (hfront _).symm)

/-- The lines that show something, as they are normalised. -/
def shownLines (tokens : List Token) : List (List Token) :=
  match splitWhere (·.kind == .newline) tokens with
  | [] => []
  | first :: others =>
    (first.dropWhile (·.kind == .whitespace) :: others).filter
      fun line => !isBlankLine (line.map Token.word)

theorem lines_indent (tokens : List Token) :
    lines <$> indent tokens =
      List.filter (!·.isEmpty) <$> indentLines none true (shownLines tokens) := by
  have hsplit := splitWhere_indentFrom none false tokens
  rw [shownLines]
  split
  next h => cases (splitWhere_eq_cons _ tokens).symm.trans h
  next first others h =>
    rw [h, indentLines_unindented] at hsplit
    rw [← indentLines_visible, ← hsplit, ← comp_map]
    rfl

theorem map_word_shownLines (tokens : List Token) :
    (shownLines tokens).map (List.map Token.word) =
      visibleLines ((splitWhere (·.kind == .newline) tokens).map (List.map Token.word)) := by
  rw [shownLines]
  split
  next h => rw [h]; rfl
  next first others h =>
    have hfirst : (first.dropWhile (·.kind == .whitespace)).map Token.word =
        unindented (first.map Token.word) := by
      rw [unindented, List.dropWhile_map]
      rfl
    rw [h, List.map_cons, visibleLines, ← hfirst, ← List.map_cons, List.filter_map]
    rfl

theorem plain_of_mem_shownLines (h : line ∈ shownLines tokens) : ∀ t ∈ line, t.kind ≠ .newline := by
  rw [shownLines] at h
  split at h
  next => cases h
  next first others hs =>
    have hplain : ∀ l ∈ first :: others, ∀ t ∈ l, t.kind ≠ .newline := fun l hl t ht =>
      beq_eq_false_iff_ne.mp (not_of_mem_splitWhere (hs ▸ hl) t ht)
    rcases List.mem_cons.mp (List.mem_filter.mp h).1 with rfl | hl
    · exact fun t ht => hplain first List.mem_cons_self t ((List.dropWhile_suffix _).subset ht)
    · exact hplain line (List.mem_cons_of_mem _ hl)

end

theorem Rebroken.of_words {ts us : List Token} (h : ts.map Token.word = us.map Token.word) :
    Rebroken ts us := by
  induction ts generalizing us with
  | nil =>
    obtain rfl := List.map_eq_nil_iff.mp h.symm
    exact .nil
  | cons t ts ih =>
    obtain ⟨u, us, rfl, hu, hus⟩ := List.map_eq_cons_iff.mp h.symm
    exact .same hu.symm (ih hus.symm)

theorem Rebroken.words {ts us : List Token} (h : Rebroken ts us)
    (plain : ∀ t ∈ ts, t.kind ≠ .newline) : ts.map Token.word = us.map Token.word := by
  induction h with
  | nil => rfl
  | same word _ ih =>
    rw [List.map_cons, List.map_cons, word, ih fun t ht => plain t (List.mem_cons_of_mem _ ht)]
  | merged first _ _ _ _ => exact absurd first (plain _ List.mem_cons_self)

theorem Outcome.Alike.imp {α β : Type} {related related' : α → β → Prop} {x : Outcome α}
    {y : Outcome β} (h : x.Alike related y)
    (hrelated : ∀ a b, x = .ok a → related a b → related' a b) : x.Alike related' y := by
  cases x with
  | ok a =>
    cases y with
    | ok b => exact hrelated a b rfl h
    | error e => exact h
  | error d =>
    cases y with
    | ok b => exact h
    | error e => exact h

section

variable {line line' : List Token} {ls ms : List (List Token)}

theorem unitAfter_of_words (h : line.map Token.word = line'.map Token.word)
    (unit? : Option String) (fresh : Bool) :
    unitAfter unit? fresh line = unitAfter unit? fresh line' := by
  rw [unitAfter, unitAfter, h, indentation?_of_word h]

theorem indentFrom_of_words (plain : ∀ t ∈ line, t.kind ≠ .newline)
    (h : line.map Token.word = line'.map Token.word) (unit? : Option String) (fresh : Bool) :
    (indentFrom unit? fresh line).Alike (fun out out' => out.map Token.word = out'.map Token.word)
      (indentFrom unit? fresh line') := by
  refine (indentFrom_rebroken (Rebroken.of_words h) unit? fresh).imp fun out out' hout hr => ?_
  exact hr.words fun t ht => beq_eq_false_iff_ne.mp (plain_of_indentFrom plain hout t ht)

/-- Lines that say the same are normalised to lines that say the same. -/
theorem indentLines_of_words (plain : ∀ l ∈ ls, ∀ t ∈ l, t.kind ≠ .newline)
    (h : ls.map (List.map Token.word) = ms.map (List.map Token.word)) (unit? : Option String)
    (fresh : Bool) :
    (indentLines unit? fresh ls).Alike
      (fun out out' => out.map (List.map Token.word) = out'.map (List.map Token.word))
      (indentLines unit? fresh ms) := by
  induction ls generalizing ms unit? fresh with
  | nil =>
    obtain rfl := List.map_eq_nil_iff.mp h.symm
    rfl
  | cons l ls ih =>
    obtain ⟨m, ms, rfl, hm, hms⟩ := List.map_eq_cons_iff.mp h.symm
    obtain ⟨hl, hls⟩ := List.forall_mem_cons.mp plain
    rw [indentLines, indentLines, unitAfter_of_words hm]
    refine (indentFrom_of_words hl hm.symm unit? fresh).bind fun l' m' hl' => ?_
    refine (ih hls hms.symm _ _).bind fun ls' ms' hrest => ?_
    exact congrArg₂ List.cons hl' hrest

/-- Once normalised, tokens say line by line what their visible lines say. -/
theorem lines_indent_of_visible {tokens tokens' : List Token}
    (h : visibleLines ((splitWhere (·.kind == .newline) tokens).map (List.map Token.word)) =
      visibleLines ((splitWhere (·.kind == .newline) tokens').map (List.map Token.word))) :
    (lines <$> indent tokens).Alike
      (fun ls ms => ls.map (List.map Token.word) = ms.map (List.map Token.word))
      (lines <$> indent tokens') := by
  rw [← map_word_shownLines, ← map_word_shownLines] at h
  rw [lines_indent, lines_indent, ← bind_pure_comp, ← bind_pure_comp]
  refine (indentLines_of_words (fun l hl => plain_of_mem_shownLines hl) h none true).bind ?_
  intro ls ms hlm
  change List.map _ (List.filter _ ls) = List.map _ (List.filter _ ms)
  have hfilter : ∀ ks : List (List Token), (ks.filter (!·.isEmpty)).map (List.map Token.word) =
      (ks.map (List.map Token.word)).filter (!·.isEmpty) := by
    intro ks
    rw [List.filter_map]
    congr 1
    refine List.filter_congr fun k _ => ?_
    rw [Function.comp, List.isEmpty_map]
  rw [hfilter, hfilter, hlm]

end

end Offside
