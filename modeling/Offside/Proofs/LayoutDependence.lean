import Mathlib
import Offside.Proofs.CommentDeletion
import Offside.Proofs.IndentationScope
import Offside.Proofs.ParallelNesting
import Offside.Proofs.RelocatedReading

namespace Offside

/-- A block without places. -/
def Block.unplaced (b : Block) : Block :=
  b.moved fun _ => .unknown

/-- A program without places, or the cause why there is none. -/
def Outcome.unplaced : Outcome Block → Except Cause Block
  | .ok program => .ok program.unplaced
  | .error d => .error d.cause

/-- What the first indentation of some lines consists of. -/
def unitOf (lines : List (List Token)) : String :=
  ((lines.flatten.find? (·.kind == .whitespace)).map (·.text)).getD ""

/-- How many units a line is indented by. -/
def levelIn (lines : List (List Token)) (line : List Token) : Nat :=
  indentWidth line / (unitOf lines).length

/-- What a line says besides its indentation. -/
def saying (line : List Token) : List (Kind × String) :=
  (line.filter (·.kind != .whitespace)).map Token.word

/-- The level of each line, and what it says. -/
def layout (lines : List (List Token)) : List (Nat × List (Kind × String)) :=
  lines.map fun line => (levelIn lines line, saying line)

/-- Whether one source is the other without the text of one of its comments. -/
def Source.IsWithoutComment (source' source : Source) : Prop :=
  ∃ pieces comment after,
    DropsComment source.text.toList source'.text.toList pieces comment after

/-- Places that are all different can be exchanged for any others. -/
theorem exists_perm_map {α : Type} [DecidableEq α] {ps qs : List α} (hp : ps.Nodup)
    (hq : qs.Nodup) (hl : ps.length = qs.length) : ∃ σ : Equiv.Perm α, ps.map σ = qs := by
  induction ps generalizing qs with
  | nil =>
    obtain rfl := List.length_eq_zero_iff.mp hl.symm
    exact ⟨Equiv.refl α, rfl⟩
  | cons p ps ih =>
    cases qs with
    | nil => cases hl
    | cons q qs =>
      obtain ⟨hpn, hp⟩ := List.nodup_cons.mp hp
      obtain ⟨hqn, hq⟩ := List.nodup_cons.mp hq
      obtain ⟨σ, rfl⟩ := ih hp hq (Nat.succ.inj hl)
      refine ⟨σ.trans (Equiv.swap (σ p) q), ?_⟩
      rw [List.map_cons, Equiv.trans_apply, Equiv.swap_apply_left]
      congr 1
      refine List.map_congr_left fun x hx => ?_
      rw [Equiv.trans_apply]
      refine Equiv.swap_apply_of_ne_of_ne ?_ ?_
      · intro he
        exact hpn (σ.injective he ▸ hx)
      · rintro rfl
        exact hqn (List.mem_map.mpr ⟨x, hx, rfl⟩)

theorem exists_keepsApart {ps qs : List Position} (hp : ps.Nodup) (hq : qs.Nodup)
    (hpu : .unknown ∉ ps) (hqu : .unknown ∉ qs) (hl : ps.length = qs.length) :
    ∃ σ, KeepsApart σ ∧ ps.map σ = qs := by
  obtain ⟨σ, hσ⟩ := exists_perm_map (List.nodup_cons.mpr ⟨hpu, hp⟩)
    (List.nodup_cons.mpr ⟨hqu, hq⟩) (congrArg (· + 1) hl)
  obtain ⟨hunknown, hσ⟩ := List.cons.inj hσ
  exact ⟨σ, ⟨σ.injective, hunknown⟩, hσ⟩

theorem keepsApart_id : KeepsApart id :=
  ⟨Function.injective_id, rfl⟩

/-- The places of a line that come up in a tree: its own and those of its tokens. -/
def marks : List Token → List Position
  | [] => []
  | first :: line => first.span.start :: (line.filter (·.kind != .whitespace)).map (·.span.start)

/-- Whether two lines are at the same level and say the same, once the places of the first are
changed. -/
structure Corresponds (σ : Position → Position) (unit unit' : String) (line line' : List Token) :
    Prop where
  laid : (layLine line).map (Tree.mapTokens (Token.moved σ)) =
    (layLine line').map (Tree.mapTokens (Token.moved id))
  level : ∃ n, levelOf line = repeatText n unit ∧ levelOf line' = repeatText n unit' ∧
    (indentation? line = none ↔ n = 0) ∧ (indentation? line' = none ↔ n = 0)

section

variable {σ : Position → Position} {unit unit' : String} {ls ms : List (List Token)}
  {line line' : List Token}

/-- Nesting looks at levels only. -/
theorem nestsAlike_corresponds (hu : 0 < unit.length) (hu' : 0 < unit'.length) :
    NestsAlike (Token.moved σ) (Token.moved id) fun level level' line line' =>
      (∃ k, level = repeatText k unit ∧ level' = repeatText k unit') ∧
        Corresponds σ unit unit' line line' where
  laid h := h.2.laid
  nested := by
    rintro _ _ line line' ⟨⟨k, rfl, rfl⟩, h⟩
    obtain ⟨n, hl, hl', hn, hn'⟩ := h.level
    rw [isNestedUnder_repeatText hu hl hn, isNestedUnder_repeatText hu' hl' hn']
  deeper := by
    rintro _ _ line line' ⟨-, h⟩ - other other' ⟨-, ho⟩ -
    obtain ⟨n, hl, hl', -, -⟩ := h.level
    exact ⟨⟨n, hl, hl'⟩, ho⟩

theorem nest_corresponds (hu : 0 < unit.length) (hu' : 0 < unit'.length)
    (h : List.Forall₂ (Corresponds σ unit unit') ls ms) :
    (nest ls).map (Tree.mapTokens (Token.moved σ)) =
      (nest ms).map (Tree.mapTokens (Token.moved id)) := by
  cases h with
  | nil => rfl
  | cons hline hlines =>
    obtain ⟨n, hl, hl', -, -⟩ := hline.level
    rw [nest, nest, hl, hl']
    exact (nestsAlike_corresponds hu hu').nestAt
      ((List.Forall₂.cons hline hlines).imp fun _ _ hx => ⟨⟨n, rfl, rfl⟩, hx⟩)

/-- The level of a line tells what it is indented by. -/
theorem levelOf_of_classicLines {source : Source} (h : classicLines source = .ok ls) :
    ∃ unit : String, 0 < unit.length ∧ ∀ line ∈ ls,
      levelOf line = repeatText (levelIn ls line) unit ∧
        (indentation? line = none ↔ levelIn ls line = 0) := by
  obtain ⟨tokens, htokens, h⟩ := bind_eq_ok.mp h
  obtain ⟨indented, hindented, h⟩ := bind_eq_ok.mp h
  obtain rfl := Except.ok.inj h
  obtain ⟨unit, hu⟩ := indent_keepsUnit (text_length_pos_of_classicTokens htokens) hindented
  refine ⟨unit, hu.positive, ?_⟩
  intro line hline
  cases hi : indentation? line with
  | none =>
    have hlevel : levelOf line = "" := by rw [levelOf, hi]; rfl
    have hzero : levelIn (lines indented) line = 0 := by
      rw [levelIn, indentWidth, hlevel]
      exact Nat.zero_div _
    rw [hzero]
    exact ⟨hlevel, by simp⟩
  | some s =>
    obtain ⟨t, rest, rfl, hk, rfl⟩ := head_of_indentation? hi
    have hunit : unitOf (lines indented) = unit := by
      have hmem : t ∈ (lines indented).flatten :=
        List.mem_flatten.mpr ⟨_, hline, List.mem_cons_self⟩
      have hfind : (lines indented).flatten.find? (·.kind == .whitespace) =
          indented.find? (·.kind == .whitespace) := by
        rw [flatten_lines, List.find?_filter]
        congr 1
        funext u
        cases hku : u.kind == .whitespace with
        | true => simp [eq_of_beq hku]
        | false => simp
      obtain ⟨u, hfu⟩ : ∃ u, (lines indented).flatten.find? (·.kind == .whitespace) = some u :=
        Option.isSome_iff_exists.mp (List.find?_isSome.mpr ⟨t, hmem, by simp [hk]⟩)
      rw [unitOf, hfu, Option.map_some, Option.getD_some]
      rw [hfind] at hfu
      exact hu.first rfl u hfu
    obtain ⟨n, hn, htext⟩ := hu.areIndentedBy.indentation _ hline _ hi
    have hlevel : levelOf (t :: rest) = repeatText n unit := by
      rw [levelOf, hi, ← htext]
      rfl
    have hwidth : levelIn (lines indented) (t :: rest) = n := by
      rw [levelIn, indentWidth, hlevel, hunit, length_repeatText]
      exact Nat.mul_div_cancel _ hu.positive
    rw [hwidth]
    refine ⟨hlevel, ?_⟩
    simp only [reduceCtorEq, false_iff]
    omega

theorem map_moved_of_word {ts us : List Token} (hw : ts.map Token.word = us.map Token.word)
    (hs : (ts.map (·.span.start)).map σ = us.map (·.span.start)) :
    ts.map (Token.moved σ) = us.map (Token.moved id) := by
  induction ts generalizing us with
  | nil =>
    obtain rfl := List.map_eq_nil_iff.mp hw.symm
    rfl
  | cons t ts ih =>
    cases us with
    | nil => cases hw
    | cons u us =>
      obtain ⟨hword, hw⟩ := List.cons.inj hw
      obtain ⟨hstart, hs⟩ := List.cons.inj hs
      obtain ⟨hk, ht⟩ := Prod.mk.inj hword
      rw [List.map_cons, List.map_cons, ih hw hs, Token.moved, Token.moved, hk, ht, hstart]
      rfl

/-- A line that begins with its indentation, or not, by what it says and its marks. -/
theorem layLine_moved (hi : indentation? line = none ↔ indentation? line' = none)
    (hw : saying line = saying line') (hm : (marks line).map σ = marks line') :
    (layLine line).map (Tree.mapTokens (Token.moved σ)) =
      (layLine line').map (Tree.mapTokens (Token.moved id)) := by
  cases line with
  | nil =>
    cases line' with
    | nil => rfl
    | cons u rest' => cases hm
  | cons t rest =>
    cases line' with
    | nil => cases hm
    | cons u rest' =>
      obtain ⟨hstart, hstarts⟩ := List.cons.inj hm
      have hkind : t.kind = .whitespace ↔ u.kind = .whitespace := by
        rw [indentation?, indentation?] at hi
        by_cases ht : t.kind = .whitespace <;> by_cases hu : u.kind = .whitespace <;>
          simp_all
      have hfilter : ((t :: rest).filter (·.kind != .whitespace)).map (Token.moved σ) =
          ((u :: rest').filter (·.kind != .whitespace)).map (Token.moved id) := by
        refine map_moved_of_word hw ?_
        by_cases ht : t.kind = .whitespace
        · simpa [ht, hkind.mp ht] using hstarts
        · simpa [ht, mt hkind.mpr ht] using And.intro hstart hstarts
      rw [layLine, layLine, List.map_cons, List.map_cons, map_mapTokens_token,
        map_mapTokens_token, hfilter]
      congr 1
      rw [Tree.mapTokens_token, Tree.mapTokens_token, Token.moved, Token.moved, Token.lineBreak,
        Token.lineBreak, hstart]
      rfl

theorem length_marks (line : List Token) : (marks line).length =
    (saying line).length + if (indentation? line).isSome then 1 else 0 := by
  cases line with
  | nil => rfl
  | cons t rest =>
    by_cases ht : t.kind = .whitespace <;> simp [marks, saying, indentation?, ht]

theorem marks_sublist (lines : List (List Token)) :
    (lines.flatMap marks).Sublist (starts lines) := by
  induction lines with
  | nil => exact .refl _
  | cons line lines ih =>
    rw [List.flatMap_cons, starts, List.flatten_cons, List.map_append]
    refine List.Sublist.append ?_ ih
    cases line with
    | nil => exact .refl _
    | cons t rest => exact (List.filter_sublist.map _).cons_cons _

theorem forall₂_marks (h : List.Forall₂ (fun l m => (marks l).length = (marks m).length) ls ms)
    (he : (ls.flatMap marks).map σ = ms.flatMap marks) :
    List.Forall₂ (fun l m => (marks l).map σ = marks m) ls ms := by
  induction h with
  | nil => exact .nil
  | cons hline _ ih =>
    rw [List.flatMap_cons, List.flatMap_cons, List.map_append] at he
    obtain ⟨hfirst, hrest⟩ := List.append_inj he (by rw [List.length_map, hline])
    exact .cons hfirst (ih hrest)

theorem length_flatMap_marks
    (h : List.Forall₂ (fun l m => (marks l).length = (marks m).length) ls ms) :
    (ls.flatMap marks).length = (ms.flatMap marks).length := by
  induction h with
  | nil => rfl
  | cons hline _ ih =>
    rw [List.flatMap_cons, List.flatMap_cons, List.length_append, List.length_append, hline, ih]

theorem marks_of_classicLines {source : Source} (h : classicLines source = .ok ls) :
    (ls.flatMap marks).Nodup ∧ .unknown ∉ ls.flatMap marks := by
  refine ⟨(layout_of_classicLines h).2.2.sublist (marks_sublist ls), ?_⟩
  intro hm
  obtain ⟨tokens, htokens, h⟩ := bind_eq_ok.mp h
  obtain ⟨indented, hindented, h⟩ := bind_eq_ok.mp h
  obtain rfl := Except.ok.inj h
  have hs := (flatten_lines_sublist indented).map (·.span.start)
  have hmem := (hs.trans (indentFrom_starts hindented)).subset ((marks_sublist _).subset hm)
  obtain ⟨t, ht, hu⟩ := List.mem_map.mp hmem
  exact start_known_of_classicTokens htokens t ht hu

theorem readProgram_classic (source : Source) : readProgram .classic source =
    classicLines source >>= fun lines => programOf source (nest lines) := by
  simp only [readProgram, treeOf, tokensOf, classicLines, bind_assoc, pure_bind]

/-- Trees that differ in their places only make the same program. -/
theorem unplaced_programOf {source source' : Source} {tree tree' : List Tree} (hσ : KeepsApart σ)
    (h : tree.map (Tree.mapTokens (Token.moved σ)) =
      tree'.map (Tree.mapTokens (Token.moved id))) :
    (programOf source tree).unplaced = (programOf source' tree').unplaced := by
  have hleft := readSymbols_moved hσ tree
  have hright := readSymbols_moved keepsApart_id tree'
  rw [h, hright] at hleft
  have hforget : ∀ {τ : Position → Position} (symbols : List Block),
      (symbols.map (Block.moved τ)).map (Block.moved fun _ => .unknown) =
        symbols.map (Block.moved fun _ => .unknown) := by
    intro τ symbols
    rw [List.map_map]
    exact List.map_congr_left fun b _ => b.moved_moved
  rw [programOf, programOf]
  cases hx : readSymbols readers tree with
  | ok symbols =>
    cases hy : readSymbols readers tree' with
    | ok symbols' =>
      rw [hx, hy] at hleft
      have hsymbols := congrArg (List.map (Block.moved fun _ => .unknown)) (Except.ok.inj hleft)
      rw [hforget, hforget] at hsymbols
      show Except.ok (Block.moved _ _) = Except.ok (Block.moved _ _)
      rw [Block.moved, Block.moved, movedBlocks_eq_map, movedBlocks_eq_map, hsymbols]
      rfl
    | error e =>
      rw [hx, hy] at hleft
      cases hleft
  | error d =>
    cases hy : readSymbols readers tree' with
    | ok symbols' =>
      rw [hx, hy] at hleft
      cases hleft
    | error e =>
      rw [hx, hy] at hleft
      have hcause := (Diagnostic.mk.inj (Except.error.inj hleft)).1
      exact congrArg Except.error hcause.symm

theorem unplaced_of_layout {source source' : Source} (hs : classicLines source = .ok ls)
    (hs' : classicLines source' = .ok ms) (h : layout ls = layout ms) :
    (readProgram .classic source).unplaced = (readProgram .classic source').unplaced := by
  obtain ⟨unit, hu, hlevel⟩ := levelOf_of_classicLines hs
  obtain ⟨unit', hu', hlevel'⟩ := levelOf_of_classicLines hs'
  have hlines : List.Forall₂ (fun l m => (l ∈ ls ∧ m ∈ ms) ∧
      levelIn ls l = levelIn ms m ∧ saying l = saying m) ls ms := by
    refine List.forall₂_iff_zip.mpr ⟨by simpa [layout] using congrArg List.length h, ?_⟩
    intro l m hlm
    refine ⟨List.of_mem_zip hlm, ?_⟩
    have hboth : List.Forall₂ Eq (layout ls) (layout ms) := List.forall₂_eq_eq_eq ▸ h
    rw [layout, layout, List.forall₂_map_left_iff, List.forall₂_map_right_iff] at hboth
    exact Prod.mk.inj ((List.forall₂_iff_zip.mp hboth).2 hlm)
  have hnone : ∀ l m, (l ∈ ls ∧ m ∈ ms) ∧ levelIn ls l = levelIn ms m ∧ saying l = saying m →
      (indentation? l = none ↔ indentation? m = none) := by
    rintro l m ⟨⟨hl, hm⟩, hlev, -⟩
    rw [(hlevel l hl).2, (hlevel' m hm).2, hlev]
  have hindented : List.Forall₂ (fun l m => (marks l).length = (marks m).length) ls ms := by
    refine hlines.imp fun l m hlm => ?_
    have hsome : (indentation? l).isSome = (indentation? m).isSome := by
      rw [Bool.eq_iff_iff, Option.isSome_iff_ne_none, Option.isSome_iff_ne_none]
      exact not_congr (hnone l m hlm)
    rw [length_marks, length_marks, hlm.2.2, hsome]
  obtain ⟨hnodup, hknown⟩ := marks_of_classicLines hs
  obtain ⟨hnodup', hknown'⟩ := marks_of_classicLines hs'
  obtain ⟨σ, hσ, hmarks⟩ := exists_keepsApart hnodup hnodup' hknown hknown'
    (length_flatMap_marks hindented)
  have hcorresponds : List.Forall₂ (Corresponds σ unit unit') ls ms := by
    have hboth := List.forall₂_iff_zip.mp (forall₂_marks hindented hmarks)
    obtain ⟨hlength, hzip⟩ := List.forall₂_iff_zip.mp hlines
    refine List.forall₂_iff_zip.mpr ⟨hlength, ?_⟩
    intro l m hlm
    have hline := hzip hlm
    obtain ⟨⟨hl, hm⟩, hlev, hsay⟩ := id hline
    obtain ⟨htext, hn⟩ := hlevel l hl
    obtain ⟨htext', hn'⟩ := hlevel' m hm
    refine ⟨layLine_moved (hnone l m hline) hsay (hboth.2 hlm), levelIn ls l, htext, ?_, hn, ?_⟩
    · rw [hlev, htext']
    · rw [hlev, hn']
  rw [readProgram_classic, readProgram_classic, hs, hs']
  exact unplaced_programOf hσ (nest_corresponds hu hu' hcorresponds)

theorem saying_eq (line : List Token) :
    saying line = (line.map Token.word).filter (·.1 != .whitespace) := by
  rw [saying, List.filter_map]
  rfl

theorem indentation?_of_word (h : line.map Token.word = line'.map Token.word) :
    indentation? line = indentation? line' := by
  cases line with
  | nil =>
    obtain rfl := List.map_eq_nil_iff.mp h.symm
    rfl
  | cons t rest =>
    cases line' with
    | nil => cases h
    | cons u rest' =>
      obtain ⟨hk, ht⟩ := Prod.mk.inj (List.cons.inj h).1
      rw [indentation?, indentation?, hk, ht]

theorem unitOf_eq (lines : List (List Token)) : unitOf lines =
    (((lines.map (List.map Token.word)).flatten.find? (·.1 == .whitespace)).map (·.2)).getD "" := by
  rw [unitOf, ← List.map_flatten, List.find?_map, Option.map_map]
  rfl

/-- Lines that say the same are laid out in the same way. -/
theorem layout_of_word (h : ls.map (List.map Token.word) = ms.map (List.map Token.word)) :
    layout ls = layout ms := by
  have hunit : unitOf ls = unitOf ms := by rw [unitOf_eq, unitOf_eq, h]
  have hlines : List.Forall₂ (fun l m => l.map Token.word = m.map Token.word) ls ms := by
    rw [← List.forall₂_map_right_iff, ← List.forall₂_map_left_iff, h]
    exact List.forall₂_refl _
  have hlayout : List.Forall₂ Eq (layout ls) (layout ms) := by
    rw [layout, layout, List.forall₂_map_left_iff, List.forall₂_map_right_iff]
    refine hlines.imp fun l m hlm => ?_
    rw [levelIn, levelIn, indentWidth, indentWidth, levelOf, levelOf, indentation?_of_word hlm,
      saying_eq, saying_eq, hunit, hlm]
  exact List.forall₂_eq_eq_eq ▸ hlayout

theorem classicLines_without_comment {source source' : Source}
    (h : source'.IsWithoutComment source) :
    (classicLines source).Alike (fun ls ms => layout ls = layout ms) (classicLines source') := by
  obtain ⟨pieces, comment, after, h⟩ := h
  refine (classicTokens_without_comment h).bind fun ts us hts => ?_
  refine (indentFrom_rebroken hts none false).bind fun ts us hts => ?_
  exact layout_of_word (lines_rebroken hts)

theorem unplaced_of_alike {source source' : Source}
    (h : (classicLines source).Alike (fun ls ms => layout ls = layout ms) (classicLines source')) :
    (readProgram .classic source).unplaced = (readProgram .classic source').unplaced := by
  cases hs : classicLines source with
  | ok ls =>
    cases hs' : classicLines source' with
    | ok ms =>
      rw [hs, hs'] at h
      exact unplaced_of_layout hs hs' h
    | error e =>
      rw [hs, hs'] at h
      exact h.elim
  | error d =>
    cases hs' : classicLines source' with
    | ok ms =>
      rw [hs, hs'] at h
      exact h.elim
    | error e =>
      rw [hs, hs'] at h
      rw [readProgram_classic, readProgram_classic, hs, hs']
      exact congrArg Except.error h

theorem unplaced_without_comment {source source' : Source}
    (h : source'.IsWithoutComment source) :
    (readProgram .classic source).unplaced = (readProgram .classic source').unplaced :=
  unplaced_of_alike (classicLines_without_comment h)

end

/-- A program depends on the levels of its lines and on what their tokens say, and on nothing else:
neither on the unit of indentation, nor on places, nor on comments. -/
theorem readProgram_depends_on_layout :
    (∀ source source' ls ms, classicLines source = .ok ls → classicLines source' = .ok ms →
      layout ls = layout ms →
        (readProgram .classic source).unplaced = (readProgram .classic source').unplaced) ∧
    ∀ source source' : Source, source'.IsWithoutComment source →
      (readProgram .classic source).unplaced = (readProgram .classic source').unplaced :=
  ⟨fun _ _ _ _ => unplaced_of_layout, fun _ _ => unplaced_without_comment⟩

/-- A comment goes, and a tab comes for two blanks. -/
theorem readProgram_conditional_layout :
    let noted : Source := ⟨"", "if a#c\n  b", 0⟩
    let plain : Source := ⟨"", "if a\n  b", 0⟩
    let tabbed : Source := ⟨"", "if a\n\tb", 0⟩
    plain.IsWithoutComment noted ∧
      (readProgram .classic noted).unplaced = (readProgram .classic plain).unplaced ∧
      (∃ ls ms, classicLines plain = .ok ls ∧ classicLines tabbed = .ok ms ∧ ls ≠ ms ∧
        layout ls = layout ms) ∧
      (readProgram .classic plain).unplaced = (readProgram .classic tabbed).unplaced ∧
      (readProgram .classic tabbed).toOption.isSome = true := by
  intro noted plain tabbed
  have hcomment : plain.IsWithoutComment noted := by
    have hnoted : noted.text.toList = ['i', 'f', ' ', 'a', '#', 'c', '\n', ' ', ' ', 'b'] := by cbv
    have word : longestTail? 'i' ['f', ' ', 'a', '#', 'c', '\n', ' ', ' ', 'b'] = some 1 := by cbv
    have blank : longestTail? ' ' ['a', '#', 'c', '\n', ' ', ' ', 'b'] = some 0 := by cbv
    have name : longestTail? 'a' ['#', 'c', '\n', ' ', ' ', 'b'] = some 0 := by cbv
    have note : longestTail? '#' ['c', '\n', ' ', ' ', 'b'] = some 1 := by cbv
    refine ⟨[['i', 'f'], [' '], ['a']], ['#', 'c'], ['\n', ' ', ' ', 'b'], ?_,
      isLongestPiece_of_longestTail? note, by decide, by cbv⟩
    rw [hnoted]
    exact .piece (by simp) (isLongestPiece_of_longestTail? word)
      (.piece (by simp) (isLongestPiece_of_longestTail? blank)
        (.piece (by simp) (isLongestPiece_of_longestTail? name) .done))
  let token (source : Source) (kind : Kind) (text : String) (start stop : Nat) : Token :=
    ⟨kind, text, ⟨.within source start, .within source stop⟩⟩
  have hplain : classicLines plain = .ok
      [[token plain .keyword "if" 0 2, token plain .name "a" 3 4],
        [token plain .whitespace "  " 5 7, token plain .name "b" 7 8]] := by cbv
  have htabbed : classicLines tabbed = .ok
      [[token tabbed .keyword "if" 0 2, token tabbed .name "a" 3 4],
        [token tabbed .whitespace "\t" 5 6, token tabbed .name "b" 6 7]] := by cbv
  obtain ⟨hlayout, hcomments⟩ := readProgram_depends_on_layout
  refine ⟨hcomment, hcomments _ _ hcomment, ⟨_, _, hplain, htabbed, by decide, by cbv⟩, ?_, by cbv⟩
  exact hlayout _ _ _ _ hplain htabbed (by cbv)

end Offside
