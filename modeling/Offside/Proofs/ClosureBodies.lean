import Offside.Proofs.IndentUnits
import Offside.Proofs.LineBlocks
import Offside.Proofs.ParallelNesting
import Offside.Proofs.PlacelessReading
import Offside.Proofs.ReadingEquations

namespace Offside

/-- Whether a line is another one with one more unit of indentation. A line that is indented begins
with a whitespace token that consists of whole units. -/
inductive IsDeepened (unit : String) : List Token → List Token → Prop where
  | unindented {first : Token} (rest : List Token) (plain : first.kind ≠ .whitespace)
    (place : Span) : IsDeepened unit (first :: rest) (⟨.whitespace, unit, place⟩ :: first :: rest)
  | indented (k : Nat) (rest : List Token) (place place' : Span) :
    IsDeepened unit (⟨.whitespace, repeatText (k + 1) unit, place⟩ :: rest)
      (⟨.whitespace, repeatText (k + 2) unit, place'⟩ :: rest)

/-- A line break without its place. Any other token stays as it is. -/
def Token.breakUnplaced (t : Token) : Token :=
  if t.kind = .newline then ⟨t.kind, t.text, ⟨.unknown, .unknown⟩⟩ else t

instance : KeepsKeywords Token.breakUnplaced where
  kind t := by
    rw [Token.breakUnplaced]
    split <;> rfl
  text t := by
    rw [Token.breakUnplaced]
    split <;> rfl
  start t h := by rw [Token.breakUnplaced, if_neg (by simp [h])]

section

variable {unit : String} {line line' : List Token} {lines lines' : List (List Token)}

/-- What a line is indented by, and how much further the deepened line is indented. -/
theorem IsDeepened.level (h : IsDeepened unit line line') :
    ∃ n, levelOf line = repeatText n unit ∧ levelOf line' = repeatText (n + 1) unit ∧
      (indentation? line = none ↔ n = 0) ∧ indentation? line' ≠ none := by
  cases h with
  | unindented rest plain place =>
    refine ⟨0, ?_, (repeatText_one unit).symm, ?_, by simp [indentation?]⟩
    · rw [levelOf, indentation?, if_neg plain]
      rfl
    · simp [indentation?, plain]
  | indented k rest place place' =>
    exact ⟨k + 1, rfl, rfl, by simp [indentation?], by simp [indentation?]⟩

theorem IsDeepened.layLine (h : IsDeepened unit line line') :
    (layLine line).map (Tree.mapTokens .breakUnplaced) =
      (Offside.layLine line').map (Tree.mapTokens .breakUnplaced) := by
  cases h with
  | unindented rest plain place => rfl
  | indented k rest place place' => rfl

theorem IsDeepened.isNestedUnder (hu : 0 < unit.length) (h : IsDeepened unit line line') {k : Nat}
    (hk : indentation? line = none → k = 0) :
    isNestedUnder (repeatText k unit) line =
      Offside.isNestedUnder (repeatText (k + 1) unit) line' := by
  obtain ⟨n, hl, hl', hn, hn'⟩ := h.level
  have hzero : indentation? line' = none ↔ n + 1 = 0 := by simp [hn']
  rw [isNestedUnder_repeatText hu hl hn, isNestedUnder_repeatText hu hl' hzero]
  cases n with
  | zero => simp [hk (hn.mpr rfl)]
  | succ n => simp

/-- At the outermost level an unindented line becomes one that is indented like its level. Below
that, a run of nested lines has no unindented ones. -/
theorem nestsAlike_deepened (hu : 0 < unit.length) :
    NestsAlike .breakUnplaced .breakUnplaced fun level level' line line' =>
      ∃ k, level = repeatText k unit ∧ level' = repeatText (k + 1) unit ∧
        (indentation? line = none → k = 0) ∧ IsDeepened unit line line' where
  laid := fun ⟨_, _, _, _, h⟩ => h.layLine
  nested := by
    rintro _ _ line line' ⟨k, rfl, rfl, hk, h⟩
    exact h.isNestedUnder hu hk
  deeper := by
    rintro _ _ line line' ⟨k, rfl, rfl, hk, h⟩ hnested other other' ⟨_, -, -, -, ho⟩ hother
    obtain ⟨n, hl, hl', -, -⟩ := h.level
    refine ⟨n, hl, hl', fun hnone => ?_, ho⟩
    rw [isNestedUnder, hnone] at hother
    cases hother

theorem nest_deepened (hu : 0 < unit.length)
    (hfirst : ∀ line ∈ lines.head?, indentation? line = none)
    (h : List.Forall₂ (IsDeepened unit) lines lines') :
    (nest lines).map (Tree.mapTokens .breakUnplaced) =
      (nest lines').map (Tree.mapTokens .breakUnplaced) := by
  cases h with
  | nil => rfl
  | @cons line line' _ _ hline hlines =>
    obtain ⟨n, hl, hl', hn, -⟩ := hline.level
    obtain rfl := hn.mp (hfirst line rfl)
    rw [nest, nest, hl, hl']
    refine (nestsAlike_deepened hu).nestAt ((List.Forall₂.cons hline hlines).imp fun _ _ hx => ?_)
    exact ⟨0, rfl, rfl, fun _ => rfl, hx⟩

theorem nested_of_deepened (hu : 0 < unit.length)
    (h : List.Forall₂ (IsDeepened unit) lines lines') :
    ∀ line ∈ lines', isNestedUnder "" line = true := by
  induction h with
  | nil => exact fun _ hm => (List.not_mem_nil hm).elim
  | @cons line line' _ _ hline _ ih =>
    refine List.forall_mem_cons.mpr ⟨?_, ih⟩
    obtain ⟨n, -, hl, -, hi⟩ := hline.level
    have hzero : indentation? line' = none ↔ n + 1 = 0 := by simp [hi]
    exact isNestedUnder_repeatText (k := 0) hu hl hzero

end

/-! The tree of a closure with its body below it. -/

section

variable {keyword name : Token} {lines : List (List Token)}

theorem nest_closure (hk : keyword.kind = .keyword) (hn : name.kind = .name) (hne : lines ≠ [])
    (hnested : ∀ line ∈ lines, isNestedUnder "" line = true) :
    nest ([keyword, name] :: lines) =
      [.token (.lineBreak keyword.span), .token keyword, .token name, .group (nest lines)] := by
  have hlevel : levelOf [keyword, name] = "" := by
    rw [levelOf, indentation?, if_neg (by simp [hk])]
    rfl
  have hheader : isNestedUnder "" [keyword, name] = false := by
    rw [← hlevel]
    exact not_isNestedUnder_levelOf _
  rw [nest, hlevel, nestAt_cons hheader, List.takeWhile_eq_self_iff.mpr hnested,
    List.dropWhile_eq_nil_iff.mpr hnested, nestAt]
  cases lines with
  | nil => exact absurd rfl hne
  | cons line lines => simp [layLine, layRun, hk, hn]

/-- The blocks of a closure are read as those of a program are. -/
theorem readSymbols_closure (hk : keyword.kind = .keyword)
    (ht : keyword.text = BlockForm.closure.keyword) (hn : name.kind = .name) (place : Span)
    (body : List Tree) :
    readSymbols readers [.token (.lineBreak place), .token keyword, .token name, .group body] =
      readSymbols readers body >>= fun symbols =>
        pure [.closure ⟨[], keyword.span.start⟩ name.text symbols] := by
  have hheading : heading? .closure [.token keyword, .token name, .group body] =
      some (⟨[], keyword.span.start⟩, [.token name, .group body]) := by
    simp [heading?, hk, ht, declarations?, Tree.hasKind, hn]
  have hblock : readers.block [.token keyword, .token name, .group body] =
      readSymbols readers body >>= fun symbols =>
        pure (.closure ⟨[], keyword.span.start⟩ name.text symbols) := by
    change readBlock [.token keyword, .token name, .group body] = _
    rw [readBlock_eq, blockStep_eq_readBody hheading]
    have hparts : headerAndBody [.token name, .group body] = ([.token name], [.group body]) := rfl
    have hname : soleName? [.token name] = some name.text := by
      simp [soleName?, Tree.name?, hn]
    have hbody : ungroup [.group body] = body := List.append_nil body
    rw [BlockForm.readBody, hparts]
    dsimp only
    rw [hname, hbody]
  have hparts : (splitWhere (Tree.hasKind .newline)
      [.token (.lineBreak place), .token keyword, .token name, .group body]).filter (!·.isEmpty) =
        [[.token keyword, .token name, .group body]] := by
    simp [splitWhere, sections, Tree.hasKind, Token.lineBreak, hk, hn]
  rw [readSymbols, hparts, List.mapM_cons, List.mapM_nil, hblock, bind_assoc]
  rfl

end

theorem Outcome.Alike.of_common {α β γ : Type} {related : α → γ → Prop} {related' : β → γ → Prop}
    {common : α → β → Prop} {x : Outcome α} {y : Outcome β} {z : Outcome γ}
    (hx : x.Alike related z) (hy : y.Alike related' z)
    (h : ∀ {a b c}, related a c → related' b c → common a b) : x.Alike common y := by
  cases z with
  | ok c =>
    cases x with
    | ok a =>
      cases y with
      | ok b => exact h hx hy
      | error e => exact hy.elim
    | error d => exact hx.elim
  | error f =>
    cases x with
    | ok a => exact hx.elim
    | error d =>
      cases y with
      | ok b => exact hy.elim
      | error e => exact Eq.trans hx (Eq.symm hy)

theorem forall₂_same_of_common {bs cs ds : List Block}
    (h : List.Forall₂ (fun b d => b.same d = true) bs ds)
    (h' : List.Forall₂ (fun c d => c.same d = true) cs ds) :
    List.Forall₂ (fun b c => b.same c = true) bs cs := by
  induction h generalizing cs with
  | nil =>
    cases h'
    exact .nil
  | cons hb _ ih =>
    cases h' with
    | cons hc hcs => exact .cons (Outline.same_trans hb (Outline.same_symm hc)) (ih hcs)

/-- A closure's body is a program of its own: indented by one more unit below the line of a closure,
the lines of a program are read to that closure with the same blocks in it, or they are refused for
the same cause. -/
theorem programOf_closure {unit : String} (hu : 0 < unit.length) {keyword name : Token}
    (hk : keyword.kind = .keyword) (ht : keyword.text = BlockForm.closure.keyword)
    (hn : name.kind = .name) {lines lines' : List (List Token)} (hne : lines ≠ [])
    (hfirst : ∀ line ∈ lines.head?, indentation? line = none)
    (h : List.Forall₂ (IsDeepened unit) lines lines') (source source' : Source) :
    (programOf source (nest lines)).Alike
      (fun program program' => ∃ symbols,
        program'.symbols = [.closure ⟨[], keyword.span.start⟩ name.text symbols] ∧
          List.Forall₂ (fun b c => b.same c = true) program.symbols symbols)
      (programOf source' (nest ([keyword, name] :: lines'))) := by
  have hne' : lines' ≠ [] := by
    rintro rfl
    cases h
    exact hne rfl
  have hsame : (readSymbols readers (nest lines)).Alike
      (List.Forall₂ fun b c => b.same c = true) (readSymbols readers (nest lines')) := by
    have hleft := @readSymbols_sameness .breakUnplaced _ (nest lines)
    have hright := @readSymbols_sameness .breakUnplaced _ (nest lines')
    rw [nest_deepened hu hfirst h] at hleft
    exact hleft.of_common hright forall₂_same_of_common
  rw [programOf, programOf, nest_closure hk hn hne' (nested_of_deepened hu h),
    readSymbols_closure hk ht hn, bind_assoc]
  refine hsame.bind fun symbols symbols' hsymbols => ?_
  exact ⟨symbols', rfl, hsymbols⟩

/-- A closure with an import in it, as a program and in the body of another closure. -/
theorem programOf_closure_of_closure :
    let token (kind : Kind) (text : String) : Token := ⟨kind, text, ⟨.unknown, .unknown⟩⟩
    let keyword := token .keyword "closure"
    let outer := token .name "outer"
    let inner := [keyword, token .name "inner"]
    let body := [token .keyword "import", token .name "a"]
    let lines := [inner, token .whitespace " " :: body]
    let lines' := [token .whitespace " " :: inner, token .whitespace "  " :: body]
    let source : Source := ⟨"", "", 0⟩
    lines ≠ [] ∧ (∀ line ∈ lines.head?, indentation? line = none) ∧
      List.Forall₂ (IsDeepened " ") lines lines' ∧
      ∃ program program' symbols, programOf source (nest lines) = .ok program ∧
        programOf source (nest ([keyword, outer] :: lines')) = .ok program' ∧
        program.symbols.length = 1 ∧
        program'.symbols = [.closure ⟨[], .unknown⟩ "outer" symbols] ∧
        List.Forall₂ (fun b c => b.same c = true) program.symbols symbols := by
  intro token keyword outer inner body lines lines' source
  have hne : lines ≠ [] := by simp [lines]
  have hfirst : ∀ line ∈ lines.head?, indentation? line = none := by
    rintro _ ⟨⟩
    rfl
  have hdeepened : List.Forall₂ (IsDeepened " ") lines lines' :=
    .cons (.unindented _ (by decide) _) (.cons (.indented 0 _ _ _) .nil)
  have hbody : nest [token .whitespace " " :: body] =
      .token (.lineBreak ⟨.unknown, .unknown⟩) :: body.map .token := by
    rw [nest, nestAt_of_not_nested (not_isNestedUnder_levelOf _), nestAt]
    rfl
  have htree : nest lines = _ := nest_closure rfl rfl (by simp) (by decide)
  have hread : programOf source (nest lines) = .ok (.closure ⟨[], source.start⟩ "main"
      [.closure ⟨[], .unknown⟩ "inner" [.imports ⟨[], .unknown⟩ [token .name "a"]]]) := by
    rw [htree, hbody]
    rfl
  have halike := @programOf_closure " " (by decide) keyword outer rfl rfl rfl lines lines' hne
    hfirst hdeepened source source
  rw [hread] at halike
  refine ⟨hne, hfirst, hdeepened, ?_⟩
  cases hread' : programOf source (nest ([keyword, outer] :: lines')) with
  | ok program' =>
    rw [hread'] at halike
    obtain ⟨symbols, hsymbols, hsame⟩ := halike
    exact ⟨_, program', symbols, hread, rfl, rfl, hsymbols, hsame⟩
  | error d =>
    rw [hread'] at halike
    exact halike.elim

end Offside
