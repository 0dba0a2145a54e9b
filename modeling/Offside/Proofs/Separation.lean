import Offside.Proofs.Division
import Offside.Proofs.LineBlocks
import Offside.Proofs.TokenStarts

namespace Offside

section

variable {kinds : List Kind} {xs ys : List Tree}

theorem IsBalanced.append_layRun (h : IsBalanced xs) (run : List (List Token)) :
    IsBalanced (xs ++ layRun run) := by
  rw [IsBalanced, List.foldl_append, h]
  cases run with
  | nil => rfl
  | cons line run => rfl

/-- The parts of statements that stand side by side are those of each. -/
theorem partsBetween_flatMap {ss : List (List Token × List (List Token))}
    (hk : kinds.contains .newline = true) (front : IsBalanced xs)
    (balanced : ∀ s ∈ ss, s.1 ≠ [] ∧ IsBalanced (lineTrees s.1)) :
    partsBetween kinds (xs ++ ss.flatMap fun s => layLine s.1 ++ layRun s.2) =
      partsBetween kinds xs ++ ss.flatMap fun s => partsBetween kinds (statementSpan s) := by
  induction ss generalizing xs with
  | nil => rw [List.flatMap_nil, List.flatMap_nil, List.append_nil, List.append_nil]
  | cons s ss ih =>
    obtain ⟨hne, hs⟩ := balanced s List.mem_cons_self
    obtain ⟨t, _, hl⟩ := layLine_of_ne_nil hne
    have hrest := ih (hs.append_layRun s.2) fun s' h' => balanced s' (List.mem_cons_of_mem _ h')
    rw [List.flatMap_cons, hl, List.cons_append, List.cons_append,
      partsBetween_append (t := .lineBreak t.span) front hk rfl, List.flatMap_cons]
    exact congrArg _ hrest

end

theorem valueStep_of_blockStep {r : Readers} {span : List Tree} {b : Block}
    (plain : ∀ tree ∈ span, tree.hasKind .newline = false) (h : blockStep r span = .ok b) :
    valueStep r span = .ok (.block b) := by
  cases span with
  | nil => cases h
  | cons tree rest =>
    cases tree with
    | group items => cases h
    | token t =>
      cases ht : BlockForm.introducedBy? t with
      | none =>
        rw [blockStep, ht] at h
        cases h
      | some form =>
        rw [valueStep_eq_block plain ht, h]
        rfl

section

variable {unit : String} {line : List Token} {body : List (List Token)} {header : List Tree}
  {s : List Token × List (List Token)}

theorem isOnLine_lineTrees (h : ∀ t ∈ line, t.kind ≠ .newline) : IsOnLine line (lineTrees line) := by
  intro tree hm
  obtain ⟨t, ht, rfl⟩ := List.mem_map.mp hm
  have hl := (List.mem_filter.mp ht).1
  exact ⟨t, hl, rfl, h t hl⟩

theorem isOnLine_of_mem_statements (hu : AreIndentedBy unit body) (hs : s ∈ statements body) :
    IsOnLine s.1 (lineTrees s.1) :=
  isOnLine_lineTrees (hu.line s.1 ((isInfix_of_mem_statements hs).subset List.mem_cons_self)).2

theorem partsBetween_statementSpan (hu : AreIndentedBy unit body) (hs : s ∈ statements body)
    (undivided : topIndex? [.comma] (lineTrees s.1) = none) :
    partsBetween [.comma, .newline] (statementSpan s) = [statementSpan s] := by
  apply partsBetween_of_plain
  intro item hm
  rw [statementSpan, depths_append] at hm
  rcases List.mem_append.mp hm with hm | hm
  · have hcomma := List.findIdx?_eq_none_iff.mp undivided item hm
    obtain ⟨t, _, ht, hk⟩ := isOnLine_of_mem_statements hu hs item.1 (mem_of_mem_depths hm)
    obtain ⟨tree, depth⟩ := item
    obtain rfl : tree = .token t := ht
    simp only [separator?, Token.hasKindIn] at hcomma ⊢
    simp_all
  · have hg := isGroup_of_mem_layRun (mem_of_mem_depths hm)
    obtain ⟨tree, depth⟩ := item
    cases tree with
    | token t => cases hg
    | group items => rfl

theorem unwrap_nest_of_sole (hu : AreIndentedBy unit body) (sole : statements body = [s]) :
    unwrap (nest body) = unwrap (statementSpan s) := by
  have hs : s ∈ statements body := by
    rw [sole]
    exact List.mem_cons_self
  have hmem := (isInfix_of_mem_statements hs).subset List.mem_cons_self
  obtain ⟨t, _, hl⟩ := layLine_of_ne_nil (hu.line s.1 hmem).1
  rw [nest_eq, sole, List.flatMap_singleton, hl, List.cons_append, unwrap]
  rfl

theorem unwrap_layRun (hb : body ≠ []) : unwrap (layRun body) = unwrap (nest body) := by
  cases body with
  | nil => exact absurd rfl hb
  | cons first body =>
    rw [layRun, unwrap]
    rfl

theorem headerAndBody_append_layRun (on : IsOnLine line header) (run : List (List Token)) :
    headerAndBody (header ++ layRun run) = (header, layRun run) := by
  have hheader : ∀ tree ∈ header, (!tree.isGroup) = true := by
    intro tree hm
    obtain ⟨t, _, rfl, _⟩ := on tree hm
    rfl
  have hrun : ∀ tree ∈ layRun run, ¬(!tree.isGroup) = true := by
    intro tree hm
    simp [isGroup_of_mem_layRun hm]
  rw [headerAndBody, List.span_eq_takeWhile_dropWhile, List.takeWhile_append_of_pos hheader,
    List.dropWhile_append_of_pos hheader]
  cases hl : layRun run with
  | nil => rw [List.takeWhile_nil, List.dropWhile_nil, List.append_nil]
  | cons tree rest =>
    have hneg := hrun tree (hl ▸ List.mem_cons_self)
    rw [List.takeWhile_cons_of_neg (p := fun tree : Tree => !tree.isGroup) hneg,
      List.dropWhile_cons_of_neg (p := fun tree : Tree => !tree.isGroup) hneg, List.append_nil]

end

end Offside
