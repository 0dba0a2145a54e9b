import Offside.Proofs.LineLayout
import Offside.Proofs.Relocation

namespace Offside

/-- Whether lines that are related at two levels make the same items once their tokens are changed,
are nested under these levels both or neither, and stay related in a run that is nested. -/
structure NestsAlike (f g : Token → Token)
    (related : String → String → List Token → List Token → Prop) : Prop where
  laid : ∀ {level level' line line'}, related level level' line line' →
    (layLine line).map (Tree.mapTokens f) = (layLine line').map (Tree.mapTokens g)
  nested : ∀ {level level' line line'}, related level level' line line' →
    isNestedUnder level line = isNestedUnder level' line'
  deeper : ∀ {level level' line line'}, related level level' line line' →
    isNestedUnder level line = true → ∀ {other other'}, related level level' other other' →
      isNestedUnder level other = true → related (levelOf line) (levelOf line') other other'

/-- Lines that nest alike make the same tree once their tokens are changed. -/
theorem NestsAlike.nestAt {f g : Token → Token}
    {related : String → String → List Token → List Token → Prop} (h : NestsAlike f g related)
    {level level' : String} {lines lines' : List (List Token)}
    (hlines : List.Forall₂ (related level level') lines lines') :
    (nestAt level lines).map (Tree.mapTokens f) =
      (Offside.nestAt level' lines').map (Tree.mapTokens g) := by
  fun_induction Offside.nestAt level lines generalizing level' lines' with
  | case1 =>
    cases hlines
    rw [Offside.nestAt]
    rfl
  | case2 level line lines hnested ihrun ihrest =>
    cases hlines with
    | @cons _ line' _ lines' hline hlines =>
      obtain ⟨hrun, hrest⟩ := forall₂_takeWhile hlines fun _ _ => h.nested
      have hinner := ihrun (hrun.imp fun _ _ hx => h.deeper hline hnested hx.1 hx.2)
      conv_rhs => rw [Offside.nestAt, ← h.nested hline, if_pos hnested]
      rw [List.map_cons, List.map_cons, Tree.mapTokens_group, Tree.mapTokens_group,
        List.map_append, List.map_append, h.laid hline, hinner, ihrest hrest]
  | case3 level line lines hnested ih =>
    cases hlines with
    | @cons _ line' _ lines' hline hlines =>
      have hfalse := Bool.eq_false_iff.mpr hnested
      rw [nestAt_of_not_nested ((h.nested hline).symm.trans hfalse), List.map_append,
        List.map_append, h.laid hline, ih hlines]

end Offside
