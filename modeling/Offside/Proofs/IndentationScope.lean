import Mathlib
import Offside.Proofs.LineSites

namespace Offside

/-- The lines of a source as they are nested. -/
def classicLines (source : Source) : Outcome (List (List Token)) := do
  let tokens ← classicTokens source
  let indented ← indent tokens
  return lines indented

/-- Whether a closure, or a sequence, is divided behind these statements below its line. A sequence
is, if the brackets behind its declarations and on the lines of the statements are closed there. -/
def Block.DividesAfter (b : Block) (keyword : Token) (back : List Token)
    (before : List (List Token × List (List Token))) : Prop :=
  b.form = .closure ∨ b.form = .sequence ∧ ∃ heading header,
    heading? .sequence (lineTrees (keyword :: back)) = some (heading, header) ∧
      IsBalanced (header ++ before.flatMap fun s => lineTrees s.1)

/-- Whether a line is read apart from a block above it: it is an outermost line, or a closure or a
sequence around the block is divided in front of it. Blocks that take up lines are in the way, unless
each stands on the lines below the one around it. -/
inductive BeginsApart (lines : List (List Token)) (program x : Block) (line : List Token) : Prop where
  | outermost {run : List (List Token)} (mem : (line, run) ∈ statements lines) :
    BeginsApart lines program x line
  | divided {b : Block} {keyword : Token} {back : List Token} {run own : List (List Token)}
    {before after : List (List Token × List (List Token))} (within : program.Encloses b)
    (around : b.Encloses x)
    (apart : ∀ e₁ e₂ : Block, program.Encloses e₁ → e₁.form.TakesUp → e₁.Encloses e₂ →
      e₂.IsOnWayTo b → e₂.StandsBelow lines e₁)
    (heads : b.Heads lines keyword back run)
    (among : statements run = before ++ (line, own) :: after)
    (divides : b.DividesAfter keyword back before) :
    BeginsApart lines program x line

section

variable {unit : String} {lines run : List (List Token)} {line : List Token} {x : Block}

theorem classicLines_of_readProgram {source : Source} {program : Block}
    (h : readProgram .classic source = .ok program) :
    ∃ lines, classicLines source = .ok lines ∧
      readSymbols readers (nest lines) = .ok program.symbols ∧ program.values = [] := by
  obtain ⟨tree, htree, h⟩ := bind_eq_ok.mp h
  obtain ⟨tokens, htokens, htree⟩ := bind_eq_ok.mp htree
  obtain ⟨indented, hindented, htree⟩ := bind_eq_ok.mp htree
  obtain rfl := Except.ok.inj htree
  obtain ⟨symbols, hsymbols, h⟩ := bind_eq_ok.mp h
  obtain rfl := Except.ok.inj h
  refine ⟨lines indented, ?_, hsymbols, rfl⟩
  exact bind_eq_ok.mpr ⟨tokens, htokens, bind_eq_ok.mpr ⟨indented, hindented, rfl⟩⟩

/-- The lines of a source are indented by whole units, and no two of their tokens begin at the
same place. -/
theorem layout_of_classicLines {source : Source} (h : classicLines source = .ok lines) :
    (∃ unit, AreIndentedBy unit lines) ∧ LeastFirst lines ∧ (starts lines).Nodup := by
  obtain ⟨tokens, htokens, h⟩ := bind_eq_ok.mp h
  obtain ⟨indented, hindented, h⟩ := bind_eq_ok.mp h
  obtain rfl := Except.ok.inj h
  obtain ⟨unit, hu⟩ := indent_keepsUnit (text_length_pos_of_classicTokens htokens) hindented
  refine ⟨⟨unit, hu.areIndentedBy⟩, hu.leastFirst, ?_⟩
  have hs := (flatten_lines_sublist indented).map (·.span.start)
  exact (nodup_classicTokens htokens).sublist (hs.trans (indentFrom_starts hindented))

end

section

variable {unit : String} {lines up down : List (List Token)} {next : List Token}
  {program x : Block}

theorem isBalanced_statements {header : List Tree} {before : List (List Token × List (List Token))}
    (h : IsBalanced (header ++ before.flatMap fun s => lineTrees s.1)) :
    IsBalanced (header ++ before.flatMap fun s => layLine s.1 ++ layRun s.2) := by
  have line : ∀ (l : List Token) (depth : Depth),
      (layLine l).foldl Depth.after depth = (lineTrees l).foldl Depth.after depth := by
    intro l depth
    cases l <;> rfl
  have run : ∀ (r : List (List Token)) (depth : Depth),
      (layRun r).foldl Depth.after depth = depth := by
    intro r depth
    cases r <;> rfl
  have all : ∀ depth : Depth, (before.flatMap fun s => layLine s.1 ++ layRun s.2).foldl
      Depth.after depth = (before.flatMap fun s => lineTrees s.1).foldl Depth.after depth := by
    intro depth
    clear h
    induction before generalizing depth with
    | nil => rfl
    | cons s before ih =>
      rw [List.flatMap_cons, List.flatMap_cons, List.foldl_append, List.foldl_append,
        List.foldl_append, line, run, ih]
  rw [IsBalanced, List.foldl_append] at h ⊢
  rw [all, h]

theorem nest_of_statements {before after : List (List Token × List (List Token))}
    {own : List (List Token)} {mark : Token} (hs : statements lines = before ++ (next, own) :: after)
    (hlay : layLine next = .token mark :: lineTrees next) :
    ∃ lower, nest lines =
      (before.flatMap fun s => layLine s.1 ++ layRun s.2) ++ .token mark :: lower := by
  rw [nest_eq, hs, List.flatMap_append, List.flatMap_cons, hlay, List.cons_append, List.cons_append]
  exact ⟨_, rfl⟩

theorem exists_mark (hne : next ≠ []) (down : List (List Token)) :
    ∃ mark behind, layLine next = .token mark :: lineTrees next ∧ mark.kind = .newline ∧
      leaves (nest (next :: down)) = mark :: behind := by
  obtain ⟨u, -, hlay⟩ := layLine_of_ne_nil hne
  have hleaves := leaves_nest (next :: down)
  rw [List.flatMap_cons, hlay] at hleaves
  exact ⟨_, _, hlay, rfl, hleaves⟩

/-- What a program encloses is in one of its symbols, each of which is read from a line break to the
next. -/
theorem Block.Encloses.exists_symbol (h : program.Encloses x) (hvalues : program.values = [])
    (hsymbols : readSymbols readers (nest lines) = .ok program.symbols) :
    ∃ c part, c ∈ program.symbols ∧ (Node.block c).Holds (.block x) ∧
      part ∈ splitWhere (·.hasKind .newline) (nest lines) ∧ readBlock part = .ok c := by
  obtain ⟨n, hn, holds⟩ := h
  rw [Node.children, hvalues, List.map_nil, List.append_nil] at hn
  obtain ⟨c, hc, rfl⟩ := List.mem_map.mp hn
  obtain ⟨part, hpart, hread⟩ := exists_of_mem_mapM hsymbols c hc
  exact ⟨c, part, hc, holds, (List.mem_filter.mp hpart).1, hread⟩

/-- What a block hands on comes from one side of a line that it is divided in front of. -/
theorem Block.DividesAfter.sides {b : Block} {s : Site} {back : List Token} {mark : Token}
    {ahead behind : List Token} {before : List (List Token × List (List Token))}
    {rest body part lower : List Tree}
    (divides : b.DividesAfter s.keyword back before) (hback : s.back = lineTrees back)
    (below : s.below = (before.flatMap fun s => layLine s.1 ++ layRun s.2) ++ .token mark :: lower)
    (newline : mark.kind = .newline) (nodup : (ahead ++ mark :: behind).Nodup)
    (line : (s.keyword :: leaves s.back).Sublist ahead)
    (within : (leaves (.token s.keyword :: rest)).Sublist (ahead ++ mark :: behind))
    (kept : s.IsKeptIn (.token s.keyword :: rest))
    (hh : heading? b.form (.token s.keyword :: rest) = some (b.heading, body))
    (hands : b.form.HandsOn body part) :
    (leaves part).Sublist ahead ∨ (leaves part).Sublist behind := by
  rcases divides with hform | ⟨hform, heading, header, opens, balanced⟩
  · rw [hform] at hh hands
    obtain ⟨t, more, he, -, hsuffix, -⟩ := heading?_parts hh
    obtain ⟨-, rfl⟩ := List.cons.inj he
    exact kept.closure_divided below newline nodup line within hsuffix hands
  · rw [hform] at hh hands
    have hline : lineTrees (s.keyword :: back) = .token s.keyword :: s.back := by
      rw [hback]
      exact lineTrees_append_cons (by simp [s.kind_keyword]) [] back
    rw [hline] at opens
    exact kept.sequence_divided below newline nodup line within opens
      (isBalanced_statements balanced) hh hands

/-- What is around a block comes from one side of a line that begins apart from it. -/
theorem BeginsApart.sides (h : BeginsApart (up ++ next :: down) program x next)
    (hu : AreIndentedBy unit (up ++ next :: down)) (nodup : (starts (up ++ next :: down)).Nodup)
    (hsymbols : readSymbols readers (nest (up ++ next :: down)) = .ok program.symbols)
    (hvalues : program.values = []) (hx : program.Encloses x) :
    ∃ (c : Node) (ts : List Token), c.IsFrom ts ∧ c.Holds (.block x) ∧
      (ts.Sublist (leaves (nest up)) ∨ ts.Sublist (leaves (nest (next :: down)))) := by
  have hnodup := nodup_leaves_nest hu nodup
  obtain ⟨mark, behind, hlay, newline, hdown⟩ :=
    exists_mark (hu.line next (List.mem_append_right _ List.mem_cons_self)).1 down
  have hleaves : leaves (nest (up ++ next :: down)) = leaves (nest up) ++ mark :: behind := by
    rw [leaves_nest_append, hdown]
  have hbehind : ∀ {ts : List Token}, ts.Sublist behind →
      ts.Sublist (leaves (nest (next :: down))) := by
    intro ts hs
    rw [hdown]
    exact hs.cons mark
  rw [hleaves] at hnodup
  cases h with
  | outermost mem =>
    obtain ⟨c, part, -, holds, hpart, hread⟩ := hx.exists_symbol hvalues hsymbols
    refine ⟨_, _, readers_sound.block _ _ hread, holds, ?_⟩
    obtain ⟨before, after, hs⟩ := List.append_of_mem mem
    obtain ⟨lower, hnest⟩ := nest_of_statements hs hlay
    have hwhole := List.Sublist.refl (leaves (nest (up ++ next :: down)))
    conv at hwhole => lhs; rw [hnest, leaves_append, leaves]
    rw [hleaves] at hwhole
    obtain ⟨hahead, hlower⟩ := sublist_sides hwhole hnodup
    rw [hnest, splitWhere_append (by simp [Tree.hasKind, newline])] at hpart
    rcases List.mem_append.mp hpart with hpart | hpart
    · exact .inl ((leaves_sublist (isInfix_of_mem_splitWhere hpart).sublist).trans hahead)
    · exact .inr (hbehind ((leaves_sublist (isInfix_of_mem_splitWhere hpart).sublist).trans hlower))
  | @divided b keyword back run own before after within around apart heads among divides =>
    have hr : run ≠ [] := by
      rintro rfl
      simp [statements] at among
    obtain ⟨s, rfl, hback, hbelow⟩ := heads.exists_site hu nodup hr
    have hsite : s.IsOf (up ++ next :: down) b := ⟨back, run, heads, hback, hbelow⟩
    obtain ⟨lower, hnest⟩ := nest_of_statements among hlay
    have hline : (s.keyword :: leaves s.back).Sublist (leaves (nest up)) :=
      hsite.isWholeIn.line_sublist (hbelow.trans hnest) hleaves hnodup
    obtain ⟨c, part, hc, holds, hpart, hread⟩ := within.exists_symbol hvalues hsymbols
    have hinfix := isInfix_of_mem_splitWhere hpart
    obtain ⟨m, span, hb, hsub, kept⟩ := exists_blockStep_of_holds hu nodup hread holds
      (leaves_sublist hinfix.sublist)
      (fun e₁ e₂ hin => apart e₁ e₂ ⟨_, List.mem_append_left _ (List.mem_map.mpr ⟨c, hc, rfl⟩), hin⟩)
      (fun e₁ s _ _ hs => Site.IsKeptIn.of_isInfix (fun _ => .inl hs.isWholeIn)
        (nodup_leaves_nest hu nodup) hinfix)
    obtain ⟨body, hh, hbody⟩ := heading?_of_blockStep hb
    obtain ⟨t, rest, rfl, -⟩ := heading?_parts hh
    obtain rfl := heads.eq_keyword nodup hb (hsub.subset List.mem_cons_self)
    obtain ⟨n, hn, hx⟩ := around
    obtain ⟨part, hands, hfrom⟩ := hbody.exists_handsOn (below_sound m) hn
    rw [hleaves] at hsub
    rw [hnest] at hbelow
    exact ⟨n, _, hfrom, hx, (divides.sides hback hbelow newline hnodup hline hsub
      (kept s hsite) hh hands).imp_right hbehind⟩

end

end Offside
