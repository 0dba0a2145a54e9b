import Mathlib.Data.List.Flatten
import Mathlib.Data.List.Infix
import Offside.Proofs.BlockSites

namespace Offside

/-- Whether one block stands anywhere inside another. -/
def Block.Encloses (around inner : Block) : Prop :=
  ∃ c ∈ (Node.block around).children, c.Holds (.block inner)

/-- Whether the keyword of a block has these tokens behind it on its line, which close no
parenthesis that is open at the keyword, and these lines nested below. -/
structure Block.Heads (lines : List (List Token)) (b : Block) (keyword : Token)
    (back : List Token) (run : List (List Token)) : Prop where
  statement : ∃ ahead, IsStatement lines (ahead ++ keyword :: back) run
  opens : BlockForm.introducedBy? keyword = some b.form
  origin : b.heading.origin = keyword.span.start
  unclosed : ∃ n, openAfter? 0 (lineTrees back) = some n

/-- Whether the keyword of a block stands on the lines nested below the line of another one. -/
def Block.StandsBelow (lines : List (List Token)) (inner around : Block) : Prop :=
  ∃ keyword back run, around.Heads lines keyword back run ∧ inner.heading.origin ∈ starts run

/-- Whether a block is another one, or takes up the lines below it and stands around the other. -/
def Block.IsOnWayTo (around b : Block) : Prop :=
  around = b ∨ around.form.TakesUp ∧ around.Encloses b

/-- Whether a site is where the keyword of a block stands among some lines. -/
def Site.IsOf (s : Site) (lines : List (List Token)) (b : Block) : Prop :=
  ∃ back run, b.Heads lines s.keyword back run ∧ s.back = lineTrees back ∧ s.below = nest run

theorem Block.Encloses.trans {b₁ b₂ b₃ : Block} (h : b₁.Encloses b₂) (h' : b₂.Encloses b₃) :
    b₁.Encloses b₃ := by
  obtain ⟨c, hc, holds⟩ := h
  obtain ⟨d, hd, holds'⟩ := h'
  exact ⟨c, hc, holds.trans (.child hd holds')⟩

theorem lineTrees_append_cons {t : Token} (ht : t.kind ≠ .whitespace) (ahead back : List Token) :
    lineTrees (ahead ++ t :: back) = lineTrees ahead ++ .token t :: lineTrees back := by
  simp [lineTrees, List.filter_append, ht]

section

variable {unit : String} {lines run : List (List Token)} {line : List Token} {b : Block}
  {keyword : Token} {back : List Token} {s : Site}

theorem leaves_nest_append (above below : List (List Token)) :
    leaves (nest (above ++ below)) = leaves (nest above) ++ leaves (nest below) := by
  rw [leaves_nest, List.flatMap_append, leaves_nest, leaves_nest]

theorem mem_leaves_nest {t : Token} (hl : line ∈ lines) (ht : t ∈ line)
    (hk : t.kind ≠ .whitespace) : t ∈ leaves (nest lines) := by
  rw [leaves_nest]
  refine List.mem_flatMap.mpr ⟨line, hl, ?_⟩
  obtain ⟨first, -, hlay⟩ := layLine_of_ne_nil (List.ne_nil_of_mem ht)
  rw [hlay, leaves, lineTrees, leaves_map_token]
  exact List.mem_append_right _ (List.mem_filter.mpr ⟨ht, by simpa using hk⟩)

theorem mem_flatten_of_mem_leaves_nest {t : Token} (h : t ∈ leaves (nest lines))
    (hk : t.kind ≠ .newline) : t ∈ lines.flatten := by
  rw [leaves_nest] at h
  obtain ⟨line, hl, ht⟩ := List.mem_flatMap.mp h
  refine List.mem_flatten.mpr ⟨line, hl, ?_⟩
  cases line with
  | nil => cases ht
  | cons first line =>
    change t ∈ Token.lineBreak first.span :: leaves (lineTrees (first :: line)) at ht
    rw [lineTrees, leaves_map_token] at ht
    rcases List.mem_cons.mp ht with rfl | ht
    · exact absurd rfl hk
    · exact (List.mem_filter.mp ht).1

theorem eq_of_start_eq {t u : Token} (nodup : (starts lines).Nodup) (ht : t ∈ lines.flatten)
    (hu : u ∈ lines.flatten) (h : t.span.start = u.span.start) : t = u :=
  List.inj_on_of_nodup_map nodup ht hu h

/-- No token stands twice in the tree of some lines, line breaks included. -/
theorem nodup_leaves_nest (hu : AreIndentedBy unit lines) (nodup : (starts lines).Nodup) :
    (leaves (nest lines)).Nodup := by
  have hlines : starts lines = lines.flatMap fun line => line.map (·.span.start) := by
    rw [starts, List.map_flatten, List.flatMap_def]
  rw [hlines] at nodup
  obtain ⟨hnodup, apart⟩ := List.nodup_flatMap.mp nodup
  rw [leaves_nest]
  refine List.nodup_flatMap.mpr ⟨?_, ?_⟩
  · intro line hl
    obtain ⟨first, -, hlay⟩ := layLine_of_ne_nil (hu.line line hl).1
    rw [hlay, leaves, lineTrees, leaves_map_token]
    refine List.nodup_cons.mpr ⟨?_, ((hnodup line hl).of_map _).filter _⟩
    intro hm
    exact (hu.line line hl).2 _ (List.mem_filter.mp hm).1 rfl
  · refine apart.imp ?_
    intro line line' hd t ht ht'
    exact hd (start_mem_of_mem_layLine ht) (start_mem_of_mem_layLine ht')

theorem Block.Heads.mem_flatten (h : b.Heads lines keyword back run) :
    keyword ∈ lines.flatten := by
  obtain ⟨ahead, hs⟩ := h.statement
  exact List.mem_flatten.mpr ⟨_, hs.isInfix.subset List.mem_cons_self, by simp⟩

theorem Block.Heads.kind_keyword (h : b.Heads lines keyword back run) :
    keyword.kind = .keyword :=
  kind_of_introducedBy? h.opens

/-- A block that is read from some lines is read from its keyword on. -/
theorem Block.Heads.eq_keyword {r : Readers} {t : Token} {rest : List Tree}
    (heads : b.Heads lines keyword back run) (nodup : (starts lines).Nodup)
    (h : blockStep r (.token t :: rest) = .ok b) (ht : t ∈ leaves (nest lines)) : t = keyword := by
  obtain ⟨body, hh, -⟩ := heading?_of_blockStep h
  obtain ⟨u, more, he, origin, -⟩ := heading?_parts hh
  obtain ⟨u', more', he', hform⟩ := introducedBy?_of_heading? hh
  obtain rfl := Tree.token.inj (List.cons.inj he).1
  obtain rfl := Tree.token.inj (List.cons.inj he').1
  have hkind : t.kind ≠ .newline := by simp [kind_of_introducedBy? hform]
  refine eq_of_start_eq nodup (mem_flatten_of_mem_leaves_nest ht hkind) heads.mem_flatten ?_
  rw [← origin, heads.origin]

theorem Block.Heads.exists_site (h : b.Heads lines keyword back run) (hu : AreIndentedBy unit lines)
    (nodup : (starts lines).Nodup) (hr : run ≠ []) :
    ∃ s : Site, s.keyword = keyword ∧ s.back = lineTrees back ∧ s.below = nest run := by
  obtain ⟨ahead, hs⟩ := h.statement
  have hmem := fun l hl => hs.isInfix.subset (a := l) hl
  have hkind : keyword.kind ≠ .whitespace := by simp [h.kind_keyword]
  obtain ⟨first, rest, rfl⟩ := List.exists_cons_of_ne_nil hr
  obtain ⟨t, -, hfirst⟩ := layLine_of_ne_nil
    (hu.line first (hmem first (List.mem_cons_of_mem _ List.mem_cons_self))).1
  refine ⟨⟨keyword, lineTrees back, nest (first :: rest), ⟨_, h.opens⟩, ?_, h.unclosed, ?_, ?_⟩,
    rfl, rfl, rfl⟩
  · intro tree hm
    obtain ⟨u, hu', rfl⟩ := List.mem_map.mp hm
    refine ⟨u, rfl, (hu.line _ (hmem _ List.mem_cons_self)).2 u ?_⟩
    simp [(List.mem_filter.mp hu').1]
  · rw [nest, nestAt_of_not_nested (not_isNestedUnder_levelOf first), hfirst, List.cons_append]
    exact ⟨_, _, rfl, rfl⟩
  · refine (nodup_leaves_nest hu nodup).sublist ?_
    obtain ⟨u, -, hline⟩ := layLine_of_ne_nil (hu.line _ (hmem _ List.mem_cons_self)).1
    have hsub := hs.isInfix.sublist.flatMap fun line => leaves (layLine line)
    rw [List.flatMap_cons, ← leaves_nest lines, ← leaves_nest (first :: rest), hline, lineTrees_append_cons hkind, leaves,
      leaves_append, leaves] at hsub
    refine List.Sublist.trans ?_ hsub
    simp only [Tree.leaves, List.append_assoc, List.cons_append]
    exact (List.sublist_append_right _ _).cons _

/-- A keyword in a tree of lines has the rest of its line and the lines below it behind it. -/
theorem IsStatement.isWholeIn (h : IsStatement lines line run) {ahead : List Token}
    (hline : line = ahead ++ s.keyword :: back) (hback : s.back = lineTrees back)
    (hbelow : s.below = nest run) : s.IsWholeIn (nest lines) := by
  have hkind : s.keyword.kind ≠ .whitespace := by simp [s.kind_keyword]
  have lay : ∀ {body : List (List Token)}, nest body ≠ [] → layRun body = [.group (nest body)] := by
    intro body hne
    cases body with
    | nil => exact absurd rfl hne
    | cons first rest => rfl
  induction h with
  | @outer lines line run mem =>
    obtain ⟨above, below, hs⟩ := List.append_of_mem mem
    obtain ⟨t, rest, hrest, -⟩ := s.broken
    have hne : nest run ≠ [] := by simp [← hbelow, hrest]
    obtain ⟨u, -, hlay⟩ := @layLine_of_ne_nil line (by simp [hline])
    rw [nest_eq, hs, List.flatMap_append, List.flatMap_cons, hlay, lay hne, hline,
      lineTrees_append_cons hkind, ← hback, ← hbelow]
    refine Site.IsWholeIn.append_left (Site.IsWholeIn.append_right ?_ _) _
    rw [List.cons_append, List.append_assoc]
    exact .behind _ ((Site.IsWholeIn.here []).append_left _)
  | @inner lines above line body run mem inside ih =>
    obtain ⟨front, after, hs⟩ := List.append_of_mem mem
    have hwhole := ih hline hbelow
    have hne : nest body ≠ [] := by
      intro he
      rw [he] at hwhole
      cases hwhole
    rw [nest_eq, hs, List.flatMap_append, List.flatMap_cons, lay hne]
    refine Site.IsWholeIn.append_left (Site.IsWholeIn.append_right ?_ _) _
    exact (Site.IsWholeIn.inside hwhole []).append_left _

theorem Site.IsOf.isWholeIn (h : s.IsOf lines b) : s.IsWholeIn (nest lines) := by
  obtain ⟨back, run, heads, hback, hbelow⟩ := h
  obtain ⟨ahead, hs⟩ := heads.statement
  exact hs.isWholeIn rfl hback hbelow

/-- The keyword of a block that stands below another one is among the lines of its site. -/
theorem Site.IsOf.keyword_mem {inner : Block} (hs : s.IsOf lines inner)
    (nodup : (starts lines).Nodup) (heads : b.Heads lines keyword back run)
    (below : inner.heading.origin ∈ starts run) : s.keyword ∈ leaves (nest run) := by
  obtain ⟨ahead, hstatement⟩ := heads.statement
  obtain ⟨line, hl, ht⟩ := exists_line_of_mem_starts below
  obtain ⟨t, ht, he⟩ := List.mem_map.mp ht
  have hline : line ∈ lines := hstatement.isInfix.subset (List.mem_cons_of_mem _ hl)
  have hsame : t = s.keyword := by
    obtain ⟨_, _, inner, -, -⟩ := hs
    refine eq_of_start_eq nodup (List.mem_flatten.mpr ⟨line, hline, ht⟩) inner.mem_flatten ?_
    rw [he, inner.origin]
  subst hsame
  exact mem_leaves_nest hl ht (by simp [s.kind_keyword])

/-- A block is read from a span that keeps its line with the lines below, if each block around it
that takes up lines does so with the blocks inside it. -/
theorem exists_blockStep_of_holds {n : Nat} {span : List Tree} {e : Block}
    (hu : AreIndentedBy unit lines) (nodup : (starts lines).Nodup)
    (h : blockStep (.below n) span = .ok e) (holds : (Node.block e).Holds (.block b))
    (within : (leaves span).Sublist (leaves (nest lines)))
    (apart : ∀ e₁ e₂, (Node.block e).Holds (.block e₁) → e₁.form.TakesUp → e₁.Encloses e₂ →
      e₂.IsOnWayTo b → e₂.StandsBelow lines e₁)
    (kept : ∀ e₁ (s : Site), (Node.block e).Holds (.block e₁) → e₁.IsOnWayTo b →
      s.IsOf lines e₁ → s.IsKeptIn span) :
    ∃ m part, blockStep (.below m) part = .ok b ∧
      (leaves part).Sublist (leaves (nest lines)) ∧
        ∀ s : Site, s.IsOf lines b → s.IsKeptIn part := by
  induction n using Nat.strong_induction_on generalizing span e with
  | _ n ih =>
    cases holds with
    | self => exact ⟨n, span, h, within, fun s hs => kept b s (.self _) (.inl rfl) hs⟩
    | @child _ c _ mem holds =>
      obtain ⟨t, rest, body, rfl, origin, hsuffix, -, hread⟩ := blockStep_parts h
      have hnodup := (nodup_leaves_nest hu nodup).sublist within
      have hbody : body <:+: .token t :: rest :=
        hsuffix.isInfix.trans (List.suffix_cons _ _).isInfix
      have hsub := leaves_sublist hbody.sublist
      -- what the block hands on keeps the same lines together
      have handed : ∀ part, e.form.HandsOn body part → ∀ e₁ (s : Site), c.Holds (.block e₁) →
          e₁.IsOnWayTo b → s.IsOf lines e₁ → s.IsKeptIn part := by
        intro part hands e₁ s hin hway hs
        refine ((kept e₁ s (.child mem hin) hway hs).of_isInfix hnodup hbody).handsOn
          (hnodup.sublist hsub) hands ?_
        intro takes hlevel
        obtain ⟨keyword, back, run, heads, hbelow⟩ :=
          apart e e₁ (.self _) takes ⟨c, mem, hin⟩ hway
        have hr : run ≠ [] := by
          rintro rfl
          cases hbelow
        obtain ⟨site, rfl, hback, hrun⟩ := heads.exists_site hu nodup hr
        obtain rfl := heads.eq_keyword nodup h (within.subset List.mem_cons_self)
        have hsite := kept e site (.self _) (.inr ⟨takes, c, mem, holds⟩)
          ⟨back, run, heads, hback, hrun⟩
        refine hsite.not_token_mem hnodup ?_ (hsuffix.subset hlevel)
        rw [hrun]
        exact hs.keyword_mem nodup heads hbelow
      obtain ⟨hsymbols, hvalues⟩ := hread.handsOn
      rcases List.mem_append.mp mem with hc | hc
      · obtain ⟨x, hx, rfl⟩ := List.mem_map.mp hc
        obtain ⟨part, hands, hpart⟩ := hsymbols x hx
        cases n with
        | zero => cases hpart
        | succ n =>
          refine ih n (Nat.lt_succ_self n) hpart holds
            ((hands.leaves_sublist.trans hsub).trans within) ?_ (handed part hands)
          exact fun e₁ e₂ hin => apart e₁ e₂ (.child mem hin)
      · obtain ⟨v, hv, rfl⟩ := List.mem_map.mp hc
        obtain ⟨part, hands, hpart⟩ := hvalues v hv
        obtain ⟨inner, x, m, hm, hreach, hx, hwithin, hholds⟩ := exists_block_of_value hpart holds
        have hinner := hreach.leaves_sublist.trans (hands.leaves_sublist.trans hsub)
        refine ih m hm hx hholds (hinner.trans within) ?_ ?_
        · exact fun e₁ e₂ hin => apart e₁ e₂ (.child mem (hwithin.trans hin))
        · intro e₁ s hin hway hs
          have hpartnodup := hnodup.sublist (hands.leaves_sublist.trans hsub)
          exact (handed part hands e₁ s (hwithin.trans hin) hway hs).reaches hpartnodup hreach

end

end Offside
