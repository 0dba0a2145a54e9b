import Offside.Proofs.LineLayout
import Offside.Proofs.Provenance
import Offside.Proofs.Subjects

namespace Offside

/-- What stands behind a list does not change where a search ends that ends in the list. -/
theorem dropWhile_append_of_found {α : Type} {p : α → Bool} {x : α} {xs after : List α}
    (h : xs.dropWhile p = x :: after) (ys : List α) :
    (xs ++ ys).takeWhile p = xs.takeWhile p ∧ (xs ++ ys).dropWhile p = x :: (after ++ ys) := by
  have hshort : (xs.takeWhile p).length ≠ xs.length := by
    intro he
    have hsplit := congrArg List.length (List.takeWhile_append_dropWhile (p := p) (l := xs))
    rw [List.length_append, h, List.length_cons] at hsplit
    omega
  rw [List.takeWhile_append, if_neg hshort, List.dropWhile_append, h]
  exact ⟨rfl, rfl⟩

/-- The declarations do not depend on what stands behind them. -/
theorem declarations?_append {span body : List Tree} {names : List Token}
    (h : declarations? span = some (names, body)) (hne : span ≠ []) (rest : List Tree) :
    declarations? (span ++ rest) = some (names, body ++ rest) := by
  obtain ⟨first, more, rfl⟩ := List.exists_cons_of_ne_nil hne
  rw [declarations?] at h
  rw [List.cons_append, declarations?]
  by_cases ho : first.hasKind .openBracket = true
  · rw [if_pos ho] at h ⊢
    cases hd : more.dropWhile (!·.hasKind .closeBracket) with
    | nil =>
      rw [hd] at h
      cases h
    | cons closer after =>
      rw [hd] at h
      obtain ⟨rfl, rfl⟩ := Prod.mk.inj (Option.some.inj h)
      obtain ⟨htake, hdrop⟩ := dropWhile_append_of_found hd rest
      rw [htake, hdrop]
  · rw [if_neg ho] at h ⊢
    obtain ⟨rfl, rfl⟩ := Prod.mk.inj (Option.some.inj h)
    rfl

/-- Nor do they if there are none, as long as a group comes next. -/
theorem declarations?_append_groups {span body rest : List Tree} {names : List Token}
    (h : declarations? span = some (names, body))
    (hr : ∀ tree ∈ rest.head?, tree.isGroup = true) :
    declarations? (span ++ rest) = some (names, body ++ rest) := by
  cases span with
  | nil =>
    obtain ⟨rfl, rfl⟩ : [] = names ∧ [] = body := by simpa [declarations?] using h
    cases rest with
    | nil => rfl
    | cons tree rest =>
      cases tree with
      | token t => cases hr _ rfl
      | group items => rfl
  | cons first more => exact declarations?_append h (List.cons_ne_nil _ _) rest

theorem heading?_append_groups {form : BlockForm} {span header rest : List Tree} {heading : Heading}
    (h : heading? form span = some (heading, header))
    (hr : ∀ tree ∈ rest.head?, tree.isGroup = true) :
    heading? form (span ++ rest) = some (heading, header ++ rest) := by
  cases span with
  | nil => cases h
  | cons tree more =>
    cases tree with
    | group items => cases h
    | token t =>
      rw [heading?] at h
      rw [List.cons_append, heading?]
      split at h
      next hk =>
        obtain ⟨⟨names, body⟩, hd, he⟩ := Option.map_eq_some_iff.mp h
        obtain ⟨rfl, rfl⟩ := Prod.mk.inj he
        rw [if_pos hk, declarations?_append_groups hd hr]
        rfl
      next => cases h

theorem introducedBy?_of_heading? {form : BlockForm} {span header : List Tree} {heading : Heading}
    (h : heading? form span = some (heading, header)) :
    ∃ t rest, span = .token t :: rest ∧ BlockForm.introducedBy? t = some form := by
  cases span with
  | nil => cases h
  | cons tree rest =>
    cases tree with
    | group items => cases h
    | token t =>
      rw [heading?] at h
      split at h
      next hk =>
        obtain ⟨hkind, htext⟩ := Bool.and_eq_true_iff.mp hk
        refine ⟨t, rest, rfl, ?_⟩
        rw [BlockForm.introducedBy?, if_pos (by simpa using hkind), eq_of_beq htext]
        cases form <;> rfl
      next => cases h

theorem blockStep_eq_readBody {r : Readers} {form : BlockForm} {span header : List Tree}
    {heading : Heading} (h : heading? form span = some (heading, header)) :
    blockStep r span = form.readBody r heading header := by
  obtain ⟨t, rest, rfl, ht⟩ := introducedBy?_of_heading? h
  rw [blockStep, ht]
  show (readHeading form (.token t :: rest) >>= fun result =>
    form.readBody r result.1 result.2) = _
  rw [readHeading, h]
  rfl

theorem unwrap_of_token {t : Token} {span : List Tree}
    (plain : ∀ tree ∈ .token t :: span, tree.hasKind .newline = false) :
    unwrap (.token t :: span) = .token t :: span := by
  have ht : Tree.hasKind .newline (.token t) = false := plain _ List.mem_cons_self
  have hs : joinLines span = span := by
    refine List.filter_eq_self.mpr ?_
    intro tree hm
    simp [plain tree (List.mem_cons_of_mem _ hm)]
  rw [unwrap, ht, hs]
  cases span with
  | nil => rfl
  | cons next rest => rfl

theorem opensBlock_of_introducedBy? {t : Token} {form : BlockForm}
    (h : BlockForm.introducedBy? t = some form) : Tree.opensBlock (.token t) = true := by
  rw [Tree.opensBlock, Tree.block?, h]
  rfl

theorem not_opensBlock_of_introducedBy? {t : Token} (h : BlockForm.introducedBy? t = none) :
    Tree.opensBlock (.token t) = false := by
  rw [Tree.opensBlock, Tree.block?, h]
  rfl

theorem valueStep_eq_block {r : Readers} {t : Token} {form : BlockForm} {span : List Tree}
    (plain : ∀ tree ∈ .token t :: span, tree.hasKind .newline = false)
    (ht : BlockForm.introducedBy? t = some form) :
    valueStep r (.token t :: span) = Value.block <$> blockStep r (.token t :: span) := by
  rw [valueStep, unwrap_of_token plain]
  simp only [opensBlock_of_introducedBy? ht, if_true]
  rfl

theorem kind_of_introducedBy? {t : Token} {form : BlockForm}
    (h : BlockForm.introducedBy? t = some form) : t.kind = .keyword := by
  rw [BlockForm.introducedBy?] at h
  split at h
  next hk => exact hk
  next => cases h

theorem introducedBy?_eq_none {t : Token} (h : t.kind ≠ .keyword) :
    BlockForm.introducedBy? t = none :=
  if_neg h

theorem spread_cons_of_none {t : Token} {span : List Tree} (hk : t.kind ≠ .newline)
    (ht : BlockForm.introducedBy? t = none) :
    spread (.token t :: span) = (.token t :: (spread span).1, (spread span).2) := by
  rw [spread, Tree.spread, if_neg hk, ht]
  rfl

theorem regroup_cons_of_none {t : Token} {span : List Tree} (hk : t.kind ≠ .openParen)
    (ht : BlockForm.introducedBy? t = none) :
    regroup (.token t :: span) = .token t :: regroup span := by
  have hopens := not_opensBlock_of_introducedBy? ht
  have hparen : Tree.hasKind .openParen (.token t) = false := by simpa [Tree.hasKind] using hk
  rw [regroup, if_neg (by simp [hopens]), if_neg (by simp [hparen])]

theorem readSimple_eq_compound {r : Readers} {first second : Tree} {span : List Tree}
    {compound : List Tree → Outcome Value} (h : first.hasKind .openParen = false) :
    readSimple r (first :: second :: span) compound = compound (first :: second :: span) := by
  have hparens : inParens? (first :: second :: span) = none := by
    unfold inParens?
    split
    next left items right he =>
      obtain ⟨rfl, -⟩ := List.cons.inj he
      simp [h]
    next => rfl
  have hliteral : literal? (first :: second :: span) = none := by
    cases first with
    | token t => rfl
    | group items => rfl
  rw [readSimple, hliteral, hparens]

theorem shape?_of_returnWord {t : Token} {span : List Tree} (h : t.kind = .returnWord) :
    shape? (.token t :: span) = some (.returning (.token t) span) := by
  have hw : Tree.hasKind .returnWord (.token t) = true := by simp [Tree.hasKind, h]
  have hr : returning? (.token t :: span) = some (.returning (.token t) span) := by
    rw [returning?, hw]
    rfl
  simp only [shape?, ConstructForm.inOrder, ConstructForm.shape?, List.findSome?_cons, hr]

/-- Whether all of a span stands on a line, and none of it breaks lines. -/
def IsOnLine (line : List Token) (span : List Tree) : Prop :=
  ∀ tree ∈ span, ∃ t ∈ line, tree = .token t ∧ t.kind ≠ .newline

section

variable {line : List Token} {body : List (List Token)} {span : List Tree}

theorem IsOnLine.plain (h : IsOnLine line span) (run : List (List Token)) :
    ∀ tree ∈ span ++ layRun run, tree.hasKind .newline = false := by
  intro tree hm
  rcases List.mem_append.mp hm with hm | hm
  · obtain ⟨t, _, rfl, hk⟩ := h tree hm
    simpa [Tree.hasKind] using hk
  · have hg := isGroup_of_mem_layRun hm
    cases tree with
    | token t => cases hg
    | group items => rfl

end

end Offside
