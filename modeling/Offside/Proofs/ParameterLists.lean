import Offside.Proofs.FormPriority
import Offside.Proofs.FunctionBodies
import Offside.Proofs.MatchingParens
import Offside.Proofs.TokenUse

namespace Offside

/-- Whether some tokens are names with single commas between them, or nothing. -/
inductive IsNameList : List Token → List String → Prop where
  | none : IsNameList [] []
  | series (series : Series) : IsNameList series.tokens (series.names.map (·.text))

/-- Whether among some tokens no comma stands first, last or next to another comma, and no two names
stand next to each other. -/
structure HasProperCommas (tokens : List Token) : Prop where
  first : ∀ t ∈ tokens.head?, t.kind ≠ .comma
  last : ∀ t ∈ tokens.getLast?, t.kind ≠ .comma
  apart : tokens.IsChain fun a b =>
    (a.kind = .comma → b.kind ≠ .comma) ∧ (a.kind = .name → b.kind ≠ .name)

/-- The names among some tokens. -/
def namesAmong (tokens : List Token) : List String :=
  (tokens.filter (·.kind == .name)).map (·.text)

section

variable {tokens inner : List Token} {names : List String} {clauses : List (Token × List Tree)}
  {opener closer arrow t : Token}

theorem Series.names_eq (series : Series) : series.names.map (·.text) = namesAmong series.tokens := by
  obtain ⟨first, others⟩ := series
  have hothers : (others.map (·.2.token)).map (·.text) =
      namesAmong (others.flatMap fun other => [other.1.token, other.2.token]) := by
    induction others with
    | nil => rfl
    | cons other others ih =>
      have hcomma := other.1.isKind
      have hname := other.2.isKind
      simpa [namesAmong, hcomma, hname] using ih
  have hfirst := first.isKind
  simpa [namesAmong, Series.names, Series.tokens, hfirst] using hothers

theorem IsNameList.names_eq (h : IsNameList tokens names) : names = namesAmong tokens := by
  cases h with
  | none => rfl
  | series series => exact series.names_eq

theorem IsNameList.kind_of_mem (h : IsNameList tokens names) (ht : t ∈ tokens) :
    t.kind = .name ∨ t.kind = .comma := by
  cases h with
  | none => cases ht
  | series series => exact Series.kind_of_mem ht

/-- A name and a comma can be put before a list that is not empty. -/
theorem IsNameList.cons (h : IsNameList tokens names) (hne : tokens ≠ []) {name comma : Token}
    (hname : name.kind = .name) (hcomma : comma.kind = .comma) :
    IsNameList (name :: comma :: tokens) (name.text :: names) := by
  cases h with
  | none => exact absurd rfl hne
  | series series =>
    exact .series ⟨⟨name, hname⟩, (⟨comma, hcomma⟩, series.first) :: series.others⟩

/-- Names and commas make up a list of names if the commas stand where they should. -/
theorem exists_isNameList {tokens : List Token}
    (hkinds : ∀ t ∈ tokens, t.kind = .name ∨ t.kind = .comma) (h : HasProperCommas tokens) :
    ∃ names, IsNameList tokens names := by
  match tokens with
  | [] => exact ⟨[], .none⟩
  | [name] =>
    have hname : name.kind = .name := (hkinds name (by simp)).resolve_right (h.first name (by simp))
    exact ⟨_, .series ⟨⟨name, hname⟩, []⟩⟩
  | [first, comma] =>
    have hcomma := h.last comma (by simp)
    have hname := h.first first (by simp)
    have hkind := (hkinds comma (by simp)).resolve_right hcomma
    have hapart := (List.isChain_cons_cons.mp h.apart).1.2
    exact absurd hkind (hapart ((hkinds first (by simp)).resolve_right hname))
  | first :: comma :: next :: tokens =>
    obtain ⟨hapart, hchain⟩ := List.isChain_cons_cons.mp h.apart
    obtain ⟨hapart', hchain'⟩ := List.isChain_cons_cons.mp hchain
    have hname : first.kind = .name :=
      (hkinds first (by simp)).resolve_right (h.first first (by simp))
    have hcomma : comma.kind = .comma := (hkinds comma (by simp)).resolve_left (hapart.2 hname)
    have hproper : HasProperCommas (next :: tokens) := by
      refine ⟨?_, ?_, hchain'⟩
      · intro t ht
        obtain rfl : next = t := by simpa using ht
        exact hapart'.1 hcomma
      · intro t ht
        exact h.last t (by simpa using ht)
    have hrest : ∀ t ∈ next :: tokens, t.kind = .name ∨ t.kind = .comma := fun t ht =>
      hkinds t (List.mem_cons_of_mem _ (List.mem_cons_of_mem _ ht))
    obtain ⟨names, hnames⟩ := exists_isNameList hrest hproper
    exact ⟨_, hnames.cons (by simp) hname hcomma⟩

theorem IsNameList.hasProperCommas (h : IsNameList tokens names) : HasProperCommas tokens := by
  cases h with
  | none => exact ⟨by simp, by simp, .nil⟩
  | series series =>
    obtain ⟨first, others⟩ := series
    induction others generalizing first with
    | nil =>
      have hfirst := first.isKind
      refine ⟨?_, ?_, .singleton _⟩ <;> simp [Series.tokens, hfirst]
    | cons other others ih =>
      obtain ⟨comma, next⟩ := other
      have hfirst := first.isKind
      have hcomma := comma.isKind
      have hnext := next.isKind
      have hrest := ih next
      refine ⟨?_, ?_, ?_⟩
      · simp [Series.tokens, hfirst]
      · intro t ht
        exact hrest.last t (by simpa [Series.tokens] using ht)
      · have hchain := hrest.apart
        simp only [Series.tokens, List.flatMap_cons, List.cons_append, List.nil_append] at hchain ⊢
        refine .cons_cons ⟨?_, ?_⟩ (.cons_cons ⟨?_, ?_⟩ hchain) <;> simp [hfirst, hcomma, hnext]

/-- A list of names is told by the kinds of its tokens and by the places of its commas. -/
theorem isNameList_iff : IsNameList tokens names ↔
    (∀ t ∈ tokens, t.kind = .name ∨ t.kind = .comma) ∧ HasProperCommas tokens ∧
      names = namesAmong tokens := by
  constructor
  · intro h
    exact ⟨fun t ht => h.kind_of_mem ht, h.hasProperCommas, h.names_eq⟩
  · rintro ⟨hkinds, hproper, rfl⟩
    obtain ⟨names, hnames⟩ := exists_isNameList hkinds hproper
    exact hnames.names_eq ▸ hnames

/-! The parameters of a lambda: what stands between commas is a name. -/

theorem exists_mark_of_soleName? {part : List Tree} {text : String} (h : soleName? part = some text) :
    ∃ name : Mark .name, part = [.token name.token] ∧ text = name.token.text := by
  match part with
  | [] => cases h
  | [.group items] => cases h
  | [.token t] =>
    obtain ⟨u, hu, htext⟩ := Option.map_eq_some_iff.mp h
    rw [Tree.name?] at hu
    by_cases hkind : t.kind = .name
    · rw [if_pos hkind] at hu
      cases Option.some.inj hu
      exact ⟨⟨t, hkind⟩, rfl, htext.symm⟩
    · rw [if_neg hkind] at hu
      cases hu
  | first :: second :: rest => cases h

/-- Clauses that each have one name behind a comma continue a series. -/
theorem exists_others_of_mapM (hcommas : ∀ c ∈ clauses, c.1.kind = .comma)
    (h : (clauses.map Prod.snd).mapM soleName? = some names) :
    ∃ others : List (Mark .comma × Mark .name),
      clauses.flatMap (fun c => .token c.1 :: c.2) =
        (others.flatMap fun other => [other.1.token, other.2.token]).map .token ∧
      names = others.map (·.2.token.text) := by
  induction clauses generalizing names with
  | nil =>
    obtain rfl : [] = names := by simpa using h
    exact ⟨[], rfl, rfl⟩
  | cons c clauses ih =>
    obtain ⟨hcomma, hcommas⟩ := List.forall_mem_cons.mp hcommas
    rw [List.map_cons, List.mapM_cons] at h
    obtain ⟨text, htext, h⟩ := Option.bind_eq_some_iff.mp h
    obtain ⟨texts, htexts, h⟩ := Option.bind_eq_some_iff.mp h
    obtain ⟨name, hpart, rfl⟩ := exists_mark_of_soleName? htext
    obtain ⟨others, hothers, rfl⟩ := ih hcommas htexts
    obtain rfl := Option.some.inj h
    refine ⟨(⟨c.1, hcomma⟩, name) :: others, ?_, rfl⟩
    simp [hpart, hothers]

theorem isNameList_of_mapM_split
    (h : (split [.comma] false (tokens.map .token)).mapM soleName? = some names) :
    IsNameList tokens names := by
  cases tokens with
  | nil =>
    obtain rfl : [] = names := by simpa [split] using h
    exact .none
  | cons t tokens =>
    rw [split_of_ne_nil (by simp), List.mapM_cons] at h
    obtain ⟨text, htext, h⟩ := Option.bind_eq_some_iff.mp h
    obtain ⟨texts, htexts, h⟩ := Option.bind_eq_some_iff.mp h
    obtain rfl := Option.some.inj h
    have hcommas : ∀ c ∈ (cut [.comma] ((t :: tokens).map .token)).2, c.1.kind = .comma := by
      intro c hc
      simpa using kind_of_mem_cut hc
    obtain ⟨name, hname, rfl⟩ := exists_mark_of_soleName? htext
    obtain ⟨others, hothers, rfl⟩ := exists_others_of_mapM hcommas htexts
    have hwhole := append_cut [.comma] ((t :: tokens).map .token)
    rw [hname, hothers, List.singleton_append, ← List.map_cons] at hwhole
    have htokens : t :: tokens = Series.tokens ⟨name, others⟩ :=
      (List.map_injective_iff.mpr (fun _ _ => Tree.token.inj) hwhole).symm
    have hnames : name.token.text :: others.map (·.2.token.text) =
        (Series.names ⟨name, others⟩).map (·.text) := by simp [Series.names]
    rw [htokens, hnames]
    exact .series ⟨name, others⟩

theorem IsNameList.exists_enclosed (h : IsNameList inner names) (ho : opener.kind = .openParen)
    (hc : closer.kind = .closeParen) : ∃ enclosed : Enclosed .openParen .closeParen,
      enclosed.tokens = opener :: (inner ++ [closer]) ∧ enclosed.names.map (·.text) = names := by
  cases h with
  | none => exact ⟨⟨⟨opener, ho⟩, Option.none, ⟨closer, hc⟩⟩, rfl, rfl⟩
  | series series => exact ⟨⟨⟨opener, ho⟩, some series, ⟨closer, hc⟩⟩, rfl, rfl⟩

theorem parameters?_parens_iff (ho : opener.kind = .openParen) (hc : closer.kind = .closeParen) :
    parameters? ((opener :: (inner ++ [closer])).map .token) = some names ↔
      IsNameList inner names := by
  rw [parameters?_of_leaves (leaves_map_token _) ho hc]
  constructor
  · exact isNameList_of_mapM_split
  · intro h
    cases h with
    | none => rfl
    | series series =>
      have hne : series.tokens.map Tree.token ≠ [] := by simp [Series.tokens]
      have hsplit : split [.comma] false (series.tokens.map .token) =
          partsBetween [.comma] (series.tokens.map .token) :=
        if_neg (by simpa using hne)
      rw [hsplit, partsBetween_series, mapM_soleName?]

/-- Whatever has parameters begins and ends with a parenthesis, unless it is a name. -/
theorem leaves_of_parameters? {head : List Tree} (h : parameters? head = some names) :
    (∃ name : Mark .name, leaves head = [name.token]) ∨
      ∃ (opener closer : Token) (inner : List Token), leaves head = opener :: (inner ++ [closer]) ∧
        closer.kind = .closeParen ∧ IsNameList inner names := by
  unfold parameters? at h
  split at h
  next => cases h
  next t hleaves =>
    obtain ⟨text, htext, -⟩ := Option.map_eq_some_iff.mp h
    obtain ⟨name, hname, -⟩ := exists_mark_of_soleName? htext
    obtain rfl : t = name.token := by simpa using hname
    exact Or.inl ⟨name, hleaves⟩
  next first rest _ hleaves =>
    split at h
    next hparens =>
      obtain ⟨-, hlast⟩ := Bool.and_eq_true_iff.mp hparens
      obtain ⟨inner, closer, rfl⟩ : ∃ inner closer, rest = inner ++ [closer] := by
        rcases List.eq_nil_or_concat' rest with rfl | hconcat
        · cases hlast
        · exact hconcat
      rw [List.dropLast_concat] at h
      have hclose : closer.kind = .closeParen := by simpa using hlast
      exact Or.inr ⟨first, closer, inner, hleaves, hclose, isNameList_of_mapM_split h⟩
    next => cases h

/-- No parameters go on behind a list in parentheses, since its closing parenthesis would stand among
the names. -/
theorem parameters?_ne_behind_parens (hc : closer.kind = .closeParen) (more : List Tree) :
    parameters? ((opener :: (inner ++ [closer])).map .token ++ .token arrow :: more) ≠ some names := by
  intro hnames
  have hlong : leaves ((opener :: (inner ++ [closer])).map .token ++ .token arrow :: more) =
      opener :: (inner ++ closer :: arrow :: leaves more) := by
    rw [leaves_append, leaves_map_token]
    simp [leaves, Tree.leaves]
  rcases leaves_of_parameters? hnames with ⟨name, hsingle⟩ | ⟨_, last, inside, hparens, -, hinside⟩
  · rw [hlong] at hsingle
    simp at hsingle
  · rw [hlong] at hparens
    have hends : inside = inner ++ closer :: (arrow :: leaves more).dropLast := by
      have hinit := congrArg List.dropLast (List.cons.inj hparens).2
      rw [List.dropLast_concat, List.dropLast_append_of_ne_nil (by simp)] at hinit
      exact hinit.symm
    have hmem : closer ∈ inside := by simp [hends]
    rcases hinside.kind_of_mem hmem with hk | hk <;> simp [hc] at hk

/-- No parameters are the first part of a list in parentheses, since they would close a parenthesis that
the list does not open. -/
theorem leaves_ne_within_parens {head : List Tree} (ho : opener.kind = .openParen)
    (hbalanced : BalanceParens inner) (hnames : parameters? head = some names) (more : List Token) :
    leaves head ++ t :: more ≠ opener :: (inner ++ [closer]) := by
  intro hfront
  rcases leaves_of_parameters? hnames with
    ⟨name, hsingle⟩ | ⟨_, last, inside, hparens, hlast, hinside⟩
  · have hname := name.isKind
    rw [hsingle] at hfront
    have hopener : name.token = opener := (List.cons.inj hfront).1
    simp [hopener, ho] at hname
  · rw [hparens] at hfront
    have hends : inside ++ [last] ++ t :: more = inner ++ [closer] := (List.cons.inj hfront).2
    have hbefore : inside ++ [last] <+: inner := by
      apply List.prefix_of_prefix_length_le ⟨_, hends⟩ (List.prefix_append inner [closer])
      have hlength := congrArg List.length hends
      simp only [List.length_append, List.length_cons, List.length_nil] at hlength ⊢
      omega
    have hcount := hbalanced.beginnings _ hbefore
    have hopen : inside.countP (·.kind == .openParen) = 0 := by
      apply List.countP_eq_zero.mpr
      intro u hu
      rcases hinside.kind_of_mem hu with hk | hk <;> simp [hk]
    simp [List.countP_append, hlast, hopen] at hcount

/-- Parameters before a sign are the whole list in parentheses that stands before an arrow. -/
theorem head_eq_of_parameters? {head rest body : List Tree} {sign : Token}
    (ho : opener.kind = .openParen) (hc : closer.kind = .closeParen)
    (hbalanced : BalanceParens inner) (hnames : parameters? head = some names)
    (hspan : (opener :: (inner ++ [closer])).map .token ++ .token arrow :: body =
      head ++ .token sign :: rest) : head = (opener :: (inner ++ [closer])).map .token := by
  rcases List.append_eq_append_iff.mp hspan with ⟨more, hhead, hmore⟩ | ⟨more, hhead, hmore⟩
  · cases more with
    | nil => simpa using hhead
    | cons tree more =>
      obtain rfl := (List.cons.inj hmore).1
      exact absurd (hhead ▸ hnames) (parameters?_ne_behind_parens hc more)
  · cases more with
    | nil => simpa using hhead.symm
    | cons tree more =>
      obtain rfl := (List.cons.inj hmore).1
      have hfront : leaves head ++ sign :: leaves more = opener :: (inner ++ [closer]) := by
        have hwhole := congrArg leaves hhead
        rw [leaves_map_token, leaves_append] at hwhole
        simpa [leaves, Tree.leaves] using hwhole.symm
      exact absurd hfront (leaves_ne_within_parens ho hbalanced hnames _)

/-- A list in parentheses before an arrow is the head of a lambda just if it is a list of names. -/
theorem lambda?_parens_iff {body : List Tree} {shape : Shape} (ho : opener.kind = .openParen)
    (hc : closer.kind = .closeParen) (ha : arrow.kind = .arrow) (hbalanced : BalanceParens inner) :
    lambda? ((opener :: (inner ++ [closer])).map .token ++ .token arrow :: body) = some shape ↔
      ∃ names, IsNameList inner names ∧ shape = .lambda names arrow body := by
  constructor
  · intro h
    obtain ⟨⟨head, sign, rest⟩, hdivide, h⟩ := Option.bind_eq_some_iff.mp h
    obtain ⟨names, hnames, h⟩ := Option.bind_eq_some_iff.mp h
    have hspan := eq_of_divide? hdivide
    have hhead := head_eq_of_parameters? ho hc hbalanced hnames hspan
    rw [hhead] at hspan hnames
    obtain ⟨hsign, rfl⟩ := List.cons.inj (List.append_cancel_left hspan)
    obtain rfl := Tree.token.inj hsign
    exact ⟨names, (parameters?_parens_iff ho hc).mp hnames, (Option.some.inj h).symm⟩
  · rintro ⟨names, hnames, rfl⟩
    have hparameters := (parameters?_parens_iff ho hc).mpr hnames
    obtain ⟨enclosed, htokens, -⟩ := hnames.exists_enclosed ho hc
    have hclosed : IsClosed enclosed.tokens := by
      apply enclosed.isClosed ⟨1, 0, 0⟩ (by decide) (by decide) <;> intro t ht <;>
        simp [Depth.after, ht, Depth.top]
    have hundivided : IsUndivided [.arrow] .top (enclosed.tokens.map .token) := by
      apply isUndivided_of_kinds
      intro t ht
      rcases enclosed.kind_of_mem ht with hk | hk | hk | hk <;> simp [hk]
    have hdivide := divide?_arrow hundivided hclosed.balanced ha body
    rw [htokens] at hdivide
    rw [lambda?, hdivide]
    simp only [Option.bind_eq_bind, Option.bind_some, hparameters]
    rfl

/-! The parameters of a function: commas are left out, and what remains are names. -/

theorem mapM_name?_eq_some_iff {kept : List Token} :
    (tokens.map Tree.token).mapM Tree.name? = some kept ↔
      (∀ t ∈ tokens, t.kind = .name) ∧ kept = tokens := by
  induction tokens generalizing kept with
  | nil => simp [eq_comm]
  | cons t tokens ih =>
    by_cases hkind : t.kind = .name
    · have hname : (Tree.token t).name? = some t := if_pos hkind
      rw [List.map_cons, List.mapM_cons, hname, List.forall_mem_cons]
      constructor
      · intro h
        obtain ⟨first, hfirst, hmore⟩ := Option.bind_eq_some_iff.mp h
        obtain ⟨others, hothers, hkept⟩ := Option.bind_eq_some_iff.mp hmore
        obtain ⟨hnames, heq⟩ := ih.mp hothers
        cases hfirst
        cases hkept
        exact ⟨⟨hkind, hnames⟩, by rw [heq]⟩
      · rintro ⟨⟨-, hnames⟩, rfl⟩
        have hothers := ih.mpr ⟨hnames, rfl⟩
        rw [hothers]
        rfl
    · have hname : (Tree.token t).name? = none := if_neg hkind
      rw [List.map_cons, List.mapM_cons, hname]
      constructor
      · intro h
        cases h
      · rintro ⟨hnames, -⟩
        exact absurd (hnames t (by simp)) hkind

/-- What remains without the commas are names just if there was nothing else. -/
theorem mapM_name?_without_commas_iff {kept : List Token} :
    ((inner.filter (·.kind != .comma)).map Tree.token).mapM Tree.name? = some kept ↔
      (∀ t ∈ inner, t.kind = .name ∨ t.kind = .comma) ∧ kept = inner.filter (·.kind == .name) := by
  have hfilter (hkinds : ∀ t ∈ inner, t.kind = .name ∨ t.kind = .comma) :
      inner.filter (·.kind != .comma) = inner.filter (·.kind == .name) := by
    apply List.filter_congr
    intro t ht
    rcases hkinds t ht with hk | hk <;> simp [hk]
  rw [mapM_name?_eq_some_iff]
  constructor
  · rintro ⟨hnames, rfl⟩
    have hkinds : ∀ t ∈ inner, t.kind = .name ∨ t.kind = .comma := by
      intro t ht
      by_cases hcomma : t.kind = .comma
      · exact Or.inr hcomma
      · exact Or.inl (hnames t (List.mem_filter.mpr ⟨ht, by simpa using hcomma⟩))
    exact ⟨hkinds, hfilter hkinds⟩
  · rintro ⟨hkinds, rfl⟩
    rw [hfilter hkinds]
    refine ⟨?_, rfl⟩
    intro t ht
    simpa using (List.mem_filter.mp ht).2

theorem signature?_parens (ho : opener.kind = .openParen) (hc : closer.kind = .closeParen)
    (hbalanced : BalanceParens inner) (rest : List Tree) :
    signature? ((opener :: (inner ++ [closer])).map .token ++ rest) =
      (((inner.filter (·.kind != .comma)).map Tree.token).mapM Tree.name?).map
        fun kept => (kept.map (·.text), rest) := by
  have hcloser := (balanceParens_iff.mp hbalanced).isMatched.closerIndex?_eq hc rest
  have hopener : Tree.hasKind .openParen (.token opener) = true := by simp [Tree.hasKind, ho]
  have hspan : (opener :: (inner ++ [closer])).map Tree.token ++ rest =
      .token opener :: (inner.map Tree.token ++ .token closer :: rest) := by simp
  have hdrop : (inner.map Tree.token ++ .token closer :: rest).drop
      ((inner.map Tree.token).length + 1) = rest := by
    rw [List.append_cons]
    exact List.drop_left' (by simp)
  have hkept : (inner.map Tree.token).filter (!·.hasKind .comma) =
      (inner.filter (·.kind != .comma)).map .token := by
    rw [List.filter_map]
    rfl
  rw [hspan, signature?, if_pos hopener, hcloser]
  simp only [Option.bind_eq_bind, Option.bind_some, List.take_left, hkept, hdrop]
  exact Option.map_eq_bind.symm

theorem signature?_parens_iff {rest inline : List Tree} (ho : opener.kind = .openParen)
    (hc : closer.kind = .closeParen) (hbalanced : BalanceParens inner) :
    signature? ((opener :: (inner ++ [closer])).map .token ++ rest) = some (names, inline) ↔
      (∀ t ∈ inner, t.kind = .name ∨ t.kind = .comma) ∧ names = namesAmong inner ∧ inline = rest := by
  rw [signature?_parens ho hc hbalanced, Option.map_eq_some_iff]
  constructor
  · rintro ⟨kept, hkept, heq⟩
    obtain ⟨hkinds, rfl⟩ := mapM_name?_without_commas_iff.mp hkept
    obtain ⟨rfl, rfl⟩ := Prod.mk.inj heq
    exact ⟨hkinds, rfl, rfl⟩
  · rintro ⟨hkinds, rfl, rfl⟩
    exact ⟨_, mapM_name?_without_commas_iff.mpr ⟨hkinds, rfl⟩, rfl⟩

end

section

variable {span rest body : List Tree} {heading : Heading} {name : Mark .name}
  {opener closer arrow : Token} {inner : List Token} {v : Value}

/-- A function with a list in parentheses and a valid body is accepted just if the list has nothing
but names and commas. -/
theorem readBlock_function_parens
    (hspan : heading? .function span = some
      (heading, .token name.token :: ((opener :: (inner ++ [closer])).map .token ++ rest)))
    (ho : opener.kind = .openParen) (hc : closer.kind = .closeParen) (hbalanced : BalanceParens inner)
    (hv : readValue (ungroup rest) = .ok v) (b : Block) :
    readBlock span = .ok b ↔ (∀ t ∈ inner, t.kind = .name ∨ t.kind = .comma) ∧
      b = .function heading name.token.text (namesAmong inner) v := by
  have hplain : ∀ tree ∈ .token name.token :: (opener :: (inner ++ [closer])).map Tree.token,
      tree.isGroup = false := by
    intro tree hm
    rw [← List.map_cons] at hm
    obtain ⟨t, -, rfl⟩ := List.mem_map.mp hm
    rfl
  have hname : (Tree.token name.token).name? = some name.token := if_pos name.isKind
  have hparts : functionParts? (.token name.token ::
      ((opener :: (inner ++ [closer])).map .token ++ rest)) =
        (signature? ((opener :: (inner ++ [closer])).map .token ++ (headerAndBody rest).1)).map
          fun found => (name.token.text, found.1, found.2 ++ ungroup (headerAndBody rest).2) := by
    rw [functionParts?, ← List.cons_append, headerAndBody_behind hplain, List.cons_append]
    simp only [hname, Option.bind_eq_bind, Option.bind_some]
    exact Option.map_eq_bind.symm
  rw [readBlock_eq, blockStep_eq_readBody hspan, BlockForm.readBody, hparts]
  cases hs : signature? ((opener :: (inner ++ [closer])).map .token ++ (headerAndBody rest).1) with
  | none =>
    constructor
    · intro h
      cases h
    · rintro ⟨hkinds, -⟩
      have hsome : signature? ((opener :: (inner ++ [closer])).map .token ++ (headerAndBody rest).1) =
          some (namesAmong inner, (headerAndBody rest).1) :=
        (signature?_parens_iff ho hc hbalanced).mpr ⟨hkinds, rfl, rfl⟩
      cases hs.symm.trans hsome
  | some parts =>
    obtain ⟨names, inline⟩ := parts
    obtain ⟨hkinds, rfl, rfl⟩ := (signature?_parens_iff ho hc hbalanced).mp hs
    have hvalue : readers.valueAt (ungroup rest) heading.origin = .ok v :=
      Readers.valueAt_of_ok hv heading.origin
    rw [← header_append_ungroup rest] at hvalue
    simp only [Option.map_some]
    rw [hvalue]
    constructor
    · intro h
      exact ⟨hkinds, (Except.ok.inj h).symm⟩
    · rintro ⟨-, rfl⟩
      rfl

/-- A list in parentheses before an arrow is the head of a lambda just if it is a list of names. A
function with the same list and a valid body has the same names, as long as the commas stand where
they should; but it is accepted as well when a comma is missing, doubled or stands at an end. -/
theorem parameters_of_lambda_and_function
    (hspan : heading? .function span = some
      (heading, .token name.token :: ((opener :: (inner ++ [closer])).map .token ++ rest)))
    (ho : opener.kind = .openParen) (hc : closer.kind = .closeParen) (ha : arrow.kind = .arrow)
    (hbalanced : BalanceParens inner) (hv : readValue (ungroup rest) = .ok v) :
    (∀ shape,
      lambda? ((opener :: (inner ++ [closer])).map .token ++ .token arrow :: body) = some shape ↔
        ∃ names, IsNameList inner names ∧ shape = .lambda names arrow body) ∧
    (HasProperCommas inner → ∀ b, readBlock span = .ok b ↔
      ∃ names, IsNameList inner names ∧ b = .function heading name.token.text names v) ∧
    (¬HasProperCommas inner → (¬∃ names, IsNameList inner names) ∧ ∀ b, readBlock span = .ok b ↔
      (∀ t ∈ inner, t.kind = .name ∨ t.kind = .comma) ∧
        b = .function heading name.token.text (namesAmong inner) v) := by
  have hfunction := readBlock_function_parens hspan ho hc hbalanced hv
  refine ⟨fun shape => lambda?_parens_iff ho hc ha hbalanced, ?_, ?_⟩
  · intro hproper b
    rw [hfunction]
    constructor
    · rintro ⟨hkinds, rfl⟩
      exact ⟨_, isNameList_iff.mpr ⟨hkinds, hproper, rfl⟩, rfl⟩
    · rintro ⟨names, hnames, rfl⟩
      obtain ⟨hkinds, -, rfl⟩ := isNameList_iff.mp hnames
      exact ⟨hkinds, rfl⟩
  · intro himproper
    refine ⟨?_, hfunction⟩
    rintro ⟨names, hnames⟩
    exact himproper hnames.hasProperCommas

/-- The function `fn [d] f(a; b) x`, and a lambda with the same parameters. -/
theorem parameters_of_lambda_and_function_with_two :
    let token (kind : Kind) (text : String) : Token := ⟨kind, text, default⟩
    let inner : List Token := [token .name "a", token .comma ";", token .name "b"]
    let list : List Tree :=
      (token .openParen "(" :: (inner ++ [token .closeParen ")"])).map .token
    let body : List Tree := [.token (token .name "x")]
    let span : List Tree := .token (token .keyword "fn") :: .token (token .openBracket "[") ::
      .token (token .name "d") :: .token (token .closeBracket "]") :: .token (token .name "f") ::
        (list ++ body)
    BalanceParens inner ∧ readValue (ungroup body) = .ok (.literal (token .name "x")) ∧
      HasProperCommas inner ∧
      lambda? (list ++ .token (token .arrow "=>") :: body) =
        some (.lambda ["a", "b"] (token .arrow "=>") body) ∧
      readBlock span = .ok (.function ⟨[token .name "d"], .unknown⟩ "f" ["a", "b"]
        (.literal (token .name "x"))) := by
  intro token inner list body span
  have hbalanced : BalanceParens inner := balanceParens_iff.mpr rfl
  have hv : readValue (ungroup body) = .ok (.literal (token .name "x")) := by cbv
  have hspan : heading? .function span = some (⟨[token .name "d"], .unknown⟩,
      .token (token .name "f") :: (list ++ body)) := rfl
  have hnames : IsNameList inner ["a", "b"] :=
    .series ⟨⟨token .name "a", rfl⟩, [(⟨token .comma ";", rfl⟩, ⟨token .name "b", rfl⟩)]⟩
  have hproper := hnames.hasProperCommas
  obtain ⟨hlambda, hfunction, -⟩ := @parameters_of_lambda_and_function span body body
    ⟨[token .name "d"], .unknown⟩ ⟨token .name "f", rfl⟩ (token .openParen "(")
    (token .closeParen ")") (token .arrow "=>") inner _ hspan rfl rfl rfl hbalanced hv
  exact ⟨hbalanced, hv, hproper, (hlambda _).mpr ⟨_, hnames, rfl⟩,
    (hfunction hproper _).mpr ⟨_, hnames, rfl⟩⟩

/-- The function `fn f(a b) x` is accepted, although there is no comma between its parameters. -/
theorem not_parameters_of_function_separated :
    ¬∀ (span rest : List Tree) (heading : Heading) (name : Mark .name) (opener closer : Token)
      (inner : List Token) (v : Value),
      heading? .function span = some
        (heading, .token name.token :: ((opener :: (inner ++ [closer])).map .token ++ rest)) →
      opener.kind = .openParen → closer.kind = .closeParen → BalanceParens inner →
      readValue (ungroup rest) = .ok v →
      ((∃ b, readBlock span = .ok b) ↔ ∃ names, IsNameList inner names) := by
  intro h
  let token (kind : Kind) (text : String) : Token := ⟨kind, text, default⟩
  let inner : List Token := [token .name "a", token .name "b"]
  let rest : List Tree := [.token (token .name "x")]
  let header : List Tree := .token (token .name "f") ::
    ((token .openParen "(" :: (inner ++ [token .closeParen ")"])).map .token ++ rest)
  have hv : readValue (ungroup rest) = .ok (.literal (token .name "x")) := by cbv
  have hread : readBlock (.token (token .keyword "fn") :: header) =
      .ok (.function ⟨[], .unknown⟩ "f" ["a", "b"] (.literal (token .name "x"))) := by cbv
  have hclaimed := h (.token (token .keyword "fn") :: header) rest ⟨[], .unknown⟩
    ⟨token .name "f", rfl⟩ (token .openParen "(") (token .closeParen ")") inner _ rfl rfl rfl
    (balanceParens_iff.mpr rfl) hv
  obtain ⟨names, hnames⟩ := hclaimed.mp ⟨_, hread⟩
  have hapart := (List.isChain_cons_cons.mp hnames.hasProperCommas.apart).1.2
  exact hapart rfl rfl

end

end Offside
