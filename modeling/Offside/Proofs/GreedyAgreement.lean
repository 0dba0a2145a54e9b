import Mathlib.Tactic.IntervalCases
import Offside.Proofs.LongestMatch

namespace Offside

/-- Whether a text of a kind can only be found by looking at more than one character ahead: a
beginning of it that is longer than one character is of no kind. -/
def Kind.needsLookahead : Kind → List Char → Bool
  | float, _ | scientific, _ | binary, _ | octal, _ | hexadecimal, _ => true
  | decimal, text => (unsigned text).take 2 == ['0', 'd']
  | string, text => 3 ≤ text.length
  | dot, '!' :: colons => 2 ≤ colons.length && colons.all (· == ':')
  | _, _ => false

def Token.needsLookahead (t : Token) : Bool :=
  t.kind.needsLookahead t.text.toList

/-- Every beginning of the piece with more than one character is a piece as well. -/
def IsGradual (piece : List Char) : Prop :=
  ∀ start, start <+: piece → 2 ≤ start.length → IsPiece start

theorem ne_nil_of_two_le {text : List Char} (h : 2 ≤ text.length) : text ≠ [] :=
  List.ne_nil_of_length_pos (by omega)

theorem isGradual_singleton (c : Char) : IsGradual [c] := by
  intro start hs hl
  have := hs.length_le
  simp at this
  omega

theorem IsGradual.append_singleton {piece : List Char} {c : Char} (h : IsGradual piece)
    (hc : IsPiece (piece ++ [c])) : IsGradual (piece ++ [c]) := by
  intro start hs hl
  rcases List.prefix_concat_iff.mp hs with rfl | hs
  · exact hc
  · exact h start hs hl

theorem greedyFrom_isGradual {piece text : List Char} (h : IsGradual piece) :
    ∀ p ∈ greedyFrom piece text, IsGradual p := by
  fun_induction greedyFrom piece text with
  | case1 piece => simpa using h
  | case2 piece c text hc ih => exact ih (h.append_singleton (firstKind?_isSome_iff.mp hc))
  | case3 piece c text hc ih => exact List.forall_mem_cons.mpr ⟨h, ih (isGradual_singleton c)⟩

theorem greedy_isGradual {text : List Char} : ∀ p ∈ greedy text, IsGradual p := by
  cases text with
  | nil => simp [greedy]
  | cons c text => exact greedyFrom_isGradual (isGradual_singleton c)

/-- A gradual piece is extended up to its end. -/
theorem greedyFrom_append {start more text : List Char} (hne : start ≠ [])
    (h : IsGradual (start ++ more)) :
    greedyFrom start (more ++ text) = greedyFrom (start ++ more) text := by
  induction more generalizing start with
  | nil => rw [List.nil_append, List.append_nil]
  | cons c more ih =>
    have hs : start ++ c :: more = (start ++ [c]) ++ more := by simp
    have hc : IsPiece (start ++ [c]) := by
      apply h
      · rw [hs]
        exact List.prefix_append _ _
      · have := List.length_pos_iff.mpr hne
        simp only [List.length_append, List.length_singleton]
        omega
    rw [List.cons_append, greedyFrom, if_pos (firstKind?_isSome_iff.mpr hc), hs]
    exact ih (by simp) (hs ▸ h)

/-- A longest piece is not extended any further. -/
theorem greedyFrom_of_isLongestPiece {piece text : List Char}
    (h : IsLongestPiece piece (piece ++ text)) : greedyFrom piece text = piece :: greedy text := by
  cases text with
  | nil => rfl
  | cons c text =>
    have hc : ¬IsPiece (piece ++ [c]) := by
      intro hp
      have := h.longest _ (by simp) hp
      simp only [List.length_append, List.length_singleton] at this
      omega
    rw [greedyFrom, if_neg (fun hs => hc (firstKind?_isSome_iff.mp hs)), greedy]

theorem greedy_append {piece text : List Char} (hne : piece ≠ []) (hg : IsGradual piece)
    (hl : IsLongestPiece piece (piece ++ text)) : greedy (piece ++ text) = piece :: greedy text := by
  cases piece with
  | nil => exact absurd rfl hne
  | cons c more =>
    have hf : greedyFrom [c] (more ++ text) = greedyFrom (c :: more) text :=
      greedyFrom_append (by simp) hg
    rw [← greedyFrom_of_isLongestPiece hl, ← hf]
    rfl

theorem greedy_eq_of_cutsInto {text : List Char} {pieces : List (List Char)}
    (h : CutsInto [] text pieces) (hg : ∀ piece ∈ pieces, IsGradual piece) :
    greedy text = pieces := by
  induction h with
  | done => rfl
  | piece hne hl _ ih =>
    obtain ⟨hp, hps⟩ := List.forall_mem_cons.mp hg
    rw [greedy_append hne hp hl, ih hps]

namespace Kind

theorem isName_or_short_of_mem_words {kind : Kind} {word : List Char} (h : word ∈ kind.words) :
    isName word = true ∨ word.length ≤ 2 ∨ word = ['*', '*', '='] := by
  revert word
  cases kind <;> decide

theorem isGradual_of_isName {text : List Char} (h : isName text = true) : IsGradual text := by
  intro start hs hl
  obtain ⟨c, rest, rfl, hc, hr⟩ := isName_iff.mp h
  cases start with
  | nil => simp at hl
  | cons d start =>
    obtain ⟨rfl, ht⟩ := List.cons_prefix_cons.mp hs
    exact ⟨name, isName_iff.mpr ⟨d, start, rfl, hc, fun e he => hr e (ht.subset he)⟩⟩

theorem isGradual_of_length_le {text : List Char} (h : text.length ≤ 2) (hp : IsPiece text) :
    IsGradual text := by
  intro start hs hl
  have := hs.length_le
  rwa [hs.eq_of_length (by omega)]

theorem isGradual_of_mem_words {kind : Kind} {word : List Char} (h : word ∈ kind.words)
    (hp : IsPiece word) : IsGradual word := by
  rcases isName_or_short_of_mem_words h with hn | hl | rfl
  · exact isGradual_of_isName hn
  · exact isGradual_of_length_le hl hp
  · have two : IsPiece ['*', '*'] := ⟨operator, by decide⟩
    exact (isGradual_of_length_le (by decide) two).append_singleton hp

theorem isGradual_of_isRun_unsigned {text : List Char}
    (h : isRun Char.isDigit (unsigned text) = true) : IsGradual text := by
  intro start hs hl
  have hu : unsigned start ≠ [] := by
    intro he
    have := length_le_unsigned start
    simp only [he, List.length_nil] at this
    omega
  have hr := isRun_prefix h (unsigned_isPrefix hs (ne_nil_of_two_le hl)) hu
  exact ⟨decimal, Bool.or_eq_true_iff.mpr (Or.inr hr)⟩

theorem isGradual_of_comment {text : List Char} (h : comment.accepts text = true) :
    IsGradual text := by
  obtain ⟨rest, rfl, hn⟩ := accepts_comment_iff.mp h
  intro start hs hl
  cases start with
  | nil => simp at hl
  | cons c start =>
    obtain ⟨rfl, ht⟩ := List.cons_prefix_cons.mp hs
    exact ⟨comment, accepts_comment_iff.mpr ⟨start, rfl, fun hm => hn (ht.subset hm)⟩⟩

theorem isGradual_of_dot {text : List Char} (h : dot.accepts text = true)
    (hn : dot.needsLookahead text = false) : IsGradual text := by
  rcases accepts_dot_iff.mp h with hd | ⟨rest, rfl, hd⟩
  · rcases isDots_iff.mp hd with rfl | ⟨_, hc⟩
    · exact isGradual_singleton '.'
    · intro start hs hl
      exact ⟨dot, accepts_dot_iff.mpr (Or.inl (isDots_iff.mpr
        (Or.inr ⟨hl, fun c hm => hc c (hs.subset hm)⟩)))⟩
  · rcases isDots_iff.mp hd with rfl | ⟨hl, hc⟩
    · exact isGradual_of_length_le (by decide) ⟨dot, h⟩
    · have hall : rest.all (· == ':') = true := by simpa using hc
      simp [needsLookahead, hl, hall] at hn

/-- A text is gradual unless it takes looking ahead to find it. -/
theorem isGradual_of_accepts {kind : Kind} {text : List Char} (h : kind.accepts text = true)
    (hn : kind.needsLookahead text = false) : IsGradual text := by
  by_cases hw : kind.words = []
  · cases kind with
    | float | scientific | binary | octal | hexadecimal => simp [needsLookahead] at hn
    | decimal =>
      rcases Bool.or_eq_true_iff.mp h with h | h
      · obtain ⟨digits, hd, _⟩ := isRadix_split h
        simp [needsLookahead, hd] at hn
      · exact isGradual_of_isRun_unsigned h
    | string =>
      have hl : text.length ≤ 2 := by
        simp [needsLookahead] at hn
        omega
      exact isGradual_of_length_le hl ⟨string, h⟩
    | name => exact isGradual_of_isName h
    | whitespace => exact fun start hs hl => ⟨whitespace, isRun_prefix h hs (ne_nil_of_two_le hl)⟩
    | newline => exact fun start hs hl => ⟨newline, isRun_prefix h hs (ne_nil_of_two_le hl)⟩
    | comment => exact isGradual_of_comment h
    | dot => exact isGradual_of_dot h hn
    | _ => exact absurd hw (by decide)
  · exact isGradual_of_mem_words (mem_words_of_accepts hw h) ⟨kind, h⟩

theorem unsigned_not_isDigit_of_mem_words {kind : Kind} {word : List Char}
    (h : word ∈ kind.words) : (unsigned word).head?.all (fun c => !c.isDigit) = true := by
  revert word
  cases kind <;> decide

end Kind

theorem mem_of_append_singleton_eq {xs ys zs : List Char} {c : Char}
    (h : xs ++ [c] = ys ++ zs) (hz : zs ≠ []) : c ∈ zs := by
  obtain ⟨ws, z, rfl⟩ := (List.eq_nil_or_concat zs).resolve_left hz
  have hx : xs ++ [c] = (ys ++ ws) ++ [z] := by simpa using h
  have hc : c = z := by simpa using (List.append_inj' hx rfl).2
  simp [hc]

theorem mem_of_cons_cons_eq {xs ys : List Char} {a b c : Char}
    (h : xs ++ [c] = a :: b :: ys) (hy : ys ≠ []) : b ∈ xs := by
  obtain ⟨zs, z, rfl⟩ := (List.eq_nil_or_concat ys).resolve_left hy
  have hx : xs ++ [c] = (a :: b :: zs) ++ [z] := by simpa using h
  rw [(List.append_inj' hx rfl).1]
  simp

theorem isDigit_facts {c : Char} (h : c.isDigit = true) : isNameStart c = false ∧
    isSpacing c = false ∧ c ∉ ['\n', '#', '"', '\'', '.', ':', '!'] := by
  have hb : 48 ≤ c.toNat ∧ c.toNat ≤ 57 := by
    simpa [Char.isDigit, UInt32.le_iff_toNat_le] using h
  have hc := Char.ofNat_toNat c
  generalize c.toNat = n at hb hc
  obtain ⟨h₁, h₂⟩ := hb
  subst c
  interval_cases n <;> decide

namespace Kind

def isNumber : Kind → Bool
  | float | scientific | binary | octal | decimal | hexadecimal => true
  | _ => false

/-- A text that begins with a digit, or with a minus sign and a digit, can only be a number. -/
theorem isNumber_of_accepts {kind : Kind} {d : Char} {text rest : List Char}
    (h : kind.accepts text = true) (hu : unsigned text = d :: rest) (hd : d.isDigit = true) :
    kind.isNumber = true := by
  obtain ⟨hname, hspacing, hsign⟩ := isDigit_facts hd
  have hmem : d ∈ text := mem_of_mem_unsigned (by simp [hu])
  have head {c : Char} {more : List Char} (ht : text = c :: more) : c = '-' ∨ c = d := by
    rw [ht, unsigned_cons] at hu
    split at hu
    next hm => exact Or.inl hm
    next => exact Or.inr (List.cons.inj hu).1
  by_cases hw : kind.words = []
  · cases kind with
    | float | scientific | binary | octal | decimal | hexadecimal => rfl
    | string =>
      obtain ⟨mark, more, ht, hm, _⟩ := isQuoted_iff.mp h
      rcases head ht with rfl | rfl
      · exact absurd hm (by decide)
      · rcases hm with rfl | rfl <;> exact absurd hd (by decide)
    | name =>
      obtain ⟨c, more, ht, hs, _⟩ := isName_iff.mp h
      rcases head ht with rfl | rfl
      · exact absurd hs (by decide)
      · simp [hname] at hs
    | whitespace => exact absurd hmem (not_mem_of_isRun h hspacing)
    | newline => exact absurd hmem (not_mem_of_isRun h (by simp_all))
    | comment =>
      obtain ⟨more, ht, _⟩ := accepts_comment_iff.mp h
      rcases head ht with hm | rfl
      · exact absurd hm (by decide)
      · exact absurd hd (by decide)
    | dot =>
      have hp : d ≠ '.' ∧ d ≠ ':' ∧ d ≠ '!' := by simp_all
      rcases accepts_dot_iff.mp h with h | ⟨more, rfl, h⟩
      · exact absurd hmem (not_mem_of_isDots h hp.1 hp.2.1)
      · exact absurd hmem (by simp [hp.2.2, not_mem_of_isDots h hp.1 hp.2.1])
    | _ => exact absurd hw (by decide)
  · have := unsigned_not_isDigit_of_mem_words (mem_words_of_accepts hw h)
    simp [hu, hd] at this

/-- No number consists of digits and one more character at the end. -/
theorem not_accepts_of_isNumber {kind : Kind} {c : Char} {text digits : List Char}
    (hk : kind.isNumber = true) (hu : unsigned text = digits ++ [c])
    (hd : isRun Char.isDigit digits = true) (hc : c.isDigit = false) :
    ¬kind.accepts text = true := by
  intro h
  have radix {letter : Char} {digit : Char → Bool}
      (hr : isRadix letter digit (unsigned text) = true) (hl : letter.isDigit = false) :
      False := by
    obtain ⟨ds, hx, hds⟩ := isRadix_split hr
    have := (isRun_iff.mp hd).2 _ (mem_of_cons_cons_eq (hu ▸ hx) (isRun_iff.mp hds).1)
    simp [hl] at this
  have last {front part : List Char} (hx : unsigned text = front ++ part)
      (hr : isRun Char.isDigit part = true) : False := by
    have := (isRun_iff.mp hr).2 c (mem_of_append_singleton_eq (hu ▸ hx) (isRun_iff.mp hr).1)
    simp [hc] at this
  cases kind with
  | float =>
    obtain ⟨whole, part, hx, _, hp⟩ := isFraction_iff.mp h
    exact last (hx.trans (List.append_cons whole '.' part)) hp
  | scientific =>
    obtain ⟨mantissa, letter, exponent, hx, _, _, hr⟩ := isScientific_split h
    rcases unsigned_cases exponent with hs | hs
    · exact last (hx.trans (List.append_cons mantissa letter exponent)) (hs ▸ hr)
    · have hy : unsigned text = (mantissa ++ [letter, '-']) ++ unsigned exponent := by
        rw [hx, List.append_assoc, List.cons_append, List.singleton_append, ← hs]
      exact last hy hr
  | binary | octal | hexadecimal => exact radix h (by decide)
  | decimal =>
    rcases Bool.or_eq_true_iff.mp h with h | h
    · exact radix h (by decide)
    · exact last (List.nil_append _).symm h
  | _ => simp [isNumber] at hk

end Kind

theorem not_isPiece_of_unsigned {text digits : List Char} {c : Char}
    (hu : unsigned text = digits ++ [c]) (hd : isRun Char.isDigit digits = true)
    (hc : c.isDigit = false) : ¬IsPiece text := by
  rintro ⟨kind, h⟩
  cases digits with
  | nil => simp [isRun] at hd
  | cons d rest =>
    have hk := Kind.isNumber_of_accepts h hu ((isRun_iff.mp hd).2 d (List.mem_cons_self ..))
    exact Kind.not_accepts_of_isNumber hk hu hd hc h

/-- A text that goes on after its digits with something else is not gradual. -/
theorem not_isGradual_of_unsigned {text digits rest : List Char} {c : Char}
    (hu : unsigned text = digits ++ c :: rest) (hd : isRun Char.isDigit digits = true)
    (hc : c.isDigit = false) : ¬IsGradual text := by
  intro hg
  cases digits with
  | nil => simp [isRun] at hd
  | cons d ds =>
    have hne : d ≠ '-' := by
      rintro rfl
      exact absurd ((isRun_iff.mp hd).2 '-' (List.mem_cons_self ..)) (by decide)
    rcases unsigned_cases text with ht | ht
    · have hp : (d :: ds) ++ [c] <+: text := ⟨rest, by rw [ht, hu]; simp⟩
      refine not_isPiece_of_unsigned ?_ hd hc (hg _ hp (by simp))
      rw [List.cons_append, unsigned_cons, if_neg hne]
    · have hp : '-' :: ((d :: ds) ++ [c]) <+: text := ⟨rest, by rw [ht, hu]; simp⟩
      exact not_isPiece_of_unsigned rfl hd hc (hg _ hp (by simp))

theorem not_isPiece_of_quote {mark c : Char} (hm : mark = '"' ∨ mark = '\'') (hc : c ≠ mark) :
    ¬IsPiece [mark, c] := by
  rintro ⟨kind, h⟩
  have hq : mark ∈ ['\n', '"', '\''] := by
    rcases hm with rfl | rfl <;> decide
  rcases Kind.accepts_of_mem h (List.mem_cons_self ..) hq with rfl | rfl | rfl
  · have := (isRun_iff.mp h).2 mark (List.mem_cons_self ..)
    rcases hm with rfl | rfl <;> exact absurd this (by decide)
  · obtain ⟨_, rest, ht, _, hr⟩ := isQuoted_iff.mp h
    obtain ⟨rfl, rfl⟩ := List.cons.inj ht
    exact hc (by simpa [closesQuote] using hr)
  · obtain ⟨rest, ht, _⟩ := Kind.accepts_comment_iff.mp h
    obtain ⟨rfl, _⟩ := List.cons.inj ht
    exact absurd hm (by decide)

theorem not_isGradual_of_isQuoted {text : List Char} (h : isQuoted text = true)
    (hl : 3 ≤ text.length) : ¬IsGradual text := by
  obtain ⟨mark, rest, rfl, hm, hr⟩ := isQuoted_iff.mp h
  intro hg
  match rest, hl, hr with
  | c :: d :: more, _, hr =>
    have hc : c ≠ mark := by
      rintro rfl
      by_cases hb : c = '\\'
      · subst c
        exact absurd hm (by decide)
      · simp [closesQuote, hb] at hr
    have hp : [mark, c] <+: mark :: c :: d :: more := ⟨d :: more, rfl⟩
    exact not_isPiece_of_quote hm hc (hg _ hp (by simp))

/-- A text that takes looking ahead is not gradual. -/
theorem Kind.not_isGradual_of_needsLookahead {kind : Kind} {text : List Char}
    (h : kind.accepts text = true) (hn : kind.needsLookahead text = true) :
    ¬IsGradual text := by
  have radix {letter : Char} {digit : Char → Bool}
      (hr : isRadix letter digit (unsigned text) = true) (hl : letter.isDigit = false) :
      ¬IsGradual text := by
    obtain ⟨digits, hu, _⟩ := isRadix_split hr
    have hu : unsigned text = ['0'] ++ letter :: digits := hu
    exact not_isGradual_of_unsigned hu (by decide) hl
  cases kind with
  | float =>
    obtain ⟨whole, part, hu, hw, _⟩ := isFraction_iff.mp h
    exact not_isGradual_of_unsigned hu hw (by decide)
  | scientific =>
    obtain ⟨mantissa, letter, exponent, hu, hl, hm | hm, _⟩ := isScientific_split h
    · exact not_isGradual_of_unsigned hu hm (by rcases hl with rfl | rfl <;> decide)
    · obtain ⟨whole, part, rfl, hw, _⟩ := isFraction_iff.mp hm
      rw [List.append_assoc] at hu
      exact not_isGradual_of_unsigned hu hw (by decide)
  | binary | octal | hexadecimal => exact radix h (by decide)
  | decimal =>
    rcases Bool.or_eq_true_iff.mp h with h | h
    · exact radix h (by decide)
    · have ht : (unsigned text).take 2 = ['0', 'd'] := by simpa [needsLookahead] using hn
      have hm : 'd' ∈ (unsigned text).take 2 := by simp [ht]
      exact absurd (List.mem_of_mem_take hm) (not_mem_of_isRun h (by decide))
  | string => exact not_isGradual_of_isQuoted h (by simpa [needsLookahead] using hn)
  | dot =>
    have shape : ∃ rest, text = '!' :: ':' :: rest := by
      cases text with
      | nil => simp [needsLookahead] at hn
      | cons c text =>
        by_cases hc : c = '!'
        · have hs : 2 ≤ text.length ∧ ∀ d ∈ text, d = ':' := by
            simpa [needsLookahead, hc] using hn
          cases text with
          | nil => simp at hs
          | cons d text => exact ⟨text, by rw [hc, hs.2 d (List.mem_cons_self ..)]⟩
        · simp [needsLookahead, hc] at hn
    obtain ⟨rest, rfl⟩ := shape
    intro hg
    have hp : ['!', ':'] <+: '!' :: ':' :: rest := ⟨rest, rfl⟩
    exact firstKind?_eq_none_iff.mp (by decide) (hg _ hp (by simp))
  | _ => simp [needsLookahead] at hn

theorem exists_mem_place {source : Source} {kindOf? : List Char → Option Kind} {offset : Nat}
    {pieces : List (List Char)} {piece : List Char} {kind : Kind} (hm : piece ∈ pieces)
    (hk : kindOf? piece = some kind) :
    ∃ t ∈ place source kindOf? offset pieces, t.kind = kind ∧ t.text.toList = piece := by
  induction pieces generalizing offset with
  | nil => simp at hm
  | cons first pieces ih =>
    simp only [place]
    rcases List.mem_cons.mp hm with rfl | hm
    · rw [hk]
      exact ⟨_, List.mem_cons_self .., rfl, String.toList_ofList⟩
    · obtain ⟨t, ht, h⟩ := ih hm
      split
      next => exact ⟨t, List.mem_cons_of_mem _ ht, h⟩
      next => exact ⟨t, ht, h⟩

theorem accepts_of_firstKind? {text : List Char} {kind : Kind} (h : firstKind? text = some kind) :
    kind.accepts text = true := by
  have := List.find?_some h
  exact this

theorem IsPiece.exists_kind {piece : List Char} (h : IsPiece piece) :
    ∃ kind, firstKind? piece = some kind ∧ kind.accepts piece = true := by
  obtain ⟨kind, hk⟩ := Option.isSome_iff_exists.mp (firstKind?_isSome_iff.mpr h)
  exact ⟨kind, hk, accepts_of_firstKind? hk⟩

theorem isGradual_of_mem_fastTokens {source : Source} {t : Token} (h : t ∈ fastTokens source) :
    IsGradual t.text.toList ∧ t.kind.accepts t.text.toList = true := by
  obtain ⟨hp, hk⟩ := mem_place (List.mem_filter.mp h).1
  exact ⟨greedy_isGradual _ hp, accepts_of_firstKind? hk⟩

/-- Where classic lexing succeeds, greedy lexing yields the same tokens exactly when none of them
takes looking ahead. -/
theorem fastTokens_eq_iff {source : Source} {tokens : List Token}
    (h : classicTokens source = .ok tokens) :
    fastTokens source = tokens ↔ ∀ t ∈ tokens, t.needsLookahead = false := by
  obtain ⟨pieces, hcut, rfl⟩ := classicTokens_eq_ok_iff.mp h
  constructor
  · intro he t ht
    rw [← he] at ht
    obtain ⟨hg, hk⟩ := isGradual_of_mem_fastTokens ht
    by_contra hn
    have hn : t.needsLookahead = true := by simpa using hn
    exact Kind.not_isGradual_of_needsLookahead hk hn hg
  · intro hn
    have gradual : ∀ piece ∈ pieces, IsGradual piece := by
      intro piece hp
      obtain ⟨kind, hk, ha⟩ := (hcut.isPiece piece hp).exists_kind
      by_cases hc : kind = .comment
      · subst kind
        exact Kind.isGradual_of_comment ha
      · have placed : ∃ t ∈ place source firstKind? 0 pieces, t.kind = kind ∧
            t.text.toList = piece := exists_mem_place hp hk
        obtain ⟨t, ht, rfl, rfl⟩ := placed
        have hm : t ∈ dropComments (place source firstKind? 0 pieces) :=
          List.mem_filter.mpr ⟨ht, by simpa using hc⟩
        exact Kind.isGradual_of_accepts ha (hn t hm)
    rw [fastTokens, greedy_eq_of_cutsInto hcut gradual]

theorem fastTokens_eq_around_comment :
    ∃ tokens, classicTokens ⟨"main.ark", "''-1#é\n1.5", 0⟩ = .ok tokens ∧ tokens.length = 4 ∧
      (fastTokens ⟨"main.ark", "''-1#é\n1.5", 0⟩ = tokens ↔
        ∀ t ∈ tokens, t.needsLookahead = false) := by
  have h : classicTokens ⟨"main.ark", "''-1#é\n1.5", 0⟩ = .ok
      [⟨.string, "''", ⟨.within ⟨"main.ark", "''-1#é\n1.5", 0⟩ 0,
          .within ⟨"main.ark", "''-1#é\n1.5", 0⟩ 2⟩⟩,
        ⟨.decimal, "-1", ⟨.within ⟨"main.ark", "''-1#é\n1.5", 0⟩ 2,
          .within ⟨"main.ark", "''-1#é\n1.5", 0⟩ 4⟩⟩,
        ⟨.newline, "\n", ⟨.within ⟨"main.ark", "''-1#é\n1.5", 0⟩ 7,
          .within ⟨"main.ark", "''-1#é\n1.5", 0⟩ 8⟩⟩,
        ⟨.float, "1.5", ⟨.within ⟨"main.ark", "''-1#é\n1.5", 0⟩ 8,
          .within ⟨"main.ark", "''-1#é\n1.5", 0⟩ 11⟩⟩] := by decide +kernel
  exact ⟨_, h, rfl, fastTokens_eq_iff h⟩

end Offside
