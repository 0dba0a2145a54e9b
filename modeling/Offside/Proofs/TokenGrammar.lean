import Offside.Recognition
import Mathlib.Data.List.TakeDrop
import Mathlib.Data.List.TakeWhile

namespace Offside

/-- Whether any kind accepts a text. -/
def IsPiece (text : List Char) : Prop :=
  ∃ kind : Kind, kind.accepts text = true

theorem firstKind?_isSome_iff {text : List Char} :
    (firstKind? text).isSome = true ↔ IsPiece text := by
  simp only [firstKind?, List.find?_isSome, IsPiece]
  constructor
  · rintro ⟨kind, _, h⟩
    exact ⟨kind, h⟩
  · rintro ⟨kind, h⟩
    exact ⟨kind, kind.mem_all, h⟩

theorem firstKind?_eq_none_iff {text : List Char} : firstKind? text = none ↔ ¬IsPiece text := by
  rw [← firstKind?_isSome_iff]
  simp

theorem isRun_iff {p : Char → Bool} {text : List Char} :
    isRun p text = true ↔ text ≠ [] ∧ ∀ c ∈ text, p c = true := by
  simp [isRun]

theorem isRun_prefix {p : Char → Bool} {start text : List Char} (h : isRun p text = true)
    (hs : start <+: text) (hne : start ≠ []) : isRun p start = true :=
  isRun_iff.mpr ⟨hne, fun c hc => (isRun_iff.mp h).2 c (hs.subset hc)⟩

theorem unsigned_cases (text : List Char) : text = unsigned text ∨ text = '-' :: unsigned text := by
  unfold unsigned
  split
  · exact Or.inr rfl
  · exact Or.inl rfl

theorem unsigned_cons (c : Char) (text : List Char) :
    unsigned (c :: text) = if c = '-' then text else c :: text := by
  by_cases hc : c = '-'
  · simp [unsigned, hc]
  · simp [unsigned, hc]

theorem unsigned_isPrefix {start text : List Char} (h : start <+: text) (hne : start ≠ []) :
    unsigned start <+: unsigned text := by
  cases start with
  | nil => exact absurd rfl hne
  | cons c start =>
    obtain ⟨rest, rfl⟩ := h
    rw [List.cons_append, unsigned_cons, unsigned_cons]
    split
    · exact List.prefix_append _ _
    · exact List.prefix_append (c :: start) rest

theorem length_le_unsigned (text : List Char) : text.length ≤ (unsigned text).length + 1 := by
  rcases unsigned_cases text with he | he
  · rw [← he]
    omega
  · conv_lhs => rw [he]
    rfl

theorem mem_unsigned {c : Char} {text : List Char} (h : c ∈ text) (hc : c ≠ '-') :
    c ∈ unsigned text := by
  rcases unsigned_cases text with he | he
  · rwa [← he]
  · rw [he] at h
    exact (List.mem_cons.mp h).resolve_left hc

theorem mem_of_mem_unsigned {c : Char} {text : List Char} (h : c ∈ unsigned text) : c ∈ text := by
  rcases unsigned_cases text with he | he
  · rwa [he]
  · rw [he]
    exact List.mem_cons_of_mem _ h

theorem isFraction_iff {text : List Char} : isFraction text = true ↔
    ∃ whole part, text = whole ++ '.' :: part ∧ isRun Char.isDigit whole = true ∧
      isRun Char.isDigit part = true := by
  unfold isFraction
  rw [List.span_eq_takeWhile_dropWhile]
  constructor
  · intro h
    split at h
    next whole part he =>
      obtain ⟨hw, hp⟩ := Prod.mk.inj he
      have hs := List.takeWhile_append_dropWhile (p := Char.isDigit) (l := text)
      rw [hw, hp] at hs
      simp only [Bool.and_eq_true, Bool.not_eq_true', List.isEmpty_eq_false_iff] at h
      refine ⟨whole, part, hs.symm, isRun_iff.mpr ⟨h.1, fun c hc => ?_⟩, h.2⟩
      rw [← hw] at hc
      exact List.mem_takeWhile_imp hc
    next => simp at h
  · rintro ⟨whole, part, rfl, hw, hp⟩
    obtain ⟨hne, hd⟩ := isRun_iff.mp hw
    rw [List.takeWhile_append_of_pos hd, List.dropWhile_append_of_pos hd]
    simp [hne, hp]

/-- A number with an exponent falls into its mantissa, the letter and the exponent. -/
theorem isScientific_split {text : List Char} (h : isScientific text = true) :
    ∃ mantissa letter exponent, text = mantissa ++ letter :: exponent ∧
      (letter = 'e' ∨ letter = 'E') ∧
      (isRun Char.isDigit mantissa = true ∨ isFraction mantissa = true) ∧
      isRun Char.isDigit (unsigned exponent) = true := by
  unfold isScientific at h
  rw [List.span_eq_takeWhile_dropWhile] at h
  split at h
  next mantissa letter exponent he =>
    obtain ⟨hm, hd⟩ := Prod.mk.inj he
    have hs := List.takeWhile_append_dropWhile (p := fun c => c != 'e' && c != 'E') (l := text)
    rw [hm, hd] at hs
    have hl : ¬(letter != 'e' && letter != 'E') = true := by
      have := List.head_dropWhile_not (fun c => c != 'e' && c != 'E') (l := text) (by simp [hd])
      simp only [hd, List.head_cons] at this
      simp [this]
    simp only [Bool.and_eq_true, Bool.or_eq_true] at h
    refine ⟨mantissa, letter, exponent, hs.symm, ?_, h.1, h.2⟩
    by_cases hc : letter = 'e'
    · exact Or.inl hc
    · right
      simpa [hc] using hl
  next => simp at h

theorem isRadix_split {letter : Char} {digit : Char → Bool} {text : List Char}
    (h : isRadix letter digit text = true) :
    ∃ digits, text = '0' :: letter :: digits ∧ isRun digit digits = true := by
  unfold isRadix at h
  split at h
  next c digits =>
    simp only [Bool.and_eq_true, beq_iff_eq] at h
    exact ⟨digits, by rw [h.1], h.2⟩
  next => simp at h

theorem not_mem_of_isRun {p : Char → Bool} {c : Char} {text : List Char}
    (h : isRun p text = true) (hp : p c = false) : c ∉ text := by
  intro hc
  have := (isRun_iff.mp h).2 c hc
  simp [hp] at this

theorem not_mem_of_isFraction {c : Char} {text : List Char} (h : isFraction text = true)
    (hd : c.isDigit = false) (hc : c ≠ '.') : c ∉ text := by
  obtain ⟨whole, part, rfl, hw, hp⟩ := isFraction_iff.mp h
  simp only [List.mem_append, List.mem_cons, not_or]
  exact ⟨not_mem_of_isRun hw hd, hc, not_mem_of_isRun hp hd⟩

theorem not_mem_of_isScientific {c : Char} {text : List Char} (h : isScientific text = true)
    (hd : c.isDigit = false) (hc : c ∉ ['.', '-', 'e', 'E']) : c ∉ text := by
  obtain ⟨mantissa, letter, exponent, rfl, hl, hm, hx⟩ := isScientific_split h
  simp only [List.mem_cons, List.not_mem_nil, or_false, not_or] at hc
  simp only [List.mem_append, List.mem_cons, not_or]
  refine ⟨?_, ?_, ?_⟩
  · rcases hm with hm | hm
    · exact not_mem_of_isRun hm hd
    · exact not_mem_of_isFraction hm hd hc.1
  · rintro rfl
    rcases hl with rfl | rfl
    · exact hc.2.2.1 rfl
    · exact hc.2.2.2 rfl
  · exact fun hm => not_mem_of_isRun hx hd (mem_unsigned hm hc.2.1)

theorem not_mem_of_isRadix {letter c : Char} {digit : Char → Bool} {text : List Char}
    (h : isRadix letter digit text = true) (hd : digit c = false) (hc : c ∉ ['0', letter]) :
    c ∉ text := by
  obtain ⟨digits, rfl, hr⟩ := isRadix_split h
  simp only [List.mem_cons, List.not_mem_nil, or_false, not_or] at hc ⊢
  exact ⟨hc.1, hc.2, not_mem_of_isRun hr hd⟩

theorem not_mem_of_closesQuote {mark : Char} {text : List Char} (hm : mark ≠ '\n')
    (h : closesQuote mark text = true) : '\n' ∉ text := by
  fun_induction closesQuote mark text with
  | case1 => simp at h
  | case2 c =>
    have hc : c = mark := by simpa using h
    simpa [hc] using hm.symm
  | case3 c text ih =>
    simp only [Bool.and_eq_true, bne_iff_ne, ne_eq] at h
    simp only [List.mem_cons, not_or]
    exact ⟨by decide, Ne.symm h.1, ih h.2⟩
  | case4 c text hne hs ih =>
    simp only [Bool.and_eq_true, bne_iff_ne, ne_eq] at h
    simp only [List.mem_cons, not_or]
    exact ⟨Ne.symm h.1.2, ih h.2⟩

theorem isQuoted_iff {text : List Char} : isQuoted text = true ↔
    ∃ mark rest, text = mark :: rest ∧ (mark = '"' ∨ mark = '\'') ∧
      closesQuote mark rest = true := by
  constructor
  · intro h
    unfold isQuoted at h
    split at h
    next rest => exact ⟨_, rest, rfl, Or.inl rfl, h⟩
    next rest => exact ⟨_, rest, rfl, Or.inr rfl, h⟩
    next => simp at h
  · rintro ⟨mark, rest, rfl, rfl | rfl, h⟩
    · exact h
    · exact h

theorem not_mem_of_isQuoted {text : List Char} (h : isQuoted text = true) : '\n' ∉ text := by
  obtain ⟨mark, rest, rfl, hm, hr⟩ := isQuoted_iff.mp h
  have hn : mark ≠ '\n' := by
    rcases hm with rfl | rfl <;> decide
  simpa using ⟨hn.symm, not_mem_of_closesQuote hn hr⟩

theorem isName_iff {text : List Char} : isName text = true ↔
    ∃ c rest, text = c :: rest ∧ isNameStart c = true ∧ ∀ d ∈ rest, isNamePart d = true := by
  cases text with
  | nil => simp [isName]
  | cons c rest => simp [isName]

theorem not_mem_of_isName {c : Char} {text : List Char} (h : isName text = true)
    (hc : isNamePart c = false) : c ∉ text := by
  obtain ⟨d, rest, rfl, hd, hr⟩ := isName_iff.mp h
  intro hm
  rcases List.mem_cons.mp hm with rfl | hm
  · simp [isNamePart, hd] at hc
  · simp [hr c hm] at hc

theorem isDots_iff {text : List Char} : isDots text = true ↔
    text = ['.'] ∨ 2 ≤ text.length ∧ ∀ c ∈ text, c = ':' := by
  simp [isDots]

theorem not_mem_of_isDots {c : Char} {text : List Char} (h : isDots text = true)
    (hp : c ≠ '.') (hc : c ≠ ':') : c ∉ text := by
  rcases isDots_iff.mp h with rfl | ⟨_, h⟩
  · simpa using hp
  · exact fun hm => hc (h c hm)

namespace Kind

theorem accepts_comment_iff {text : List Char} : comment.accepts text = true ↔
    ∃ rest, text = '#' :: rest ∧ '\n' ∉ rest := by
  cases text with
  | nil => simp [accepts]
  | cons c text =>
    by_cases hc : c = '#'
    · simp [accepts, hc]
    · simp [accepts, hc]

theorem accepts_dot_iff {text : List Char} : dot.accepts text = true ↔
    isDots text = true ∨ ∃ rest, text = '!' :: rest ∧ isDots rest = true := by
  cases text with
  | nil => simp [accepts]
  | cons c text =>
    by_cases hc : c = '!'
    · subst c
      have hn : ¬isDots ('!' :: text) = true :=
        fun h => not_mem_of_isDots h (by decide) (by decide) (List.mem_cons_self ..)
      simp [accepts, hn]
    · simp [accepts, hc]

/-- The texts of a kind that is a list of words or signs, and nothing for any other kind. -/
def words : Kind → List (List Char)
  | boolean => ["true", "false"].map String.toList
  | operator => operators.map (·.1.toList)
  | assignment => assignments.map String.toList
  | arrow => [['=', '>']]
  | keyword => keywords.map String.toList
  | returnWord => ["return".toList]
  | openParen => [['(']]
  | openBracket => [['[']]
  | openCurly => [['{']]
  | closeParen => [[')']]
  | closeBracket => [[']']]
  | closeCurly => [['}']]
  | colon => [[':']]
  | comma => [[','], [';']]
  | _ => []

theorem mem_words_of_accepts {kind : Kind} {text : List Char} (hk : kind.words ≠ [])
    (h : kind.accepts text = true) : text ∈ kind.words := by
  cases kind <;> first
    | exact absurd rfl hk
    | simpa [accepts, words] using h

/-- Whether a character stands in no word and no sign, and in no number or name. -/
def isForeign (c : Char) : Bool :=
  !c.isDigit && !isBinaryDigit c && !isOctalDigit c && !isHexDigit c && !isNamePart c &&
    !List.contains ['.', '-', 'e', 'E', '0', 'b', 'o', 'd', 'x', '!', ':'] c &&
    all.all fun kind => kind.words.all fun word => !word.contains c

/-- Foreign characters stand in texts of four kinds only. -/
theorem accepts_of_mem_foreign {kind : Kind} {c : Char} {text : List Char}
    (h : kind.accepts text = true) (hm : c ∈ text) (hc : isForeign c = true) :
    kind = newline ∨ kind = string ∨ kind = comment ∨ kind = whitespace := by
  simp only [isForeign, Bool.and_eq_true, Bool.not_eq_true', List.all_eq_true,
    List.contains_eq_mem, decide_eq_false_iff_not] at hc
  obtain ⟨⟨⟨⟨⟨⟨hdigit, hbinary⟩, hoctal⟩, hhex⟩, hname⟩, hsign⟩, hwords⟩ := hc
  by_cases hw : kind.words = []
  · have hu := mem_unsigned hm (by rintro rfl; simp at hsign)
    cases kind with
    | newline | string | comment | whitespace => simp
    | float => exact absurd hu (not_mem_of_isFraction h hdigit (by rintro rfl; simp at hsign))
    | scientific => exact absurd hu (not_mem_of_isScientific h hdigit (by simp_all))
    | binary => exact absurd hu (not_mem_of_isRadix h hbinary (by simp_all))
    | octal => exact absurd hu (not_mem_of_isRadix h hoctal (by simp_all))
    | hexadecimal => exact absurd hu (not_mem_of_isRadix h hhex (by simp_all))
    | decimal =>
      rcases Bool.or_eq_true_iff.mp h with h | h
      · exact absurd hu (not_mem_of_isRadix h hdigit (by simp_all))
      · exact absurd hu (not_mem_of_isRun h hdigit)
    | name => exact absurd hm (not_mem_of_isName h hname)
    | dot =>
      rcases accepts_dot_iff.mp h with h | ⟨rest, rfl, h⟩
      · exact absurd hm (not_mem_of_isDots h (by simp_all) (by simp_all))
      · exact absurd hm (by simp_all [not_mem_of_isDots h])
    | _ => exact absurd hw (by decide)
  · exact absurd hm (hwords kind kind.mem_all text (mem_words_of_accepts hw h))

/-- Line feeds and quotation marks stand in texts of three kinds only. -/
theorem accepts_of_mem {kind : Kind} {c : Char} {text : List Char}
    (h : kind.accepts text = true) (hm : c ∈ text) (hc : c ∈ ['\n', '"', '\'']) :
    kind = newline ∨ kind = string ∨ kind = comment := by
  have hd : isForeign c = true ∧ isSpacing c = false := by
    simp only [List.mem_cons, List.not_mem_nil, or_false] at hc
    rcases hc with rfl | rfl | rfl <;> decide
  rcases accepts_of_mem_foreign h hm hd.1 with hk | hk | hk | rfl
  · exact .inl hk
  · exact .inr (.inl hk)
  · exact .inr (.inr hk)
  · exact absurd hm (not_mem_of_isRun h hd.2)

theorem isForeign_of_isSpacing {c : Char} (h : isSpacing c = true) : isForeign c = true := by
  have hc := Char.ofNat_toNat c
  simp only [isSpacing, Bool.or_eq_true, Bool.and_eq_true, beq_iff_eq, decide_eq_true_eq] at h
  generalize c.toNat = n at h hc
  subst c
  have hn : n ∈ [0x20, 0x0c, 0x0d, 0x09, 0x0b, 0xa0, 0x1680, 0x2028, 0x2029, 0x202f, 0x205f,
      0x3000, 0xfeff] ++ List.range' 0x2000 11 := by
    simp only [List.mem_append, List.mem_cons, List.mem_range'_1, List.not_mem_nil, or_false]
    omega
  have hall : ([0x20, 0x0c, 0x0d, 0x09, 0x0b, 0xa0, 0x1680, 0x2028, 0x2029, 0x202f, 0x205f,
      0x3000, 0xfeff] ++ List.range' 0x2000 11).all fun n => isForeign (Char.ofNat n) := by
    decide
  exact List.all_eq_true.mp hall n hn

/-- A text that begins with a foreign character is known by that character. -/
theorem kind_of_head_foreign {kind : Kind} {c : Char} {text : List Char}
    (h : kind.accepts (c :: text) = true) (hc : isForeign c = true) :
    kind = newline ∧ c = '\n' ∨ kind = string ∧ (c = '"' ∨ c = '\'') ∨
      kind = comment ∧ c = '#' ∨ kind = whitespace ∧ isSpacing c = true := by
  rcases accepts_of_mem_foreign h List.mem_cons_self hc with rfl | rfl | rfl | rfl
  · have hrun := (isRun_iff.mp h).2 c List.mem_cons_self
    exact .inl ⟨rfl, by simpa using hrun⟩
  · obtain ⟨mark, rest, he, hmark, -⟩ := isQuoted_iff.mp h
    obtain ⟨rfl, -⟩ := List.cons.inj he
    exact .inr (.inl ⟨rfl, hmark⟩)
  · obtain ⟨rest, he, -⟩ := accepts_comment_iff.mp h
    exact .inr (.inr (.inl ⟨rfl, (List.cons.inj he).1⟩))
  · exact .inr (.inr (.inr ⟨rfl, (isRun_iff.mp h).2 c List.mem_cons_self⟩))

/-- A text with a line feed in it is of no kind unless it is made of line feeds. -/
theorem newline_of_accepts {kind : Kind} {text : List Char} (h : kind.accepts text = true)
    (hn : '\n' ∈ text) : kind = newline := by
  rcases accepts_of_mem h hn (by decide) with hk | rfl | rfl
  · exact hk
  · exact absurd hn (not_mem_of_isQuoted h)
  · obtain ⟨rest, rfl, hr⟩ := accepts_comment_iff.mp h
    exact absurd hn (by simpa using hr)

/-- The words of which the kinds are read before that of any other word. -/
theorem kindsOf_word {kind : Kind} {word : List Char} (hk : kind = keyword ∨ kind = returnWord)
    (h : word ∈ kind.words) : kindsOf word = [kind, name] := by
  revert word
  rcases hk with rfl | rfl <;> decide

end Kind

/-- Giving precedence to keywords and returns never changes the kind of a text. -/
theorem preferredKind?_eq_firstKind? (text : List Char) :
    preferredKind? text = firstKind? text := by
  simp only [firstKind?_eq_head?, preferredKind?]
  cases hf : (kindsOf text).find? fun kind => kind == .keyword || kind == .returnWord with
  | none => exact Option.none_or
  | some kind =>
    have hk : kind = .keyword ∨ kind = .returnWord := by simpa using List.find?_some hf
    have ha : kind.accepts text = true := by
      simpa [kindsOf] using (List.mem_filter.mp (List.mem_of_find?_eq_some hf)).2
    have hw := Kind.mem_words_of_accepts (by rcases hk with rfl | rfl <;> decide) ha
    rw [Kind.kindsOf_word hk hw, Option.some_or, List.head?_cons]

theorem preferredKind?_isSome_iff {text : List Char} :
    (preferredKind? text).isSome = true ↔ IsPiece text := by
  rw [preferredKind?_eq_firstKind?, firstKind?_isSome_iff]

end Offside
