import Offside.Proofs.GreedyAgreement

namespace Offside

namespace Kind

/-- The kind of number that goes on like this behind its first digits. -/
def ofMark : List Char → Kind
  | 'b' :: _ => binary
  | 'o' :: _ => octal
  | 'x' :: _ => hexadecimal
  | 'e' :: _ => scientific
  | 'E' :: _ => scientific
  | '.' :: part => if 'e' ∈ part ∨ 'E' ∈ part then scientific else float
  | _ => decimal

/-- The only kind a text can be of, unless it is a word or a sign. -/
def ofPattern : List Char → Kind
  | [] => decimal
  | c :: text =>
    if c = '\n' then newline
    else if c = '#' then comment
    else if isSpacing c then whitespace
    else if c ∈ ['"', '\''] then string
    else if c ∈ ['.', ':', '!'] then dot
    else if isNameStart c then name
    else ofMark ((unsigned (c :: text)).dropWhile Char.isDigit)

section

variable {kind : Kind} {c : Char} {text : List Char}

/-- A number falls into its first digits and what tells its kind. -/
theorem number_split (hk : kind.isNumber = true) (h : kind.accepts text = true) :
    ∃ whole mark, unsigned text = whole ++ mark ∧ isRun Char.isDigit whole = true ∧
      (∀ c ∈ mark.head?, c.isDigit = false) ∧ kind = ofMark mark := by
  have radix : ∀ {letter : Char} {digit : Char → Bool}, letter.isDigit = false →
      isRadix letter digit (unsigned text) = true → ∃ digits,
        unsigned text = ['0'] ++ letter :: digits ∧ isRun Char.isDigit ['0'] = true ∧
          ∀ c ∈ (letter :: digits).head?, c.isDigit = false := by
    intro letter digit hl hr
    obtain ⟨digits, he, -⟩ := isRadix_split hr
    refine ⟨digits, he, rfl, fun c hc => ?_⟩
    rwa [← Option.some.inj hc]
  cases kind with
  | float =>
    obtain ⟨whole, part, he, hw, hp⟩ := isFraction_iff.mp h
    refine ⟨whole, '.' :: part, he, hw, by simp, ?_⟩
    exact (if_neg (not_or.mpr ⟨not_mem_of_isRun hp rfl, not_mem_of_isRun hp rfl⟩)).symm
  | scientific =>
    obtain ⟨mantissa, letter, exponent, he, hl, hm, -⟩ := isScientific_split h
    rcases hm with hm | hm
    · refine ⟨mantissa, letter :: exponent, he, hm, ?_, ?_⟩
      · rcases hl with rfl | rfl <;> simp
      · rcases hl with rfl | rfl <;> rfl
    · obtain ⟨whole, part, rfl, hw, -⟩ := isFraction_iff.mp hm
      refine ⟨whole, '.' :: (part ++ letter :: exponent), ?_, hw, by simp, ?_⟩
      · rw [he, List.append_assoc, List.cons_append]
      · refine (if_pos ?_).symm
        rcases hl with rfl | rfl <;> simp
  | binary | octal | hexadecimal =>
    obtain ⟨digits, he, hw, hd⟩ := radix rfl h
    exact ⟨_, _, he, hw, hd, rfl⟩
  | decimal =>
    rcases Bool.or_eq_true_iff.mp h with h | h
    · obtain ⟨digits, he, hw, hd⟩ := radix rfl h
      exact ⟨_, _, he, hw, hd, rfl⟩
    · exact ⟨_, [], (List.append_nil _).symm, h, by simp, rfl⟩
  | _ => exact absurd hk (by decide)

/-- A text that begins with a sign or a digit is told by what follows its first digits. -/
theorem ofPattern_eq_ofMark (hc : c = '-' ∨ c.isDigit = true) :
    ofPattern (c :: text) = ofMark ((unsigned (c :: text)).dropWhile Char.isDigit) := by
  rcases hc with rfl | hc
  · rfl
  · obtain ⟨hname, hspacing, hsign⟩ := isDigit_facts hc
    simp only [List.mem_cons, List.not_mem_nil, or_false, not_or] at hsign
    simp [ofPattern, hname, hspacing, hsign]

theorem eq_ofPattern_of_number (hk : kind.isNumber = true) (h : kind.accepts text = true) :
    kind = ofPattern text := by
  obtain ⟨whole, mark, he, hw, hmark, hkind⟩ := number_split hk h
  obtain ⟨hne, hdigits⟩ := isRun_iff.mp hw
  obtain ⟨d, whole, rfl⟩ := List.exists_cons_of_ne_nil hne
  have hdrop : (unsigned text).dropWhile Char.isDigit = mark := by
    rw [he, List.dropWhile_append_of_pos hdigits]
    cases mark with
    | nil => rfl
    | cons c mark => exact List.dropWhile_cons_of_neg (by simp [hmark c rfl])
  have hhead : ∃ c rest, text = c :: rest ∧ (c = '-' ∨ c.isDigit = true) := by
    rcases unsigned_cases text with hu | hu
    · exact ⟨d, whole ++ mark, hu.trans he, .inr (hdigits d List.mem_cons_self)⟩
    · exact ⟨'-', _, hu, .inl rfl⟩
  obtain ⟨c, rest, rfl, hc⟩ := hhead
  rw [ofPattern_eq_ofMark hc, hdrop]
  exact hkind

theorem ofPattern_of_isNameStart (hc : isNameStart c = true) : ofPattern (c :: text) = name := by
  have hspacing : isSpacing c = false := by
    cases hs : isSpacing c with
    | false => rfl
    | true =>
      have hforeign := isForeign_of_isSpacing hs
      simp [isForeign, isNamePart, hc] at hforeign
  have hsign : c ∉ ['\n', '#', '"', '\'', '.', ':', '!'] := by
    intro hm
    have hnone : ['\n', '#', '"', '\'', '.', ':', '!'].all fun c => !isNameStart c := by decide
    simpa [hc] using List.all_eq_true.mp hnone c hm
  simp only [List.mem_cons, List.not_mem_nil, or_false, not_or] at hsign
  simp [ofPattern, hspacing, hsign, hc]

/-- The kinds that are not lists of words and signs do not overlap. -/
theorem eq_ofPattern_of_accepts (hw : kind.words = []) (h : kind.accepts text = true) :
    kind = ofPattern text := by
  cases kind with
  | float | scientific | binary | octal | decimal | hexadecimal =>
    exact eq_ofPattern_of_number rfl h
  | string =>
    obtain ⟨mark, rest, rfl, hm, -⟩ := isQuoted_iff.mp h
    rcases hm with rfl | rfl <;> rfl
  | name =>
    obtain ⟨c, rest, rfl, hc, -⟩ := isName_iff.mp h
    exact (ofPattern_of_isNameStart hc).symm
  | whitespace =>
    obtain ⟨hne, hrun⟩ := isRun_iff.mp h
    obtain ⟨c, rest, rfl⟩ := List.exists_cons_of_ne_nil hne
    have hc := hrun c List.mem_cons_self
    have hfeed : c ≠ '\n' := by
      rintro rfl
      exact absurd hc (by decide)
    have hhash : c ≠ '#' := by
      rintro rfl
      exact absurd hc (by decide)
    rw [ofPattern, if_neg hfeed, if_neg hhash, if_pos hc]
  | newline =>
    obtain ⟨hne, hrun⟩ := isRun_iff.mp h
    obtain ⟨c, rest, rfl⟩ := List.exists_cons_of_ne_nil hne
    have hc : c = '\n' := by simpa using hrun c List.mem_cons_self
    rw [ofPattern, if_pos hc]
  | comment =>
    obtain ⟨rest, rfl, -⟩ := accepts_comment_iff.mp h
    rfl
  | dot =>
    rcases accepts_dot_iff.mp h with hd | ⟨rest, rfl, -⟩
    · rcases isDots_iff.mp hd with rfl | ⟨hl, hc⟩
      · rfl
      · obtain ⟨c, rest, rfl⟩ := List.exists_cons_of_length_pos (by omega : 0 < text.length)
        obtain rfl := hc c List.mem_cons_self
        rfl
    · rfl
  | _ => exact absurd hw (by decide)

/-- A word or a sign is of one kind, or it is a name as well. -/
theorem kindsOf_of_mem_words (h : text ∈ kind.words) : kindsOf text = [kind] ∨
    kind ∈ [boolean, operator, keyword, returnWord] ∧ kindsOf text = [kind, name] := by
  revert text
  cases kind <;> decide

end

end Kind

theorem mem_kindsOf {kind : Kind} {text : List Char} :
    kind ∈ kindsOf text ↔ kind.accepts text = true := by
  simp [kindsOf, kind.mem_all]

theorem kindsOf_nodup (text : List Char) : (kindsOf text).Nodup := by
  have hall : Kind.all.Nodup := by decide
  exact List.Pairwise.filter _ hall

/-- Every text is of no kind, of one, or a name and of one of four kinds. -/
theorem kindsOf_cases (text : List Char) :
    kindsOf text = [] ∨ (∃ kind, kindsOf text = [kind]) ∨
      ∃ kind ∈ [Kind.boolean, .operator, .keyword, .returnWord], kindsOf text = [kind, .name] := by
  by_cases hw : ∃ kind : Kind, text ∈ kind.words
  · obtain ⟨kind, hw⟩ := hw
    rcases Kind.kindsOf_of_mem_words hw with h | ⟨hk, h⟩
    · exact .inr (.inl ⟨kind, h⟩)
    · exact .inr (.inr ⟨kind, hk, h⟩)
  · -- What is no word has no kind but the one that its characters show.
    have hsame : ∀ kind ∈ kindsOf text, kind = Kind.ofPattern text := by
      intro kind hm
      have ha := mem_kindsOf.mp hm
      refine Kind.eq_ofPattern_of_accepts (Classical.byContradiction fun hne => hw ?_) ha
      exact ⟨kind, Kind.mem_words_of_accepts hne ha⟩
    have hnodup := kindsOf_nodup text
    match hkinds : kindsOf text with
    | [] => exact .inl rfl
    | [kind] => exact .inr (.inl ⟨kind, rfl⟩)
    | first :: second :: rest =>
      rw [hkinds] at hsame hnodup
      have hfirst := hsame first List.mem_cons_self
      have hsecond := hsame second (List.mem_cons_of_mem _ List.mem_cons_self)
      simp [hfirst, hsecond] at hnodup

/-- Line feeds make up the only kind of text that a line feed can stand in. -/
theorem accepts_feed_iff {kind : Kind} {text : List Char} :
    kind.accepts text = true ∧ '\n' ∈ text ↔
      kind = .newline ∧ ∃ n, text = List.replicate (n + 1) '\n' := by
  constructor
  · rintro ⟨h, hn⟩
    obtain rfl := Kind.newline_of_accepts h hn
    obtain ⟨hne, hrun⟩ := isRun_iff.mp h
    obtain ⟨c, rest, rfl⟩ := List.exists_cons_of_ne_nil hne
    refine ⟨rfl, rest.length, List.eq_replicate_iff.mpr ⟨rfl, fun c hc => ?_⟩⟩
    simpa using hrun c hc
  · rintro ⟨rfl, n, rfl⟩
    refine ⟨isRun_iff.mpr ⟨by simp, fun c hc => ?_⟩, by simp⟩
    simpa using List.eq_of_mem_replicate hc

/-- A text is of no kind, of one, or it is a name and of exactly one of four other kinds. So the
kind that it is given is always the first in grammar order. A line feed stands in runs of line
feeds only, and the empty text is of no kind. -/
theorem kindsOf_unambiguous (text : List Char) :
    (∀ kind, kind ∈ kindsOf text ↔ kind.accepts text = true) ∧
    (kindsOf text = [] ∨ (∃ kind, kindsOf text = [kind]) ∨
      ∃ kind ∈ [Kind.boolean, .operator, .keyword, .returnWord], kindsOf text = [kind, .name]) ∧
    preferredKind? text = (kindsOf text).head? ∧ firstKind? text = (kindsOf text).head? ∧
    (∀ kind : Kind, kind.accepts text = true ∧ '\n' ∈ text ↔
      kind = .newline ∧ ∃ n, text = List.replicate (n + 1) '\n') ∧
    kindsOf [] = [] := by
  have hfirst := firstKind?_eq_head? text
  have hpreferred := (preferredKind?_eq_firstKind? text).trans hfirst
  exact ⟨fun kind => mem_kindsOf, kindsOf_cases text, hpreferred, hfirst,
    fun kind => accepts_feed_iff, rfl⟩

end Offside
