import Mathlib.Data.List.Induction
import Offside.Proofs.Labels
import Offside.Proofs.Sameness

namespace Offside

section

variable {κ ν : Type} {same : κ → κ → Bool}

/-- The keys of a list in the order in which they first come up. -/
def firstKeys (same : κ → κ → Bool) : List κ → List κ
  | [] => []
  | key :: keys => key :: (firstKeys same keys).filter (!same key ·)

/-- Whether some entries are an insertion-ordered map of the pairs they come from: no key twice,
the keys in the order in which they first came up, and with each key the value that it came up with
last. -/
structure IsInsertionOrdered (same : κ → κ → Bool) (pairs entries : List (κ × ν)) : Prop where
  distinct : entries.Pairwise fun entry entry' => same entry.1 entry'.1 = false
  first : entries.map Prod.fst = firstKeys same (pairs.map Prod.fst)
  last : ∀ entry ∈ entries, ∃ before key after, pairs = before ++ (key, entry.2) :: after ∧
    same entry.1 key = true ∧ ∀ pair ∈ after, same entry.1 pair.1 = false

theorem firstKeys_pairwise (keys : List κ) :
    (firstKeys same keys).Pairwise fun key key' => same key key' = false := by
  induction keys with
  | nil => exact .nil
  | cons key keys ih =>
    refine .cons ?_ (ih.filter _)
    intro key' hm
    simpa using (List.mem_filter.mp hm).2

theorem IsInsertionOrdered.eq_nil_iff {pairs entries : List (κ × ν)}
    (h : IsInsertionOrdered same pairs entries) : entries = [] ↔ pairs = [] := by
  rw [← List.map_eq_nil_iff, h.first]
  cases pairs with
  | nil => simp [firstKeys]
  | cons pair pairs => simp [firstKeys]

/-! An entry is put where its key is, and at the end if the key is new. -/

theorem map_fst_put (key : κ) (value : ν) (entries : List (κ × ν)) :
    (put same key value entries).map Prod.fst =
      entries.map Prod.fst ++ if entries.any (same ·.1 key) then [] else [key] := by
  induction entries with
  | nil => rfl
  | cons entry entries ih =>
    rw [put, List.any_cons]
    cases hk : same entry.1 key with
    | true => simp
    | false => simp only [Bool.false_or, Bool.false_eq_true, if_false, List.map_cons, ih,
        List.cons_append]

variable (h : Equivalence fun key key' => same key key' = true)

include h

theorem same_eq_false {key key' key'' : κ} (hk : same key key' = true)
    (hne : same key key'' = false) : same key' key'' = false := by
  cases hs : same key' key'' with
  | false => rfl
  | true => exact (h.trans hk hs).symm.trans hne

theorem firstKeys_append (keys : List κ) (key : κ) :
    firstKeys same (keys ++ [key]) =
      firstKeys same keys ++ if (firstKeys same keys).any (same · key) then [] else [key] := by
  induction keys with
  | nil => rfl
  | cons first keys ih =>
    rw [List.cons_append, firstKeys, firstKeys, ih, List.filter_append, List.cons_append,
      List.any_cons]
    congr 2
    cases hf : same first key with
    | true =>
      -- The key has come up as the first one, whether or not the others had it.
      split <;> simp [hf]
    | false =>
      -- A key that agrees with this one is not dropped for agreeing with the first.
      have hany : ((firstKeys same keys).filter (!same first ·)).any (same · key) =
          (firstKeys same keys).any (same · key) := by
        rw [List.any_filter]
        refine List.any_congr rfl fun key' => ?_
        cases hs : same key' key with
        | false => rw [Bool.and_false]
        | true =>
          cases hf' : same first key' with
          | false => rfl
          | true => exact hf.symm.trans (h.trans hf' hs)
      rw [hany, Bool.false_or]
      split <;> simp [hf]

theorem mem_put {key : κ} {value : ν} {entries : List (κ × ν)}
    (hd : entries.Pairwise fun entry entry' => same entry.1 entry'.1 = false) {entry : κ × ν}
    (hm : entry ∈ put same key value entries) :
    (same entry.1 key = true ∧ entry.2 = value) ∨
      (entry ∈ entries ∧ same entry.1 key = false) := by
  induction entries with
  | nil =>
    obtain rfl := List.mem_singleton.mp hm
    exact .inl ⟨h.refl key, rfl⟩
  | cons first entries ih =>
    obtain ⟨hfirst, hd⟩ := List.pairwise_cons.mp hd
    rw [put] at hm
    split at hm
    next hk =>
      rcases List.mem_cons.mp hm with rfl | hm
      · exact .inl ⟨hk, rfl⟩
      · refine .inr ⟨List.mem_cons_of_mem _ hm, ?_⟩
        have hne := same_eq_false h hk (hfirst entry hm)
        cases hs : same entry.1 key with
        | false => rfl
        | true => exact (h.symm hs).symm.trans hne
    next hk =>
      rcases List.mem_cons.mp hm with rfl | hm
      · exact .inr ⟨List.mem_cons_self, eq_false_of_ne_true hk⟩
      · exact (ih hd hm).imp_right (And.imp_left (List.mem_cons_of_mem _))

theorem collect_isInsertionOrdered (pairs : List (κ × ν)) :
    IsInsertionOrdered same pairs (collect same pairs) := by
  induction pairs using List.reverseRecOn with
  | nil => exact ⟨.nil, rfl, fun entry hm => (List.not_mem_nil hm).elim⟩
  | append_singleton pairs pair ih =>
    have hkeys : (collect same (pairs ++ [pair])).map Prod.fst =
        firstKeys same ((pairs ++ [pair]).map Prod.fst) := by
      rw [collect_append, map_fst_put, List.map_append, List.map_cons, List.map_nil,
        firstKeys_append h, ← ih.first, List.any_map]
      rfl
    refine ⟨?_, hkeys, fun entry hm => ?_⟩
    · have hpairwise := @firstKeys_pairwise _ same ((pairs ++ [pair]).map Prod.fst)
      rw [← hkeys] at hpairwise
      exact List.pairwise_map.mp hpairwise
    · rw [collect_append] at hm
      rcases mem_put h ih.distinct hm with ⟨hk, hv⟩ | ⟨hm, hk⟩
      · exact ⟨pairs, pair.1, [], by rw [hv], hk, fun _ hm => (List.not_mem_nil hm).elim⟩
      · obtain ⟨before, key, after, rfl, hkey, hafter⟩ := ih.last entry hm
        refine ⟨before, key, after ++ [pair], by simp, hkey, ?_⟩
        exact List.forall_mem_append.mpr ⟨hafter, List.forall_mem_singleton.mpr hk⟩

end

/-! What the parts between commas stand for. -/

/-- Whether a part of a dictionary stands for a key and a value: what is read before the first colon
outside of all brackets, and what is read behind it. A part without such a colon is a value, and its
position among all parts is its key. -/
inductive ReadsEntry (opener : Position) (i : Nat) : List Tree → Value × Value → Prop where
  | labelled {left right : List Tree} {colon : Token} {key value : Value}
    (colonKind : colon.kind = .colon) (undivided : IsUndivided [.colon] .top left)
    (outermost : (left.foldl Depth.after .top) = .top)
    (readsKey : readValue left = .ok key) (readsValue : readValue right = .ok value) :
    ReadsEntry opener i (left ++ .token colon :: right) (key, value)
  | unlabelled {part : List Tree} {value : Value} {place : Position}
    (undivided : IsUndivided [.colon] .top part)
    (position : place = (origin part).orElse opener)
    (readsValue : readValue part = .ok value) :
    ReadsEntry opener i part (.literal ⟨.decimal, toString i, ⟨place, place⟩⟩, value)

/-- Whether a part between the parentheses of a call stands for a name and a value. A part that is
not a name and a colon before a value is a value, and its position among all parts is its name. -/
inductive ReadsArgument (i : Nat) : List Tree → String × Value → Prop where
  | labelled {label colon : Token} {part : List Tree} {value : Value}
    (labelKind : label.kind = .name) (colonKind : colon.kind = .colon)
    (readsValue : readValue part = .ok value) :
    ReadsArgument i (.token label :: .token colon :: part) (label.text, value)
  | unlabelled {part : List Tree} {value : Value} (readsValue : readValue part = .ok value) :
    ReadsArgument i part (toString i, value)

/-- Whether the parts between commas stand for some elements, each part at its position. -/
def ReadsParts {α : Type} (reads : Nat → List Tree → α → Prop) (parts : List (List Tree))
    (elements : List α) : Prop :=
  List.Forall₂ (fun part element => reads part.2 part.1 element) parts.zipIdx elements

section

variable {opener : Position} {i : Nat} {part : List Tree}

theorem after_colon {colon : Token} (hc : colon.kind = .colon) (depth : Depth) :
    depth.after (.token colon) = depth := by
  simp [Depth.after, hc]

/-- An entry is read from just the parts that stand for it. -/
theorem readEntry_eq_ok_iff {entry : Value × Value} :
    readEntry readers opener part i = .ok entry ↔ ReadsEntry opener i part entry := by
  constructor
  · intro h
    obtain ⟨key, value⟩ := entry
    rcases readEntry_eq_ok h with ⟨left, colon, right, hd, hk, hv⟩ | ⟨hd, hk, hv⟩
    · obtain ⟨rfl, hu, ht⟩ := divide?_eq_some_iff.mp hd
      obtain ⟨hkind, hdepth⟩ := separator?_eq_some_iff.mp ht
      have hc := List.mem_singleton.mp hkind
      rw [after_colon hc] at hdepth
      exact .labelled hc hu hdepth (readers.value_of_valueAt hk) (readers.value_of_valueAt hv)
    · have hkey : key = indexKey i ((origin part).orElse opener) := hk
      subst hkey
      exact .unlabelled (divide?_eq_none_iff.mp hd) rfl (readers.value_of_valueAt hv)
  · intro h
    cases h with
    | @labelled left right colon key value hc hu ho hk hv =>
      have hd : divide? [.colon] (left ++ .token colon :: right) = some (left, colon, right) := by
        refine divide?_eq_some_iff.mpr ⟨rfl, hu, separator?_eq_some_iff.mpr ⟨by simp [hc], ?_⟩⟩
        rw [ho, after_colon hc]
      rw [readEntry, hd]
      dsimp only
      rw [Readers.valueAt_of_ok hk, Readers.valueAt_of_ok hv]
      rfl
    | unlabelled hu hp hv =>
      rw [readEntry, divide?_eq_none_iff.mpr hu]
      dsimp only
      rw [Readers.valueAt_of_ok hv, hp]
      rfl

theorem labelled?_eq_some {label : Token} {rest : List Tree}
    (h : labelled? part = some (label, rest)) :
    ∃ colon : Token, part = .token label :: .token colon :: rest ∧ label.kind = .name ∧
      colon.kind = .colon := by
  obtain ⟨colon, rfl, hc⟩ := eq_of_labelled? h
  obtain ⟨t, ht, -⟩ := Option.bind_eq_some_iff.mp h
  obtain rfl := Tree.token.inj (token_of_name? ht)
  exact ⟨colon, rfl, kind_of_name? ht, hc⟩

/-- An argument is read from just the parts that stand for it. -/
theorem readArgument_eq_ok_iff {argument : String × Value} :
    readArgument readers opener part i = .ok argument ↔ ReadsArgument i part argument := by
  constructor
  · intro h
    obtain ⟨name, value⟩ := argument
    rcases readArgument_eq_ok h with ⟨label, rest, hl, hn, hv⟩ | ⟨-, hn, hv⟩
    · obtain ⟨colon, rfl, hkind, hc⟩ := labelled?_eq_some hl
      have hname : name = label.text := hn
      subst hname
      exact .labelled hkind hc (readers.value_of_valueAt hv)
    · have hname : name = toString i := hn
      subst hname
      exact .unlabelled (readers.value_of_valueAt hv)
  · intro h
    cases h with
    | @labelled label colon part value hl hc hv =>
      have hd : labelled? (.token label :: .token colon :: part) = some (label, part) := by
        simp [labelled?, Tree.name?, Tree.hasKind, hl, hc]
      rw [readArgument, hd]
      dsimp only
      rw [Readers.valueAt_of_ok hv]
      rfl
    | @unlabelled part value hv =>
      -- no value begins with a label
      have hnone : labelled? part = none := by
        refine Option.eq_none_iff_forall_ne_some.mpr ?_
        rintro ⟨label, rest⟩ hl
        obtain ⟨colon, rfl, hkind, hc⟩ := labelled?_eq_some hl
        exact readValue_refuses_label hkind hc rest value hv
      rw [readArgument, hnone]
      dsimp only
      rw [Readers.valueAt_of_ok hv]
      rfl

theorem valueAt_of_joinLines_eq_nil (h : joinLines part = []) (position : Position) :
    readers.valueAt part position = refuse .noExpression position := by
  have hread : readers.value part = refuse .noExpression .unknown := by
    change readValue part = _
    rw [← readValue_joinLines, h, readValue_eq]
    rfl
  rw [Readers.valueAt, hread]
  rfl

theorem kind_of_joinLines_eq_nil (h : joinLines part = []) {t : Token} (ht : .token t ∈ part) :
    t.kind = .newline := by
  simpa [Tree.hasKind] using List.filter_eq_nil_iff.mp h _ ht

/-- A part that holds nothing is refused where the part or, if that has no place, the dictionary
begins. -/
theorem readEntry_of_empty (h : joinLines part = []) :
    readEntry readers opener part i = refuse .noExpression ((origin part).orElse opener) := by
  have hnone : divide? [.colon] part = none := by
    refine Option.eq_none_iff_forall_ne_some.mpr ?_
    rintro ⟨left, colon, right⟩ hd
    have hk := List.mem_singleton.mp (kind_of_divide? hd)
    obtain rfl := eq_of_divide? hd
    cases hk.symm.trans (kind_of_joinLines_eq_nil h (by simp))
  rw [readEntry, hnone]
  dsimp only
  rw [valueAt_of_joinLines_eq_nil h]
  rfl

theorem readArgument_of_empty (h : joinLines part = []) :
    readArgument readers opener part i = refuse .noExpression opener := by
  have hnone : labelled? part = none := by
    refine Option.eq_none_iff_forall_ne_some.mpr ?_
    rintro ⟨label, rest⟩ hl
    obtain ⟨colon, rfl, hc⟩ := eq_of_labelled? hl
    cases hc.symm.trans (kind_of_joinLines_eq_nil h (by simp))
  rw [readArgument, hnone]
  dsimp only
  rw [valueAt_of_joinLines_eq_nil h]
  rfl

end

section

variable {α : Type} {reads : Nat → List Tree → α → Prop} {read : List Tree → Nat → Outcome α}
  {parts : List (List Tree)} {span : List Tree} {elements : List α}

theorem ReadsParts.mapM (h : ReadsParts reads parts elements)
    (hread : ∀ {i part element}, reads i part element → read part i = .ok element) :
    parts.zipIdx.mapM (fun (part, i) => read part i) = .ok elements := by
  rw [ReadsParts] at h
  generalize parts.zipIdx = numbered at h
  induction h with
  | nil => rfl
  | cons hfirst _ ih =>
    rw [List.mapM_cons, ih]
    dsimp only
    rw [hread hfirst]
    rfl

/-- Parts are read up to the first one that is refused. -/
theorem readListed_of_error {before after : List (List Tree)} {part : List Tree} {d : Diagnostic}
    (hs : split [.comma] false span = before ++ part :: after)
    (h : ReadsParts reads before elements)
    (hread : ∀ {i part element}, reads i part element → read part i = .ok element)
    (hd : read part before.length = .error d) : readListed read span = .error d := by
  rw [readListed, hs, List.zipIdx_append, List.zipIdx_cons, List.mapM_append, List.mapM_cons,
    h.mapM hread, Nat.zero_add]
  dsimp only
  rw [hd]
  rfl

theorem ReadsParts.eq_nil_iff (h : ReadsParts reads (split [.comma] false span) elements) :
    elements = [] ↔ span = [] := by
  have hlength := h.length_eq
  rw [List.length_zipIdx] at hlength
  rw [← List.length_eq_zero_iff, ← hlength, List.length_eq_zero_iff, split]
  cases span with
  | nil => simp
  | cons tree span => simp

end

/-- The entries of a dictionary and the arguments of a call are insertion-ordered maps of what
stands between their commas, whatever the number of the parts. They are empty only where nothing
stands between the brackets, and an empty part is no expression. -/
theorem listed_parts_are_insertion_ordered (opener : Tree) (span : List Tree) :
    (∀ pairs, ReadsParts (ReadsEntry opener.start) (split [.comma] false span) pairs →
      ∃ entries, (Shape.dictionary opener span).read readers = .ok (.dictionary entries) ∧
        IsInsertionOrdered Value.same pairs entries ∧ (entries = [] ↔ span = [])) ∧
    (∀ pairs, ReadsParts ReadsArgument (split [.comma] false span) pairs →
      ∃ arguments, (∀ callee, (Shape.call callee opener span).read readers =
          (readValue callee).map fun value => .call value arguments) ∧
        IsInsertionOrdered (· == ·) pairs arguments ∧ (arguments = [] ↔ span = [])) ∧
    ∀ before part after, split [.comma] false span = before ++ part :: after →
      joinLines part = [] →
      (∀ pairs, ReadsParts (ReadsEntry opener.start) before pairs →
        (Shape.dictionary opener span).read readers =
          refuse .noExpression ((origin part).orElse opener.start)) ∧
      ∀ pairs, ReadsParts ReadsArgument before pairs → ∀ callee,
        (Shape.call callee opener span).read readers = refuse .noExpression opener.start := by
  have hstrings : Equivalence fun s s' : String => (s == s') = true :=
    ⟨fun s => beq_self_eq_true s, fun h => beq_iff_eq.mpr (beq_iff_eq.mp h).symm,
      fun h h' => beq_iff_eq.mpr ((beq_iff_eq.mp h).trans (beq_iff_eq.mp h'))⟩
  refine ⟨fun pairs h => ?_, fun pairs h => ?_, fun before part after hs hp => ⟨?_, ?_⟩⟩
  · have hordered := collect_isInsertionOrdered Value.same_equivalence pairs
    refine ⟨_, ?_, hordered, hordered.eq_nil_iff.trans h.eq_nil_iff⟩
    rw [Shape.read, readListed, h.mapM readEntry_eq_ok_iff.mpr]
    rfl
  · have hordered := collect_isInsertionOrdered hstrings pairs
    refine ⟨_, fun callee => ?_, hordered, hordered.eq_nil_iff.trans h.eq_nil_iff⟩
    rw [Shape.read, readListed, h.mapM readArgument_eq_ok_iff.mpr]
    change (do
      let value ← readValue callee
      return _) = _
    cases readValue callee <;> rfl
  · intro pairs h
    rw [Shape.read, readListed_of_error hs h readEntry_eq_ok_iff.mpr (readEntry_of_empty hp)]
    rfl
  · intro pairs h callee
    rw [Shape.read, readListed_of_error hs h readArgument_eq_ok_iff.mpr
      (readArgument_of_empty hp)]
    rfl

/-- The lists `x: 1, y, x: y` and `x: 1, y, x: y,`. -/
theorem listed_parts_with_repeated_key :
    let token (kind : Kind) (text : String) : Token := ⟨kind, text, ⟨.unknown, .unknown⟩⟩
    let x := token .name "x"
    let y := token .name "y"
    let one := token .decimal "1"
    let colon := Tree.token (token .colon ":")
    let comma := Tree.token (token .comma ",")
    let opener := Tree.token (token .openCurly "\x7b")
    let span := [.token x, colon, .token one, comma, .token y, comma, .token x, colon, .token y]
    let entries := [(Value.literal x, Value.literal one), (.literal one, .literal y),
      (.literal x, .literal y)]
    let arguments := [("x", Value.literal one), ("1", .literal y), ("x", .literal y)]
    let parts := split [.comma] false span
    ReadsParts (ReadsEntry opener.start) parts entries ∧ ReadsParts ReadsArgument parts arguments ∧
      split [.comma] false (span ++ [comma]) = parts ++ [[]] ∧
      (∃ map, (Shape.dictionary opener span).read readers = .ok (.dictionary map) ∧
        IsInsertionOrdered Value.same entries map) ∧
      (∃ map, (Shape.call [.token y] opener span).read readers =
          (readValue [.token y]).map (.call · map) ∧
        IsInsertionOrdered (· == ·) arguments map) ∧
      (Shape.dictionary opener (span ++ [comma])).read readers = refuse .noExpression .unknown ∧
      (Shape.call [.token y] opener (span ++ [comma])).read readers =
        refuse .noExpression .unknown := by
  intro token x y one colon comma opener span entries arguments parts
  have hx : readValue [.token x] = .ok (.literal x) := readValue_literal rfl
  have hy : readValue [.token y] = .ok (.literal y) := readValue_literal rfl
  have hone : readValue [.token one] = .ok (.literal one) := readValue_literal rfl
  have hundivided : ∀ {t : Token}, t.kind ≠ .colon → IsUndivided [.colon] .top [.token t] :=
    fun ht => isUndivided_cons.mpr ⟨separator?_of_not_mem (by simpa using ht), isUndivided_nil⟩
  have hlabelled : ∀ {i : Nat} {t : Token}, readValue [.token t] = .ok (.literal t) →
      ReadsEntry opener.start i [.token x, colon, .token t] (.literal x, .literal t) :=
    @fun _ t ht =>
      @ReadsEntry.labelled _ _ [.token x] [.token t] _ _ _ rfl (hundivided (by decide)) rfl hx ht
  have hunlabelled : ReadsEntry opener.start 1 [.token y] (.literal one, .literal y) :=
    .unlabelled (hundivided (by decide)) rfl hy
  have hentries : ReadsParts (ReadsEntry opener.start) parts entries :=
    .cons (hlabelled hone) (.cons hunlabelled (.cons (hlabelled hy) .nil))
  have hsecond : ReadsArgument 1 [.token y] ("1", .literal y) := .unlabelled hy
  have harguments : ReadsParts ReadsArgument parts arguments :=
    .cons (.labelled rfl rfl hone) (.cons hsecond (.cons (.labelled rfl rfl hy) .nil))
  have hsplit : split [.comma] false (span ++ [comma]) = parts ++ [[]] := rfl
  obtain ⟨hdictionary, hcall, -⟩ := listed_parts_are_insertion_ordered opener span
  obtain ⟨-, -, hempty⟩ := listed_parts_are_insertion_ordered opener (span ++ [comma])
  obtain ⟨map, hread, hmap, -⟩ := hdictionary entries hentries
  obtain ⟨map', hread', hmap', -⟩ := hcall arguments harguments
  obtain ⟨hd, hc⟩ := hempty parts [] [] hsplit rfl
  exact ⟨hentries, harguments, hsplit, ⟨map, hread, hmap⟩, ⟨map', hread' _, hmap'⟩,
    hd entries hentries, hc arguments harguments _⟩

end Offside
