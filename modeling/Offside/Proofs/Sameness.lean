import Offside.Outline

namespace Offside

section

variable {a b c : Token}

theorem Token.same_refl (a : Token) : a.same a = true :=
  same_iff.mpr ⟨rfl, rfl⟩

theorem Token.same_symm (h : a.same b = true) : b.same a = true := by
  obtain ⟨hk, ht⟩ := same_iff.mp h
  exact same_iff.mpr ⟨hk.symm, ht.symm⟩

theorem Token.same_trans (h : a.same b = true) (h' : b.same c = true) : a.same c = true := by
  obtain ⟨hk, ht⟩ := same_iff.mp h
  obtain ⟨hk', ht'⟩ := same_iff.mp h'
  exact same_iff.mpr ⟨hk.trans hk', ht.trans ht'⟩

end

namespace Outline

mutual

theorem same_refl (a : Outline) : a.same a = true := by
  match a with
  | text s => exact beq_self_eq_true s
  | token t => exact t.same_refl
  | place p => exact beq_self_eq_true p
  | list items => exact sameItems_refl items
  | record fields => exact sameFields_refl fields

theorem sameItems_refl (items : List Outline) : sameItems items items = true := by
  match items with
  | [] => rfl
  | item :: items => rw [sameItems, same_refl item, sameItems_refl items, Bool.and_self]

theorem sameFields_refl (fields : List (String × Outline)) : sameFields fields fields = true := by
  match fields with
  | [] => rfl
  | (label, content) :: fields =>
    rw [sameFields, same_refl content, sameFields_refl fields, beq_self_eq_true, Bool.and_self,
      Bool.and_self]

end

mutual

theorem same_symm {a b : Outline} (h : a.same b = true) : b.same a = true := by
  cases a with
  | text s =>
    cases b with
    | text s' =>
      obtain rfl := eq_of_beq h
      exact h
    | token | place | list | record => cases h
  | token t =>
    cases b with
    | token t' => exact Token.same_symm h
    | text | place | list | record => cases h
  | place p =>
    cases b with
    | place p' =>
      obtain rfl := eq_of_beq h
      exact h
    | text | token | list | record => cases h
  | list items =>
    cases b with
    | list items' => exact sameItems_symm h
    | text | token | place | record => cases h
  | record fields =>
    cases b with
    | record fields' => exact sameFields_symm h
    | text | token | place | list => cases h

theorem sameItems_symm {as bs : List Outline} (h : sameItems as bs = true) :
    sameItems bs as = true := by
  match as, bs with
  | [], [] => rfl
  | a :: as, b :: bs =>
    rw [sameItems, Bool.and_eq_true] at h ⊢
    exact ⟨same_symm h.1, sameItems_symm h.2⟩

theorem sameFields_symm {as bs : List (String × Outline)} (h : sameFields as bs = true) :
    sameFields bs as = true := by
  match as, bs with
  | [], [] => rfl
  | (label, a) :: as, (label', b) :: bs =>
    rw [sameFields, Bool.and_eq_true, Bool.and_eq_true, beq_iff_eq] at h ⊢
    exact ⟨⟨h.1.1.symm, same_symm h.1.2⟩, sameFields_symm h.2⟩

end

mutual

theorem same_trans {a b c : Outline} (h : a.same b = true) (h' : b.same c = true) :
    a.same c = true := by
  cases a with
  | text s =>
    cases b with
    | text s' =>
      obtain rfl := eq_of_beq h
      exact h'
    | token | place | list | record => cases h
  | token t =>
    cases b with
    | token t' =>
      cases c with
      | token t'' => exact Token.same_trans h h'
      | text | place | list | record => cases h'
    | text | place | list | record => cases h
  | place p =>
    cases b with
    | place p' =>
      obtain rfl := eq_of_beq h
      exact h'
    | text | token | list | record => cases h
  | list as =>
    cases b with
    | list bs =>
      cases c with
      | list cs => exact sameItems_trans h h'
      | text | token | place | record => cases h'
    | text | token | place | record => cases h
  | record as =>
    cases b with
    | record bs =>
      cases c with
      | record cs => exact sameFields_trans h h'
      | text | token | place | list => cases h'
    | text | token | place | list => cases h

theorem sameItems_trans {as bs cs : List Outline} (h : sameItems as bs = true)
    (h' : sameItems bs cs = true) : sameItems as cs = true := by
  match as, bs, cs with
  | [], [], [] => rfl
  | a :: as, b :: bs, c :: cs =>
    rw [sameItems, Bool.and_eq_true] at h h' ⊢
    exact ⟨same_trans h.1 h'.1, sameItems_trans h.2 h'.2⟩

theorem sameFields_trans {as bs cs : List (String × Outline)} (h : sameFields as bs = true)
    (h' : sameFields bs cs = true) : sameFields as cs = true := by
  match as, bs, cs with
  | [], [], [] => rfl
  | (label, a) :: as, (label', b) :: bs, (label'', c) :: cs =>
    rw [sameFields, Bool.and_eq_true, Bool.and_eq_true, beq_iff_eq] at h h' ⊢
    exact ⟨⟨h.1.1.trans h'.1.1, same_trans h.1.2 h'.1.2⟩, sameFields_trans h.2 h'.2⟩

end

end Outline

/-- Agreeing in structure is an equivalence of values. -/
theorem Value.same_equivalence : Equivalence fun v w : Value => v.same w = true :=
  ⟨fun v => v.outline.same_refl, Outline.same_symm, Outline.same_trans⟩

end Offside
