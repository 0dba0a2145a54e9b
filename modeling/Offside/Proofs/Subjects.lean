import Offside.Proofs.Descent

namespace Offside

/-- Whether a span has no arrow, and begins with what can be a subject, in front of a token of a
kind. -/
def HasSubject (kind : Kind) (span : List Tree) : Prop :=
  hasArrow span = false ∧ ∃ subject t rest, span = subject ++ .token t :: rest ∧
    canBeSubject subject = true ∧ t.kind = kind

section

variable {span rest : List Tree} {shape : Shape}

theorem hasSubject_of_call? (h : call? span = some shape) : HasSubject .openParen span := by
  obtain ⟨callee, opener, arguments, closer, hspan, ho, -, harrow, hsubject, -⟩ := call?_eq_some h
  exact ⟨harrow, callee, opener, _, hspan, hsubject, ho⟩

theorem hasSubject_of_access? (h : access? span = some shape) : HasSubject .openBracket span := by
  obtain ⟨subject, opener, key, closer, hspan, ho, -, -, harrow, hsubject, -⟩ := access?_eq_some h
  exact ⟨harrow, subject, opener, _, hspan, hsubject, ho⟩

theorem hasSubject_of_chain? (h : chain? span = some shape) : HasSubject .dot span := by
  obtain ⟨subject, dot, rest, accessors, hd, harrow, hsubject, -, -, -⟩ := chain?_eq_some h
  obtain ⟨hspan, -, ht⟩ := divide?_eq_some_iff.mp hd
  have hk := List.mem_singleton.mp (separator?_eq_some_iff.mp ht).1
  exact ⟨harrow, subject, dot, rest, hspan, hsubject, hk⟩

/-- Without a subject only the other forms are left. -/
theorem shape?_of_no_subject (hreturn : returning? span = none)
    (h : ∀ kind ∈ [Kind.openParen, .openBracket, .dot], ¬HasSubject kind span) :
    shape? span = (lambda? span).or ((dictionary? span).or
      ((operation? span).or (assignment? span))) := by
  have hcall : call? span = none :=
    Option.eq_none_iff_forall_ne_some.mpr fun _ hs => h _ (by simp) (hasSubject_of_call? hs)
  have haccess : access? span = none :=
    Option.eq_none_iff_forall_ne_some.mpr fun _ hs => h _ (by simp) (hasSubject_of_access? hs)
  have hchain : chain? span = none :=
    Option.eq_none_iff_forall_ne_some.mpr fun _ hs => h _ (by simp) (hasSubject_of_chain? hs)
  simp only [shape?, ConstructForm.inOrder, ConstructForm.shape?, List.findSome?_cons, hreturn,
    hcall, haccess, hchain, List.findSome?_nil]
  cases lambda? span <;> cases dictionary? span <;> cases operation? span <;>
    cases assignment? span <;> rfl

end

section

variable {t sign : Token} {rest : List Tree}

/-- Where an element stands in a list: it is one of the first two, or stands behind them. -/
theorem eq_append_cons_cases {α : Type} {x y z : α} {rest left right : List α}
    (h : x :: y :: rest = left ++ z :: right) :
    left = [] ∧ z = x ∨ left = [x] ∧ z = y ∨ ∃ more, left = x :: y :: more := by
  match left with
  | [] => exact .inl ⟨rfl, (List.cons.inj h).1.symm⟩
  | [_] =>
    obtain ⟨rfl, hrest⟩ := List.cons.inj h
    exact .inr (.inl ⟨rfl, (List.cons.inj hrest).1.symm⟩)
  | _ :: _ :: more =>
    obtain ⟨rfl, hrest⟩ := List.cons.inj h
    obtain ⟨rfl, -⟩ := List.cons.inj hrest
    exact .inr (.inr ⟨more, rfl⟩)

theorem isUndivided_of_value {kinds : List Kind} (ht : t.kind.isValue = true)
    (hvalues : ∀ kind ∈ kinds, kind.isValue = false) : IsUndivided kinds .top [.token t] := by
  have hnot : t.kind ∉ kinds := fun hm => by simp [hvalues _ hm] at ht
  exact isUndivided_cons.mpr ⟨separator?_of_not_mem hnot, isUndivided_nil⟩

theorem canBeSubject_of_value (ht : t.kind.isValue = true) : canBeSubject [.token t] = true :=
  canBeSubject_iff.mpr ⟨List.cons_ne_nil _ _, isUndivided_of_value ht (by decide)⟩

theorem divide?_behind_value {kinds : List Kind} (ht : t.kind.isValue = true)
    (hvalues : ∀ kind ∈ kinds, kind.isValue = false) (hs : sign.kind ∈ kinds)
    (htop : Depth.top.after (.token sign) = .top) (rest : List Tree) :
    divide? kinds (.token t :: .token sign :: rest) = some ([.token t], sign, rest) := by
  have hflat : Depth.top.after (.token t) = .top := by
    cases hk : t.kind <;> simp_all [Depth.after, Kind.isValue]
  refine divide?_eq_some_iff.mpr ⟨rfl, isUndivided_of_value ht hvalues, ?_⟩
  rw [List.foldl_cons, hflat, List.foldl_nil, htop]
  exact separator?_eq_some_iff.mpr ⟨hs, rfl⟩

/-- A token that is a value and an assignment sign make an assignment, whatever comes behind. -/
theorem shape?_of_value_assignment (ht : t.kind.isValue = true) (hs : sign.kind = .assignment)
    (rest : List Tree) : shape? (.token t :: .token sign :: rest) =
      some (.assignment [.token t] sign rest) := by
  have htop : Depth.top.after (.token sign) = .top := by simp [Depth.after, hs]
  have hsubject : ∀ kind ∈ [Kind.openParen, .openBracket, .dot],
      ¬HasSubject kind (.token t :: .token sign :: rest) := by
    rintro kind hkind ⟨-, subject, u, more, hspan, hcan, rfl⟩
    rcases eq_append_cons_cases hspan with ⟨rfl, -⟩ | ⟨rfl, hu⟩ | ⟨more, rfl⟩
    · cases hcan
    · obtain rfl := Tree.token.inj hu
      simp [hs] at hkind
    · have hd := @divide?_behind_value _ _ [.operator, .assignment, .arrow] ht (by decide)
        (by simp [hs]) htop more
      obtain ⟨i, hi, -⟩ := Option.bind_eq_some_iff.mp hd
      simp [canBeSubject, hi] at hcan
  have hreturn : returning? (.token t :: .token sign :: rest) = none := by
    cases hk : t.kind <;> simp_all [returning?, Tree.hasKind, Kind.isValue]
  have hlambda : lambda? (.token t :: .token sign :: rest) = none := by
    rw [lambda?]
    cases hd : divide? [.arrow] (.token t :: .token sign :: rest) with
    | none => rfl
    | some parts =>
      obtain ⟨head, arrow, body⟩ := parts
      obtain ⟨hspan, -, harrow⟩ := divide?_eq_some_iff.mp hd
      have hkind := List.mem_singleton.mp (separator?_eq_some_iff.mp harrow).1
      rcases eq_append_cons_cases hspan with ⟨-, hu⟩ | ⟨-, hu⟩ | ⟨more, rfl⟩
      · obtain rfl := Tree.token.inj hu
        simp [hkind, Kind.isValue] at ht
      · obtain rfl := Tree.token.inj hu
        simp [hkind] at hs
      · have hparameters : parameters? (.token t :: .token sign :: more) = none := by
          cases hk : t.kind <;> simp_all [parameters?, leaves, Tree.leaves, Kind.isValue]
        simp [hparameters]
  have hdictionary : dictionary? (.token t :: .token sign :: rest) = none := by
    cases hk : t.kind <;> simp_all [dictionary?, Tree.hasKind, Kind.isValue]
  have hdivide := @divide?_behind_value _ _ [.operator, .assignment] ht (by decide) (by simp [hs])
    htop rest
  rw [shape?_of_no_subject hreturn hsubject, hlambda, hdictionary, operation?, assignment?, hdivide]
  simp [hs]

end

end Offside
