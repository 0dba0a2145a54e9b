import Offside.Proofs.CommentDeletion
import Offside.Proofs.ParallelReading
import Offside.Proofs.Sameness

namespace Offside

/-- Blocks are the same when they agree in structure, as values do. -/
def Block.same (a b : Block) : Bool :=
  a.outline.same b.outline

/-- Whether a change of tokens leaves what they say, and where keywords stand. -/
class KeepsKeywords (f : Token → Token) : Prop extends KeepsWords f where
  start : ∀ t : Token, t.kind = .keyword → (f t).span.start = t.span.start

section

variable {f : Token → Token} [KeepsWords f]

theorem Token.same_of_keepsWords (t : Token) : t.same (f t) = true :=
  same_iff.mpr ⟨(KeepsWords.kind t).symm, (KeepsWords.text t).symm⟩

namespace Outline

variable {fields fields' : List (String × Outline)} {a b a' b' : Outline}

theorem sameItems_of_forall₂ {α : Type} {outlines : List α → List Outline} {outline : α → Outline}
    (hnil : outlines [] = []) (hcons : ∀ x xs, outlines (x :: xs) = outline x :: outlines xs)
    {xs ys : List α} (h : List.Forall₂ (fun x y => (outline x).same (outline y) = true) xs ys) :
    sameItems (outlines xs) (outlines ys) = true := by
  induction h with
  | nil =>
    rw [hnil]
    rfl
  | cons hxy _ ih => rw [hcons, hcons, sameItems, hxy, ih, Bool.and_self]

theorem sameFields_cons {label : String} (h : a.same b = true)
    (hfields : sameFields fields fields' = true) :
    sameFields ((label, a) :: fields) ((label, b) :: fields') = true := by
  simp [sameFields, h, hfields]

theorem same_pair (h : a.same b = true) (h' : a'.same b' = true) :
    (pair a a').same (pair b b') = true := by
  simp [pair, same, sameItems, h, h']

theorem same_tokens (ts : List Token) : (tokens ts).same (tokens (ts.map f)) = true := by
  rw [tokens, tokens, same]
  induction ts with
  | nil => rfl
  | cons t ts ih =>
    rw [List.map_cons, List.map_cons, List.map_cons, sameItems, same, t.same_of_keepsWords, ih,
      Bool.and_self]

theorem same_block (form : BlockForm) (h : Heading) (hfields : sameFields fields fields' = true) :
    (block form h fields).same (block form (h.change f id) fields') = true := by
  simp [block, label, Heading.change, same, sameFields, same_tokens, hfields]

theorem same_construct (form : ConstructForm) (hfields : sameFields fields fields' = true) :
    (label "Construct" (construct form fields)).same
      (label "Construct" (construct form fields')) = true := by
  simp [construct, label, same, sameFields, hfields]

end Outline

end

open Outline

/-- What is read after a change of tokens that leaves what they say and where keywords stand is the
same. -/
def sameness (f : Token → Token) [KeepsKeywords f] : Resemblance f id where
  place _ _ := True
  diagnostic d e := d.cause = e.cause
  value v w := v.same w = true
  block b c := b.same c = true
  keyword := KeepsKeywords.start
  start _ := trivial
  origin _ := trivial
  unknown := trivial
  orElse _ _ := trivial
  refusal _ _ := rfl
  orAt h _ := h
  same := by
    intro v v' w w' hv hw
    rw [Bool.eq_iff_iff]
    constructor
    · exact fun h => same_trans (same_symm hv) (same_trans h hw)
    · exact fun h => same_trans hv (same_trans h (same_symm hw))
  literal t := sameFields_cons t.same_of_keepsWords rfl
  index i _ := sameFields_cons (Token.same_iff.mpr ⟨rfl, rfl⟩) rfl
  ofBlock h := sameFields_cons h rfl
  returning h := same_construct .returning (sameFields_cons h rfl)
  call := by
    intro v v' arguments arguments' hv ha
    refine same_construct .call (sameFields_cons hv (sameFields_cons ?_ rfl))
    refine sameItems_of_forall₂ rfl (fun _ _ => rfl) (ha.imp ?_)
    rintro ⟨name, v⟩ ⟨_, w⟩ ⟨rfl, h⟩
    exact same_pair (same_refl _) h
  access hv hk := same_construct .access (sameFields_cons hv (sameFields_cons hk rfl))
  chain accessors h :=
    same_construct .chain (sameFields_cons h (sameFields_cons (same_tokens accessors) rfl))
  lambda parameters h :=
    same_construct .lambda (sameFields_cons (same_refl _) (sameFields_cons h rfl))
  dictionary := by
    intro entries entries' he
    refine same_construct .dictionary (sameFields_cons ?_ rfl)
    refine sameItems_of_forall₂ rfl (fun _ _ => rfl) (he.imp ?_)
    rintro ⟨key, v⟩ ⟨key', v'⟩ ⟨hk, hv⟩
    exact same_pair hk hv
  operation := by
    intro items items' hi
    refine same_construct .operation (sameFields_cons ?_ rfl)
    refine sameItems_of_forall₂ rfl (fun _ _ => rfl) (hi.imp ?_)
    rintro _ _ (t | t | hv)
    · exact sameFields_cons t.same_of_keepsWords rfl
    · exact sameFields_cons t.same_of_keepsWords rfl
    · exact sameFields_cons hv rfl
  assignment t hv hw :=
    same_construct .assignment
      (sameFields_cons hv (sameFields_cons t.same_of_keepsWords (sameFields_cons hw rfl)))
  imports h symbols := same_block .imports h (sameFields_cons (same_tokens symbols) rfl)
  closure h name hb := by
    refine same_block .closure h (sameFields_cons (same_refl _) (sameFields_cons ?_ rfl))
    exact sameItems_of_forall₂ rfl (fun _ _ => rfl) hb
  conditional h hv hw := same_block .conditional h (sameFields_cons hv (sameFields_cons hw rfl))
  otherwise h hv := same_block .otherwise h (sameFields_cons hv rfl)
  sequence h hv := by
    refine same_block .sequence h (sameFields_cons ?_ rfl)
    exact sameItems_of_forall₂ rfl (fun _ _ => rfl) hv
  each h iterator hv hw :=
    same_block .each h
      (sameFields_cons (same_refl _) (sameFields_cons hv (sameFields_cons hw rfl)))
  repetition h hv hw := same_block .repetition h (sameFields_cons hv (sameFields_cons hw rfl))
  function h name parameters hv :=
    same_block .function h
      (sameFields_cons (same_refl _) (sameFields_cons (same_refl _) (sameFields_cons hv rfl)))

theorem Outcome.alike_of_relates {α β : Type} {related : α → β → Prop} {x : Outcome α}
    {y : Outcome β} (h : x.Relates (fun d e => d.cause = e.cause) related y) :
    x.Alike related y := by
  cases x with
  | ok a =>
    cases y with
    | ok b => exact h
    | error e => exact h
  | error d =>
    cases y with
    | ok b => exact h
    | error e => exact h

/-- Reading does not look at places, but for those of keywords. -/
theorem readSymbols_sameness {f : Token → Token} [KeepsKeywords f] (span : List Tree) :
    (readSymbols readers span).Alike (List.Forall₂ fun b c => b.same c = true)
      (readSymbols readers (span.map (Tree.mapTokens f))) :=
  Outcome.alike_of_relates ((sameness f).readSymbols (sameness f).reads_readers span)

end Offside
