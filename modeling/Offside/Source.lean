namespace Offside

/-- A named text. The tag tells apart two buffers that hold the same text under the same name. -/
structure Source where
  name : String
  text : String
  tag : Nat := 0
deriving DecidableEq, Repr, Inhabited

/-- A byte offset into a source, or a place nothing is known about. -/
inductive Position where
  | unknown
  | within (source : Source) (offset : Nat)
deriving DecidableEq, Repr, Inhabited

/-- The stretch from one position up to, and without, another. -/
structure Span where
  start : Position
  stop : Position
deriving DecidableEq, Repr, Inhabited

/-- How many bytes the UTF-8 form of a text takes. -/
def byteLength (text : List Char) : Nat :=
  text.foldr (fun c size => c.utf8Size + size) 0

/-- The longest beginning of a text that fits into a number of bytes. -/
def takeBytes : Nat → List Char → List Char
  | _, [] => []
  | room, c :: text =>
    if c.utf8Size ≤ room then c :: takeBytes (room - c.utf8Size) text else []

/-- What stands after the last line feed. -/
def lastLine (text : List Char) : List Char :=
  (text.reverse.takeWhile (· != '\n')).reverse

theorem byteLength_cons (c : Char) (text : List Char) :
    byteLength (c :: text) = c.utf8Size + byteLength text :=
  rfl

theorem byteLength_append (xs ys : List Char) :
    byteLength (xs ++ ys) = byteLength xs + byteLength ys := by
  induction xs with
  | nil => exact (Nat.zero_add _).symm
  | cons c xs ih => rw [List.cons_append, byteLength_cons, byteLength_cons, ih, Nat.add_assoc]

theorem takeBytes_isPrefix (room : Nat) (text : List Char) : takeBytes room text <+: text := by
  fun_induction takeBytes room text with
  | case1 => exact List.prefix_rfl
  | case2 room c text h ih => exact List.cons_prefix_cons.mpr ⟨rfl, ih⟩
  | case3 room c text h => exact List.nil_prefix

theorem takeBytes_byteLength (before after : List Char) :
    takeBytes (byteLength before) (before ++ after) = before := by
  induction before with
  | nil =>
    cases after with
    | nil => rfl
    | cons c after =>
      have hc := c.utf8Size_pos
      rw [List.nil_append, takeBytes, if_neg (by simp [byteLength]; omega)]
  | cons c before ih =>
    rw [byteLength_cons, List.cons_append, takeBytes, if_pos (by omega), Nat.add_sub_cancel_left,
      ih]

/-- The place where reading a source begins. -/
def Source.start (source : Source) : Position :=
  .within source 0

namespace Position

/-- This position, or another one if nothing is known about it. -/
def orElse : Position → Position → Position
  | unknown, other => other
  | within source offset, _ => within source offset

def file : Position → String
  | unknown => ""
  | within source _ => source.name

def text : Position → List Char
  | unknown => []
  | within source _ => source.text.toList

/-- The text before a position. An offset inside a character counts as its beginning, and one
past the end as the end. -/
def preceding : Position → List Char
  | unknown => []
  | within source offset => takeBytes offset source.text.toList

def following (p : Position) : List Char :=
  p.text.drop p.preceding.length

/-- Lines are counted from one. -/
def line (p : Position) : Nat :=
  p.preceding.count '\n' + 1

/-- Columns are counted from one, in characters. -/
def column (p : Position) : Nat :=
  (lastLine p.preceding).length + 1

/-- The whole line around a position, without its line feed. -/
def lineText (p : Position) : List Char :=
  lastLine p.preceding ++ p.following.takeWhile (· != '\n')

theorem preceding_append_following (p : Position) : p.preceding ++ p.following = p.text := by
  cases p with
  | unknown => rfl
  | within source offset =>
    exact (List.prefix_iff_eq_append.mp (takeBytes_isPrefix offset source.text.toList))

end Position

end Offside
