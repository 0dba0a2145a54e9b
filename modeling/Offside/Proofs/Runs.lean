import Offside.Readers

namespace Offside

/-- What a computation can ask for: that a span be read as a value, or as a block. -/
inductive Query where
  | value (span : List Tree)
  | block (span : List Tree)

def Query.span : Query → List Tree
  | value span => span
  | block span => span

/-- A computation taken step by step. It ends with a result or a refusal, it breaks off at an
operation that is applied out of its range, or it makes a query and goes on with the answer. -/
inductive Run (α : Type) where
  | done (result : α)
  | refused (diagnostic : Diagnostic)
  | broken
  | value (span : List Tree) (next : Outcome Value → Run α)
  | block (span : List Tree) (next : Outcome Block → Run α)

namespace Run

variable {α β γ : Type}

def bind : Run α → (α → Run β) → Run β
  | done result, f => f result
  | refused diagnostic, _ => refused diagnostic
  | broken, _ => broken
  | value span next, f => value span fun answer => (next answer).bind f
  | block span next, f => block span fun answer => (next answer).bind f

instance : Monad Run where
  pure := done
  bind := bind

theorem bind_done (result : α) (f : α → Run β) : (done result >>= f) = f result :=
  rfl

theorem bind_pure (run : Run α) : (run >>= fun result => done result) = run := by
  induction run with
  | done result => rfl
  | refused diagnostic => rfl
  | broken => rfl
  | value span next ih => exact congrArg (Run.value span) (funext ih)
  | block span next ih => exact congrArg (Run.block span) (funext ih)

theorem bind_assoc (run : Run α) (f : α → Run β) (g : β → Run γ) :
    (run >>= f) >>= g = run >>= fun result => f result >>= g := by
  induction run with
  | done result => rfl
  | refused diagnostic => rfl
  | broken => rfl
  | value span next ih => exact congrArg (Run.value span) (funext ih)
  | block span next ih => exact congrArg (Run.block span) (funext ih)

instance : LawfulMonad Run :=
  LawfulMonad.mk' Run bind_pure (fun _ _ => rfl) bind_assoc

def ofOutcome : Outcome α → Run α
  | .ok result => done result
  | .error diagnostic => refused diagnostic

def valueOf (span : List Tree) : Run Value :=
  value span ofOutcome

def blockOf (span : List Tree) : Run Block :=
  block span ofOutcome

/-- Asks for a value, and blames `position` if the span holds no token to blame. -/
def valueAt (span : List Tree) (position : Position) : Run Value :=
  value span fun answer => ofOutcome (answer.orAt position)

/-- The outcome when queries are answered by readers. A run that breaks off has none. -/
def eval (r : Readers) : Run α → Option (Outcome α)
  | done result => some (.ok result)
  | refused diagnostic => some (.error diagnostic)
  | broken => none
  | value span next => (next (r.value span)).eval r
  | block span next => (next (r.block span)).eval r

/-- Whether a run makes a query, whatever the answers to the queries before. -/
def Asks : Run α → Query → Prop
  | done _, _ => False
  | refused _, _ => False
  | broken, _ => False
  | value span next, query => query = .value span ∨ ∃ answer, (next answer).Asks query
  | block span next, query => query = .block span ∨ ∃ answer, (next answer).Asks query

section

variable {r : Readers} {run : Run α} {f : α → Run β} {query : Query}

theorem eval_bind (r : Readers) (run : Run α) (f : α → Run β) :
    (run >>= f).eval r = (run.eval r).bind fun
      | .ok result => (f result).eval r
      | .error diagnostic => some (.error diagnostic) := by
  induction run with
  | done result => rfl
  | refused diagnostic => rfl
  | broken => rfl
  | value span next ih => exact ih (r.value span)
  | block span next ih => exact ih (r.block span)

/-- Runs follow each other as their outcomes do. -/
theorem eval_bind_of_eval {outcome : Outcome α} {g : α → Outcome β} (h : run.eval r = some outcome)
    (hf : ∀ result, (f result).eval r = some (g result)) :
    (run >>= f).eval r = some (outcome >>= g) := by
  rw [eval_bind, h]
  cases outcome with
  | ok result => exact hf result
  | error diagnostic => rfl

theorem eval_ofOutcome (outcome : Outcome α) : (ofOutcome outcome).eval r = some outcome := by
  cases outcome with
  | ok result => rfl
  | error diagnostic => rfl

theorem eval_valueOf (span : List Tree) : (valueOf span).eval r = some (r.value span) :=
  eval_ofOutcome _

theorem eval_blockOf (span : List Tree) : (blockOf span).eval r = some (r.block span) :=
  eval_ofOutcome _

theorem eval_valueAt (span : List Tree) (position : Position) :
    (valueAt span position).eval r = some (r.valueAt span position) :=
  eval_ofOutcome _

theorem eval_mapM {xs : List γ} {f : γ → Run β} {g : γ → Outcome β}
    (h : ∀ x ∈ xs, (f x).eval r = some (g x)) : (xs.mapM f).eval r = some (xs.mapM g) := by
  induction xs with
  | nil => rfl
  | cons x xs ih =>
    rw [List.mapM_cons, List.mapM_cons]
    refine eval_bind_of_eval (h x List.mem_cons_self) fun y => ?_
    exact eval_bind_of_eval (ih fun x hx => h x (List.mem_cons_of_mem _ hx)) fun ys => rfl

theorem asks_bind (h : (run >>= f).Asks query) :
    run.Asks query ∨ ∃ result, (f result).Asks query := by
  induction run with
  | done result => exact .inr ⟨result, h⟩
  | refused diagnostic => exact .inl h
  | broken => exact .inl h
  | value span next ih =>
    rcases h with rfl | ⟨answer, h⟩
    · exact .inl (.inl rfl)
    · exact (ih answer h).imp_left fun h => .inr ⟨answer, h⟩
  | block span next ih =>
    rcases h with rfl | ⟨answer, h⟩
    · exact .inl (.inl rfl)
    · exact (ih answer h).imp_left fun h => .inr ⟨answer, h⟩

/-- What is made of a result asks for nothing more. -/
theorem asks_of_bind_pure {g : α → β} (h : (run >>= fun result => pure (g result)).Asks query) :
    run.Asks query :=
  (asks_bind h).resolve_right fun ⟨_, h⟩ => h

theorem asks_ofOutcome {outcome : Outcome α} (h : (ofOutcome outcome).Asks query) : False := by
  cases outcome with
  | ok result => exact h
  | error diagnostic => exact h

theorem asks_valueOf {span : List Tree} (h : (valueOf span).Asks query) :
    query = .value span := by
  rcases h with h | ⟨answer, h⟩
  · exact h
  · exact (asks_ofOutcome h).elim

theorem asks_blockOf {span : List Tree} (h : (blockOf span).Asks query) :
    query = .block span := by
  rcases h with h | ⟨answer, h⟩
  · exact h
  · exact (asks_ofOutcome h).elim

theorem asks_valueAt {span : List Tree} {position : Position}
    (h : (valueAt span position).Asks query) : query = .value span := by
  rcases h with h | ⟨answer, h⟩
  · exact h
  · exact (asks_ofOutcome h).elim

theorem asks_mapM {xs : List γ} {f : γ → Run β} (h : (xs.mapM f).Asks query) :
    ∃ x ∈ xs, (f x).Asks query := by
  induction xs with
  | nil => exact h.elim
  | cons x xs ih =>
    rw [List.mapM_cons] at h
    rcases asks_bind h with h | ⟨y, h⟩
    · exact ⟨x, List.mem_cons_self, h⟩
    · rcases asks_bind h with h | ⟨ys, h⟩
      · obtain ⟨x', hx, h⟩ := ih h
        exact ⟨x', List.mem_cons_of_mem _ hx, h⟩
      · exact h.elim

end

/-- The items from `start` up to, and without, `stop`. -/
def slice (xs : List α) (start stop : Nat) : Run (List α) :=
  if start ≤ stop ∧ stop ≤ xs.length then done ((xs.take stop).drop start) else broken

def before (xs : List α) (stop : Nat) : Run (List α) :=
  slice xs 0 stop

def behind (xs : List α) (start : Nat) : Run (List α) :=
  slice xs start xs.length

def item (xs : List α) (i : Nat) : Run α :=
  match xs[i]? with
  | some x => done x
  | none => broken

def minus (a b : Nat) : Run Nat :=
  if b ≤ a then done (a - b) else broken

def remainder (a b : Nat) : Run Nat :=
  if b = 0 then broken else done (a % b)

def quotient (a b : Nat) : Run Nat :=
  if b = 0 then broken else done (a / b)

theorem slice_append (left inside right : List α) :
    slice (left ++ (inside ++ right)) left.length (left.length + inside.length) = done inside := by
  have hlen : left.length + inside.length ≤ (left ++ (inside ++ right)).length := by
    simp only [List.length_append]
    omega
  rw [slice, if_pos ⟨Nat.le_add_right _ _, hlen⟩, List.take_length_add_append,
    List.drop_left, List.take_left]

/-- A slice that begins behind an item. -/
theorem slice_behind_item (left inside right : List α) (x : α) :
    slice (left ++ x :: (inside ++ right)) (left.length + 1) (left.length + 1 + inside.length) =
      done inside := by
  have hlen : left.length + 1 = (left ++ [x]).length := by simp
  rw [List.append_cons, hlen]
  exact slice_append _ _ _

theorem minus_eq {a b c : Nat} (h : a = b + c) : minus a c = done b := by
  rw [minus, if_pos (by omega)]
  exact congrArg done (by omega)

theorem before_append (left right : List α) : before (left ++ right) left.length = done left := by
  rw [before, slice, if_pos ⟨Nat.zero_le _, by simp⟩, List.take_left, List.drop_zero]

theorem behind_append (left right : List α) : behind (left ++ right) left.length = done right := by
  rw [behind, slice, if_pos ⟨by simp, Nat.le_refl _⟩, List.take_length, List.drop_left]

theorem behind_item (left right : List α) (x : α) :
    behind (left ++ x :: right) (left.length + 1) = done right := by
  have hlen : left.length + 1 = (left ++ [x]).length := by simp
  rw [List.append_cons, hlen]
  exact behind_append _ _

theorem behind_first (x : α) (xs : List α) : behind (x :: xs) 1 = done xs :=
  behind_item [] xs x

theorem slice_behind_first (x : α) (inside right : List α) :
    slice (x :: (inside ++ right)) 1 (inside.length + 1) = done inside := by
  rw [Nat.add_comm]
  exact slice_append [x] inside right

theorem item_append (left right : List α) (x : α) :
    item (left ++ x :: right) left.length = done x := by
  simp [item]

end Run

end Offside
