namespace Offside

variable {κ ν : Type}

/-- Sets the value of a key where the key first came up, or adds both at the end. -/
def put (same : κ → κ → Bool) (key : κ) (value : ν) : List (κ × ν) → List (κ × ν)
  | [] => [(key, value)]
  | entry :: entries =>
    if same entry.1 key then (entry.1, value) :: entries
    else entry :: put same key value entries

/-- One entry a key, in the order in which the keys first came up, each with its last value. -/
def collect (same : κ → κ → Bool) (pairs : List (κ × ν)) : List (κ × ν) :=
  pairs.foldl (fun entries pair => put same pair.1 pair.2 entries) []

theorem collect_append (same : κ → κ → Bool) (pairs : List (κ × ν)) (pair : κ × ν) :
    collect same (pairs ++ [pair]) = put same pair.1 pair.2 (collect same pairs) := by
  rw [collect, collect, List.foldl_append, List.foldl_cons, List.foldl_nil]

end Offside
