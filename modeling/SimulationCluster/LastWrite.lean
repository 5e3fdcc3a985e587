import Mathlib.Logic.Function.Basic

namespace LastWrite

variable {κ ν : Type*} [DecidableEq κ]

def write (t : κ → Option ν) (w : κ × ν) : κ → Option ν := Function.update t w.1 (some w.2)

/-- The value of the last write to `k`. -/
def lastTo (k : κ) : List (κ × ν) → Option ν
  | [] => none
  | w :: ws => (lastTo k ws).or (if w.1 = k then some w.2 else none)

theorem write_apply (t : κ → Option ν) (w : κ × ν) (k : κ) :
    write t w k = (if w.1 = k then some w.2 else none).or (t k) := by
  by_cases hk : w.1 = k
  · subst hk
    simp [write]
  · rw [write, Function.update_of_ne (Ne.symm hk), if_neg hk, Option.none_or]

/-- A table holds what was last written, and what it held where nothing was written. -/
theorem foldl_write (t : κ → Option ν) (ws : List (κ × ν)) (k : κ) :
    ws.foldl write t k = (lastTo k ws).or (t k) := by
  induction ws generalizing t with
  | nil => rfl
  | cons w ws ih => rw [List.foldl_cons, ih, write_apply, lastTo, Option.or_assoc]

theorem lastTo_isSome_iff (k : κ) (ws : List (κ × ν)) :
    (lastTo k ws).isSome ↔ ∃ w ∈ ws, w.1 = k := by
  induction ws with
  | nil => simp [lastTo]
  | cons w ws ih =>
    rw [lastTo, Option.isSome_or, Bool.or_eq_true, ih]
    by_cases hk : w.1 = k <;> simp [hk]

end LastWrite
