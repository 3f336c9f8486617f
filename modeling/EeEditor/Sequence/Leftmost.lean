import Mathlib.Data.List.Basic

/-!
# Leftmost matches

The matches of a pattern from left to right, in which a match that is taken uses up its elements.
-/

namespace EeEditor

variable {α : Type} [DecidableEq α]

/-- The starts of the matches, from a position on and after elements that are used up. -/
def leftmostFrom (q : List α) : ℕ → ℕ → List α → List ℕ
  | _, _, [] => []
  | i, 0, x :: xs =>
    if q.isPrefixOf (x :: xs) then i :: leftmostFrom q (i + 1) (q.length - 1) xs
    else leftmostFrom q (i + 1) 0 xs
  | i, skip + 1, _ :: xs => leftmostFrom q (i + 1) skip xs

/-- The starts of the leftmost matches that do not overlap. -/
def leftmost (q xs : List α) : List ℕ := leftmostFrom q 0 0 xs

end EeEditor
