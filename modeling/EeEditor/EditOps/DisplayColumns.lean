import Mathlib.Order.Bounds.Basic
import Mathlib.Tactic.Common

/-!
# Display columns

`expand_tabs` and `display_col_for_str` of `xi-core-lib/src/edit_ops/align.rs`. How many columns a
character takes is told by a crate outside the repository, so that it is a parameter; a tab goes on
to the next tab stop.
-/

namespace EeEditor.EditOps

/-- `UnicodeWidthChar::width`. -/
abbrev CharWidth := Char → Option ℕ

variable (charWidth : CharWidth) (tabSize : ℕ)

@[grind =] def tabWidth (displayCol : ℕ) : ℕ :=
  let width := tabSize - displayCol % tabSize
  if width = 0 then tabSize else width

@[grind =] def expandTabsFrom : List Char → ℕ → List Char
  | [], _ => []
  | ch :: text, displayCol =>
    if ch = '\t' then
      List.replicate (tabWidth tabSize displayCol) ' ' ++
        expandTabsFrom text (displayCol + tabWidth tabSize displayCol)
    else ch :: expandTabsFrom text (displayCol + (charWidth ch).getD 0)

def expandTabs (text : List Char) : List Char := expandTabsFrom charWidth (max tabSize 1) text 0

@[grind =] def displayColFrom : List Char → ℕ → ℕ
  | [], displayCol => displayCol
  | ch :: text, displayCol =>
    if ch = '\t' then displayColFrom text (displayCol + tabWidth tabSize displayCol)
    else displayColFrom text (displayCol + (charWidth ch).getD 0)

def displayColForStr (text : List Char) : ℕ := displayColFrom charWidth (max tabSize 1) text 0

variable {charWidth tabSize} {col : ℕ} {s t text : List Char}

/-! ## Tab stops -/

/-- The next tab stop. -/
theorem isLeast_tabWidth (htab : 0 < tabSize) (col : ℕ) :
    IsLeast {n | 0 < n ∧ tabSize ∣ col + n} (tabWidth tabSize col) := by
  have hmod := Nat.mod_lt col htab
  have hdiv := Nat.div_add_mod col tabSize
  have hwidth : tabWidth tabSize col = tabSize - col % tabSize := if_neg (by omega)
  rw [hwidth]
  refine ⟨⟨by omega, col / tabSize + 1, ?_⟩, fun n ⟨hpos, hdvd⟩ ↦ ?_⟩
  · rw [Nat.mul_add, Nat.mul_one]
    omega
  · by_contra hlt
    have hsum : (col + n) % tabSize = col % tabSize + n := by
      rw [Nat.add_mod, Nat.mod_eq_of_lt (by omega : n < tabSize), Nat.mod_eq_of_lt (by omega)]
    rw [Nat.mod_eq_zero_of_dvd hdvd] at hsum
    omega

/-- Every tab is replaced by the spaces to the next tab stop. -/
inductive Expands (charWidth : CharWidth) (tabSize : ℕ) : ℕ → List Char → List Char → Prop
  | nil (col : ℕ) : Expands charWidth tabSize col [] []
  | tab {col n : ℕ} {s t : List Char} (hn : IsLeast {n | 0 < n ∧ tabSize ∣ col + n} n)
    (h : Expands charWidth tabSize (col + n) s t) :
    Expands charWidth tabSize col ('\t' :: s) (List.replicate n ' ' ++ t)
  | char {col : ℕ} {ch : Char} {s t : List Char} (hch : ch ≠ '\t')
    (h : Expands charWidth tabSize (col + (charWidth ch).getD 0) s t) :
    Expands charWidth tabSize col (ch :: s) (ch :: t)

theorem expands_iff (htab : 0 < tabSize) :
    Expands charWidth tabSize col s t ↔ t = expandTabsFrom charWidth tabSize s col := by
  constructor
  · intro h
    induction h with
    | nil col => rfl
    | tab hn h ih =>
      obtain rfl := hn.unique (isLeast_tabWidth htab _)
      rw [expandTabsFrom, if_pos rfl, ih]
    | char hch h ih => rw [expandTabsFrom, if_neg hch, ih]
  · rintro rfl
    induction s generalizing col with
    | nil => exact .nil col
    | cons ch s ih =>
      rw [expandTabsFrom]
      split_ifs with hch
      · subst hch
        exact .tab (isLeast_tabWidth htab col) ih
      · exact .char hch ih

/-- Without tabs nothing is expanded. -/
theorem expandTabsFrom_of_notMem (h : '\t' ∉ s) (col : ℕ) :
    expandTabsFrom charWidth tabSize s col = s := by
  induction s generalizing col with
  | nil => rfl
  | cons ch s ih =>
    rw [List.mem_cons, not_or] at h
    rw [expandTabsFrom, if_neg (Ne.symm h.1), ih h.2]

/-- A character of the result is a space or is not a tab of the text. -/
theorem mem_expandTabsFrom {ch : Char} (h : ch ∈ expandTabsFrom charWidth tabSize s col) :
    ch = ' ' ∨ ch ∈ s ∧ ch ≠ '\t' := by
  induction s generalizing col with
  | nil => cases h
  | cons d s ih =>
    rw [expandTabsFrom] at h
    split_ifs at h with hd
    · rcases List.mem_append.mp h with h | h
      · exact .inl (List.eq_of_mem_replicate h)
      · exact (ih h).imp_right (And.imp_left (List.mem_cons_of_mem d))
    · rcases List.mem_cons.mp h with rfl | h
      · exact .inr ⟨List.mem_cons_self, hd⟩
      · exact (ih h).imp_right (And.imp_left (List.mem_cons_of_mem d))

variable (charWidth tabSize) in
theorem tab_notMem_expandTabs (s : List Char) : '\t' ∉ expandTabs charWidth tabSize s := by
  intro h
  rcases mem_expandTabsFrom h with h | ⟨-, hne⟩
  · cases h
  · exact hne rfl

theorem tabWidth_pos (htab : 0 < tabSize) (col : ℕ) : 0 < tabWidth tabSize col :=
  (isLeast_tabWidth htab col).1.1

/-! ## Texts put together -/

theorem displayColFrom_append (s t : List Char) (col : ℕ) :
    displayColFrom charWidth tabSize (s ++ t) col =
      displayColFrom charWidth tabSize t (displayColFrom charWidth tabSize s col) := by
  induction s generalizing col with
  | nil => rfl
  | cons ch s ih =>
    rw [List.cons_append, displayColFrom, displayColFrom]
    split_ifs <;> exact ih _

theorem expandTabsFrom_append (s t : List Char) (col : ℕ) :
    expandTabsFrom charWidth tabSize (s ++ t) col = expandTabsFrom charWidth tabSize s col ++
      expandTabsFrom charWidth tabSize t (displayColFrom charWidth tabSize s col) := by
  induction s generalizing col with
  | nil => rfl
  | cons ch s ih =>
    rw [List.cons_append, expandTabsFrom, expandTabsFrom, displayColFrom]
    split_ifs
    · rw [ih, List.append_assoc]
    · rw [ih, List.cons_append]

/-- Without tabs it does not matter where a text begins. -/
theorem displayColFrom_of_notMem (h : '\t' ∉ t) (col : ℕ) :
    displayColFrom charWidth tabSize t col = col + displayColFrom charWidth tabSize t 0 := by
  induction t generalizing col with
  | nil => rfl
  | cons ch t ih =>
    rw [List.mem_cons, not_or] at h
    rw [displayColFrom, displayColFrom, if_neg (Ne.symm h.1), if_neg (Ne.symm h.1), ih h.2,
      ih h.2 (0 + _), Nat.zero_add, Nat.add_assoc]

theorem displayColForStr_append (h : '\t' ∉ t) (s : List Char) :
    displayColForStr charWidth tabSize (s ++ t) =
      displayColForStr charWidth tabSize s + displayColForStr charWidth tabSize t := by
  rw [displayColForStr, displayColFrom_append, displayColFrom_of_notMem h, displayColForStr,
    displayColForStr]

theorem le_displayColFrom (t : List Char) (col : ℕ) :
    col ≤ displayColFrom charWidth tabSize t col := by
  induction t generalizing col with
  | nil => exact Nat.le_refl col
  | cons ch t ih =>
    rw [displayColFrom]
    split_ifs <;> exact (Nat.le_add_right col _).trans (ih _)

/-- A text moved to the right is as wide as before if its tabs are moved from one tab stop to
another. -/
theorem displayColFrom_add {n : ℕ} (h : '\t' ∈ t → tabSize ∣ n) (col : ℕ) :
    displayColFrom charWidth tabSize t (col + n) = displayColFrom charWidth tabSize t col + n := by
  induction t generalizing col with
  | nil => rfl
  | cons ch t ih =>
    have hrest := ih fun hmem ↦ h (List.mem_cons_of_mem ch hmem)
    rw [displayColFrom, displayColFrom]
    split_ifs with hch
    · have hmod : (col + n) % tabSize = col % tabSize := by
        rw [Nat.add_mod, Nat.mod_eq_zero_of_dvd (h (hch ▸ List.mem_cons_self)), Nat.add_zero,
          Nat.mod_mod]
      rw [tabWidth, tabWidth, hmod, Nat.add_right_comm, hrest]
    · rw [Nat.add_right_comm, hrest]

theorem displayColFrom_replicate (hspace : charWidth ' ' = some 1) (n col : ℕ) :
    displayColFrom charWidth tabSize (List.replicate n ' ') col = col + n := by
  induction n generalizing col with
  | zero => rfl
  | succ n ih =>
    rw [List.replicate_succ, displayColFrom, if_neg (by decide), hspace, Option.getD_some, ih,
      Nat.add_assoc, Nat.add_comm 1]

/-- What is expanded ends as the text does, or with a space. -/
theorem getLast?_expandTabsFrom {ch : Char} (htab : 0 < tabSize)
    (h : (expandTabsFrom charWidth tabSize s col).getLast? = some ch) :
    ch = ' ' ∨ s.getLast? = some ch := by
  rcases List.eq_nil_or_concat s with rfl | ⟨s, d, rfl⟩
  · cases h
  · rw [List.concat_eq_append, expandTabsFrom_append, expandTabsFrom] at h
    rw [List.concat_eq_append, List.getLast?_concat]
    split_ifs at h with hd
    · obtain ⟨n, hn⟩ := Nat.exists_eq_succ_of_ne_zero
        (tabWidth_pos htab (displayColFrom charWidth tabSize s col)).ne'
      rw [hn, expandTabsFrom, List.append_nil, List.replicate_succ', ← List.append_assoc,
        List.getLast?_concat] at h
      exact .inl (Option.some.inj h).symm
    · rw [expandTabsFrom, List.getLast?_concat] at h
      exact .inr h

end EeEditor.EditOps
