import Mathlib.Data.List.Basic
import Mathlib.Data.List.DropRight
import Mathlib.Tactic.Common

/-!
# Lines

A list of which an element ends a line. What follows the last line end is a line too, so that a list
is either a line, or a line with its end and then a list: the lines are those of `List.splitOn`.
-/

namespace EeEditor

variable {α : Type*} {sep : α} {line rest text : List α}

/-! ## Lines with their ends -/

/-- Every line has its end. -/
def ended (sep : α) (lines : List (List α)) : List α := lines.flatMap (· ++ [sep])

variable {lines lines' : List (List α)}

@[simp]
theorem ended_nil (sep : α) : ended sep [] = [] := rfl

theorem ended_cons (line : List α) (lines : List (List α)) :
    ended sep (line :: lines) = line ++ sep :: ended sep lines := by
  rw [ended, List.flatMap_cons, List.append_assoc]
  rfl

theorem ended_append (lines lines' : List (List α)) :
    ended sep (lines ++ lines') = ended sep lines ++ ended sep lines' := List.flatMap_append

theorem intercalate_concat (lines : List (List α)) (line : List α) :
    [sep].intercalate (lines ++ [line]) = ended sep lines ++ line := by
  induction lines with
  | nil => simp
  | cons first lines ih =>
    rw [List.cons_append, ended_cons, List.append_assoc, List.cons_append, ← ih]
    cases lines <;> simp [List.intercalate]

/-! ## Segments -/

variable {p : α → Bool} {segment : List α} {segments : List (List α)}

/-- A list is taken apart at the elements of a kind from the front. -/
theorem segments_induction (p : α → Bool) {motive : List α → Prop}
    (last : ∀ segment, (∀ a ∈ segment, p a = false) → motive segment)
    (cons : ∀ segment b rest, (∀ a ∈ segment, p a = false) → p b = true → motive rest →
      motive (segment ++ b :: rest)) (text : List α) : motive text := by
  induction hlength : text.length using Nat.strong_induction_on generalizing text with
  | _ n ih =>
    by_cases hall : ∀ a ∈ text, p a = false
    · exact last text hall
    · simp only [not_forall, Bool.not_eq_false, exists_prop] at hall
      obtain ⟨b, segment, rest, hsegment, hb, rfl, -⟩ := List.exists_of_eraseP hall.choose_spec.1
        hall.choose_spec.2
      refine cons segment b rest (fun a ha ↦ Bool.eq_false_iff.mpr (hsegment a ha)) hb
        (ih rest.length (by simp at hlength; omega) rest rfl)

theorem forall_mem_of_mem_splitOnP (h : segment ∈ text.splitOnP p) :
    ∀ a ∈ segment, p a = false := by
  induction text using segments_induction p with
  | last text htext =>
    rw [List.splitOnP_eq_singleton htext, List.mem_singleton] at h
    rwa [h]
  | cons first b rest hfirst hb ih =>
    rw [List.splitOnP_append_cons_of_forall_mem hfirst b hb] at h
    rcases List.mem_cons.mp h with rfl | h
    · exact hfirst
    · exact ih h

theorem splitOnP_intercalate (hne : segments ≠ [])
    (h : ∀ segment ∈ segments, ∀ a ∈ segment, p a = false) {b : α} (hb : p b = true) :
    ([b].intercalate segments).splitOnP p = segments := by
  obtain ⟨init, last, rfl⟩ := List.eq_nil_or_concat' segments |>.resolve_left hne
  rw [List.forall_mem_append, List.forall_mem_singleton] at h
  rw [intercalate_concat]
  clear hne
  induction init with
  | nil => exact List.splitOnP_eq_singleton h.2
  | cons first init ih =>
    obtain ⟨hfirst, hinit⟩ := List.forall_mem_cons.mp h.1
    rw [ended_cons, List.append_assoc, List.cons_append,
      List.splitOnP_append_cons_of_forall_mem hfirst b hb, ih ⟨hinit, h.2⟩, List.cons_append]

/-! ## The lines of a text -/

variable [DecidableEq α]

/-- A list is taken apart into its lines from the front. -/
theorem lines_induction (sep : α) {motive : List α → Prop}
    (last : ∀ line, sep ∉ line → motive line)
    (cons : ∀ line rest, sep ∉ line → motive rest → motive (line ++ sep :: rest))
    (text : List α) : motive text := by
  have hnotMem {line : List α} (h : ∀ a ∈ line, decide (a = sep) = false) : sep ∉ line :=
    fun hmem ↦ of_decide_eq_false (h sep hmem) rfl
  induction text using segments_induction fun a ↦ decide (a = sep) with
  | last line hline => exact last line (hnotMem hline)
  | cons line b rest hline hb ih =>
    obtain rfl := of_decide_eq_true hb
    exact cons line rest (hnotMem hline) ih

/-- `split_inclusive`: every line has its end, and the last one is left out when it is empty. -/
@[grind =] def splitInclusive (sep : α) : List α → List (List α)
  | [] => []
  | a :: text =>
    if a = sep then [a] :: splitInclusive sep text
    else
      match splitInclusive sep text with
      | [] => [[a]]
      | line :: lines => (a :: line) :: lines

theorem splitInclusive_append (hline : sep ∉ line) (rest : List α) :
    splitInclusive sep (line ++ sep :: rest) = (line ++ [sep]) :: splitInclusive sep rest := by
  induction line with
  | nil => rw [List.nil_append, splitInclusive, if_pos rfl, List.nil_append]
  | cons a line ih =>
    rw [List.mem_cons, not_or] at hline
    rw [List.cons_append, splitInclusive, if_neg (Ne.symm hline.1), ih hline.2, List.cons_append]

theorem splitInclusive_line (hline : sep ∉ line) :
    splitInclusive sep line = if line = [] then [] else [line] := by
  induction line with
  | nil => rfl
  | cons a line ih =>
    rw [List.mem_cons, not_or] at hline
    rw [splitInclusive, if_neg (Ne.symm hline.1), ih hline.2, if_neg (List.cons_ne_nil a line)]
    cases line with
    | nil => rfl
    | cons b line => rfl

omit [DecidableEq α] in
theorem rtakeWhile_append_of_pos {p : α → Bool} (l : List α) {s : List α}
    (h : ∀ a ∈ s, p a = true) : (l ++ s).rtakeWhile p = l.rtakeWhile p ++ s := by
  rw [List.rtakeWhile, List.rtakeWhile, List.reverse_append,
    List.takeWhile_append_of_pos fun a ha ↦ h a (List.mem_reverse.mp ha), List.reverse_append,
    List.reverse_reverse]

/-- What follows the last line end is that of the rest. -/
theorem rtakeWhile_append_line (line rest : List α) :
    (line ++ sep :: rest).rtakeWhile (· ≠ sep) = rest.rtakeWhile (· ≠ sep) := by
  induction rest using List.reverseRecOn with
  | nil =>
    rw [List.rtakeWhile_concat_neg _ _ _ (by simp), List.rtakeWhile_nil]
  | append_singleton rest a ih =>
    have hassoc : line ++ sep :: (rest ++ [a]) = (line ++ sep :: rest) ++ [a] := by simp
    rw [hassoc, List.rtakeWhile_concat, List.rtakeWhile_concat, ih]

theorem rtakeWhile_line (hline : sep ∉ line) : line.rtakeWhile (· ≠ sep) = line := by
  rw [List.rtakeWhile_eq_self_iff]
  intro a ha
  rw [decide_eq_true_eq]
  rintro rfl
  exact hline ha

theorem splitOn_ended (h : ∀ line ∈ lines, sep ∉ line) (text : List α) :
    (ended sep lines ++ text).splitOn sep = lines ++ text.splitOn sep := by
  induction lines with
  | nil => rfl
  | cons line lines ih =>
    obtain ⟨hline, hlines⟩ := List.forall_mem_cons.mp h
    rw [ended_cons, List.append_assoc, List.cons_append,
      List.splitOn_append_cons_self_of_not_mem hline, ih hlines, List.cons_append]

theorem notMem_of_mem_splitOn (h : line ∈ text.splitOn sep) : sep ∉ line := by
  induction text using lines_induction sep with
  | last text htext =>
    rw [List.splitOn_eq_singleton htext, List.mem_singleton] at h
    rwa [h]
  | cons first rest hfirst ih =>
    rw [List.splitOn_append_cons_self_of_not_mem hfirst] at h
    rcases List.mem_cons.mp h with rfl | h
    · exact hfirst
    · exact ih h

theorem length_splitOn (sep : α) (text : List α) :
    (text.splitOn sep).length = text.count sep + 1 := by
  induction text using lines_induction sep with
  | last text htext =>
    rw [List.splitOn_eq_singleton htext, List.count_eq_zero.mpr htext, List.length_singleton]
  | cons first rest hfirst ih =>
    rw [List.splitOn_append_cons_self_of_not_mem hfirst, List.length_cons, ih, List.count_append,
      List.count_eq_zero.mpr hfirst, List.count_cons_self, Nat.zero_add]

/-- The first lines of a text, and the text of the others. -/
theorem eq_ended_of_splitOn (h : text.splitOn sep = lines ++ lines') (hne : lines' ≠ []) :
    ∃ rest, text = ended sep lines ++ rest ∧ rest.splitOn sep = lines' := by
  obtain ⟨init, last, rfl⟩ := List.eq_nil_or_concat' lines' |>.resolve_left hne
  have hlines : ∀ line ∈ init ++ [last], sep ∉ line := fun line hline ↦
    notMem_of_mem_splitOn (h ▸ List.mem_append_right lines hline)
  rw [List.forall_mem_append, List.forall_mem_singleton] at hlines
  refine ⟨ended sep init ++ last, ?_, ?_⟩
  · have htext : [sep].intercalate (text.splitOn sep) = text := List.intercalate_splitOn sep
    rw [← htext, h, ← List.append_assoc, intercalate_concat, ended_append,
      List.append_assoc]
  · rw [splitOn_ended hlines.1, List.splitOn_eq_singleton hlines.2]

/-! ## Where a line begins -/

@[grind =] def startOfLine (sep : α) : List α → ℕ → ℕ
  | _, 0 => 0
  | [], _ + 1 => 0
  | a :: text, n + 1 => 1 + startOfLine sep text (if a = sep then n else n + 1)

theorem startOfLine_le (text : List α) (n : ℕ) : startOfLine sep text n ≤ text.length := by
  induction text generalizing n with
  | nil => cases n <;> exact Nat.le_refl 0
  | cons a text ih =>
    cases n with
    | zero => exact Nat.zero_le _
    | succ n =>
      rw [startOfLine, List.length_cons, Nat.add_comm]
      exact Nat.succ_le_succ (ih _)

theorem startOfLine_append_line (hline : sep ∉ line) (rest : List α) (n : ℕ) :
    startOfLine sep (line ++ sep :: rest) (n + 1) = line.length + 1 + startOfLine sep rest n := by
  induction line with
  | nil => rw [List.nil_append, startOfLine, if_pos rfl, List.length_nil]
  | cons a line ih =>
    rw [List.mem_cons, not_or] at hline
    rw [List.cons_append, startOfLine, if_neg (Ne.symm hline.1), ih hline.2, List.length_cons]
    omega

theorem startOfLine_line (hline : sep ∉ line) (n : ℕ) :
    startOfLine sep line (n + 1) = line.length := by
  induction line with
  | nil => rfl
  | cons a line ih =>
    rw [List.mem_cons, not_or] at hline
    rw [startOfLine, if_neg (Ne.symm hline.1), ih hline.2, List.length_cons, Nat.add_comm]

/-- The lines before a line end where it begins. -/
theorem startOfLine_ended (h : ∀ line ∈ lines, sep ∉ line) (rest : List α) (n : ℕ) :
    startOfLine sep (ended sep lines ++ rest) (lines.length + n) =
      (ended sep lines).length + startOfLine sep rest n := by
  induction lines with
  | nil => simp
  | cons line lines ih =>
    obtain ⟨hline, hlines⟩ := List.forall_mem_cons.mp h
    rw [ended_cons, List.append_assoc, List.cons_append, List.length_cons, Nat.add_right_comm,
      startOfLine_append_line hline, ih hlines, List.length_append, List.length_cons]
    omega

/-- The line of a position starts where what is before the position was last ended. -/
theorem startOfLine_prefix (before after : List α) :
    startOfLine sep (before ++ after) (before.count sep) +
      (before.rtakeWhile (· ≠ sep)).length = before.length := by
  induction before using lines_induction sep with
  | last line hline =>
    rw [List.count_eq_zero.mpr hline, startOfLine, Nat.zero_add, rtakeWhile_line hline]
  | cons line rest hline ih =>
    have hcount : (line ++ sep :: rest).count sep = rest.count sep + 1 := by
      rw [List.count_append, List.count_cons_self, List.count_eq_zero.mpr hline, Nat.zero_add]
    rw [hcount, List.append_assoc, List.cons_append, startOfLine_append_line hline,
      rtakeWhile_append_line, List.length_append, List.length_cons]
    omega

theorem startOfLine_eq {n : ℕ} (h : n < (text.splitOn sep).length) :
    startOfLine sep text n = (ended sep ((text.splitOn sep).take n)).length := by
  have hsplit := (List.take_append_drop n (text.splitOn sep)).symm
  have hne : (text.splitOn sep).drop n ≠ [] := by
    rw [← List.length_pos_iff, List.length_drop]
    exact Nat.sub_pos_of_lt h
  obtain ⟨rest, htext, -⟩ := eq_ended_of_splitOn hsplit hne
  have hlines : ∀ line ∈ (text.splitOn sep).take n, sep ∉ line := fun line hline ↦
    notMem_of_mem_splitOn (List.mem_of_mem_take hline)
  have hstart := startOfLine_ended hlines rest 0
  rw [← htext, Nat.add_zero, List.length_take_of_le h.le] at hstart
  rw [hstart, startOfLine, Nat.add_zero]

/-- A line is followed by its end and then by the later lines. -/
theorem startOfLine_add_lt {n m : ℕ} (hline : (text.splitOn sep)[n]? = some line) (hlt : n < m)
    (hm : m < (text.splitOn sep).length) :
    startOfLine sep text n + line.length < startOfLine sep text m := by
  obtain ⟨hn, rfl⟩ := List.getElem?_eq_some_iff.mp hline
  have htake : (text.splitOn sep).take m =
      ((text.splitOn sep).take n ++ [(text.splitOn sep)[n]]) ++
      ((text.splitOn sep).take m).drop (n + 1) := by
    conv_lhs => rw [← List.take_append_drop (n + 1) ((text.splitOn sep).take m), List.take_take,
      Nat.min_eq_left hlt, List.take_succ_eq_append_getElem hn]
  rw [startOfLine_eq hn, startOfLine_eq hm, htake, ended_append, ended_append, ended_cons,
    ended_nil,
    List.length_append, List.length_append, List.length_append, List.length_singleton]
  omega

/-- Behind the last line there is only the end. -/
theorem startOfLine_of_le {n : ℕ} (h : text.count sep < n) :
    startOfLine sep text n = text.length := by
  induction text using lines_induction sep generalizing n with
  | last line hline =>
    obtain ⟨n, rfl⟩ := Nat.exists_eq_succ_of_ne_zero (Nat.ne_of_gt (Nat.zero_lt_of_lt h))
    exact startOfLine_line hline n
  | cons line rest hline ih =>
    rw [List.count_append, List.count_eq_zero.mpr hline, List.count_cons_self, Nat.zero_add] at h
    obtain ⟨n, rfl⟩ := Nat.exists_eq_succ_of_ne_zero (Nat.ne_of_gt (Nat.zero_lt_of_lt h))
    rw [Nat.succ_eq_add_one, startOfLine_append_line hline, ih (by omega), List.length_append,
      List.length_cons]
    omega

/-- From where a line begins, there is the line with its end, or the last one. -/
theorem drop_startOfLine_cases {n : ℕ} (hline : (text.splitOn sep)[n]? = some line) :
    (n + 1 < (text.splitOn sep).length ∧
      (∃ rest, text.drop (startOfLine sep text n) = line ++ sep :: rest) ∧
      startOfLine sep text (n + 1) = startOfLine sep text n + line.length + 1) ∨
    (n + 1 = (text.splitOn sep).length ∧ text.drop (startOfLine sep text n) = line ∧
      startOfLine sep text (n + 1) = text.length) := by
  obtain ⟨hn, rfl⟩ := List.getElem?_eq_some_iff.mp hline
  have hsplit := (List.take_append_drop n (text.splitOn sep)).symm
  rw [List.drop_eq_getElem_cons hn] at hsplit
  obtain ⟨rest, htext, hrest⟩ := eq_ended_of_splitOn hsplit (List.cons_ne_nil _ _)
  have hjoin : [sep].intercalate (rest.splitOn sep) = rest := List.intercalate_splitOn sep
  have hdrop := congrArg (List.drop (ended sep ((text.splitOn sep).take n)).length) htext
  rw [List.drop_left] at hdrop
  rw [hrest] at hjoin
  rw [startOfLine_eq hn, hdrop]
  rcases Nat.lt_or_ge (n + 1) (text.splitOn sep).length with hnext | hlast
  · obtain ⟨next, lines, hlines⟩ : ∃ next lines, (text.splitOn sep).drop (n + 1) = next :: lines :=
      ⟨_, _, List.drop_eq_getElem_cons hnext⟩
    rw [hlines, List.intercalate_cons_cons, List.append_assoc, List.singleton_append] at hjoin
    refine .inl ⟨hnext, ⟨_, hjoin.symm⟩, ?_⟩
    rw [startOfLine_eq hnext, List.take_succ_eq_append_getElem hn, ended_append, ended_cons,
      ended_nil, List.length_append, List.length_append, List.length_singleton, Nat.add_assoc]
  · rw [List.drop_eq_nil_of_le hlast, List.intercalate_singleton] at hjoin
    refine .inr ⟨Nat.le_antisymm hn hlast, hjoin.symm, startOfLine_of_le ?_⟩
    rw [length_splitOn] at hlast
    exact hlast

theorem drop_startOfLine {n : ℕ} (hline : (text.splitOn sep)[n]? = some line) :
    ∃ tail, text.drop (startOfLine sep text n) = line ++ tail := by
  obtain ⟨-, ⟨rest, hrest⟩, -⟩ | ⟨-, hlast, -⟩ := drop_startOfLine_cases hline
  · exact ⟨_, hrest⟩
  · exact ⟨[], by rw [hlast, List.append_nil]⟩

end EeEditor
