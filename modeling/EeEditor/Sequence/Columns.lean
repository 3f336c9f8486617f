import Mathlib.Algebra.BigOperators.Group.List.Basic
import Mathlib.Algebra.GroupWithZero.Nat
import Mathlib.Data.List.Infix
import Mathlib.Tactic.Common
import EeEditor.Sequence.Pieces

/-!
# Columns over rows of different lengths

Cells come row by row, each at a place of its row. The cells of a column are the ones that have
equally many cells before them in their rows. A column is as wide as the largest gap between a cell
of it and the cell before, so that the columns so far are always wide enough for the cells so far.

To pad a list, an element is put into it several times, at places given in order. Up to where the
places so far reach, the list is known already, whatever places follow.
-/

namespace EeEditor

/-! ## Padding -/

section

variable {α : Type}

/-- What a list becomes from `pos` to `end_`, with so many copies of `fill` before each place. -/
def padded (list : List α) (fill : α) : ℕ → List (ℕ × ℕ) → ℕ → List α
  | pos, [], end_ => (list.drop pos).take (end_ - pos)
  | pos, (place, n) :: places, end_ => (list.drop pos).take (place - pos) ++
      (List.replicate n fill ++ padded list fill place places end_)

/-- Places in order, from `pos` to `end_`. -/
def Placed : ℕ → List (ℕ × ℕ) → ℕ → Prop
  | pos, [], end_ => pos ≤ end_
  | pos, (place, _) :: places, end_ => pos ≤ place ∧ Placed place places end_

variable {list : List α} {fill : α} {pos place end_ end' n : ℕ} {places places' : List (ℕ × ℕ)}

theorem Placed.le (h : Placed pos places end_) : pos ≤ end_ := by
  induction places generalizing pos with
  | nil => exact h
  | cons place places ih => exact Nat.le_trans h.1 (ih h.2)

theorem placed_append : Placed pos (places ++ (place, n) :: places') end_ ↔
    Placed pos places place ∧ Placed place places' end_ := by
  induction places generalizing pos with
  | nil => exact Iff.rfl
  | cons first places ih => rw [List.cons_append, Placed, Placed, ih, and_assoc]

theorem Placed.mono (h : Placed pos places end_) (hle : end_ ≤ end') : Placed pos places end' := by
  induction places generalizing pos with
  | nil => exact Nat.le_trans h hle
  | cons place places ih => exact ⟨h.1, ih h.2⟩

theorem padded_append (list : List α) (fill : α) (pos : ℕ) (places places' : List (ℕ × ℕ))
    (place n end_ : ℕ) : padded list fill pos (places ++ (place, n) :: places') end_ =
      padded list fill pos places place ++
        (List.replicate n fill ++ padded list fill place places' end_) := by
  induction places generalizing pos with
  | nil => rfl
  | cons first places ih =>
    rw [List.cons_append, padded, ih, padded, List.append_assoc, List.append_assoc]

/-- The list goes on as before behind the last place. -/
theorem padded_extend (h : Placed pos places end_) (hle : end_ ≤ end') :
    padded list fill pos places end' =
      padded list fill pos places end_ ++ (list.drop end_).take (end' - end_) := by
  induction places generalizing pos with
  | nil => exact (take_drop_append h hle).symm
  | cons place places ih =>
    rw [padded, padded, ih h.2, List.append_assoc, List.append_assoc]

/-- Places that follow do not matter. -/
theorem padded_isPrefix (h : Placed pos places end_) (h' : Placed end_ places' end')
    (list : List α) (fill : α) :
    padded list fill pos places end_ <+: padded list fill pos (places ++ places') end' := by
  cases places' with
  | nil =>
    rw [List.append_nil, padded_extend h h'.le]
    exact List.prefix_append _ _
  | cons place places' =>
    rw [padded_append, padded_extend h h'.1, List.append_assoc]
    exact List.prefix_append _ _

variable (fill) in
theorem length_padded (h : Placed pos places end_) (hend : end_ ≤ list.length) :
    pos + (padded list fill pos places end_).length = end_ + (places.map Prod.snd).sum := by
  induction places generalizing pos with
  | nil =>
    have hle : pos ≤ end_ := h
    rw [padded, List.length_take_of_le (by rw [List.length_drop]; omega), List.map_nil,
      List.sum_nil]
    omega
  | cons first places ih =>
    have hle := h.1
    have hrest := ih h.2
    have hlast := h.2.le
    rw [padded, List.length_append, List.length_append, List.length_replicate,
      List.length_take_of_le (by rw [List.length_drop]; omega), List.map_cons, List.sum_cons]
    omega

variable (fill) in
theorem take_padded (h : Placed 0 places end_) (h' : Placed end_ places' end')
    (hend : end_ ≤ list.length) :
    (padded list fill 0 (places ++ places') end').take (end_ + (places.map Prod.snd).sum) =
      padded list fill 0 places end_ := by
  rw [← length_padded fill h hend, Nat.zero_add]
  exact (List.prefix_iff_eq_take.mp (padded_isPrefix h h' list fill)).symm

end

/-! ## Columns -/

namespace Columns

variable {β : Type*} [DecidableEq β] {cells pre pre' : List (β × ℕ)} {c c' : β × ℕ} {row : β}
  {widths : List ℕ} {k w : ℕ}

/-- How many cells a row has. -/
def column (cells : List (β × ℕ)) (row : β) : ℕ := cells.countP (·.1 = row)

/-- Where the last cell of a row is. -/
def lastCol (cells : List (β × ℕ)) (row : β) : ℕ :=
  ((cells.filter (·.1 = row)).getLast?.map Prod.snd).getD 0

theorem column_concat (cells : List (β × ℕ)) (c : β × ℕ) (row : β) :
    column (cells ++ [c]) row = column cells row + if c.1 = row then 1 else 0 := by
  simp [column, List.countP_append, List.countP_singleton]

theorem lastCol_concat (cells : List (β × ℕ)) (c : β × ℕ) (row : β) :
    lastCol (cells ++ [c]) row = if c.1 = row then c.2 else lastCol cells row := by
  rw [lastCol, List.filter_append]
  split_ifs with h
  · rw [List.filter_singleton, decide_eq_true h, cond_true, List.getLast?_concat, Option.map_some,
      Option.getD_some]
  · rw [List.filter_singleton, decide_eq_false h, cond_false, List.append_nil, lastCol]

/-- The last cell of a row. -/
theorem exists_last (cells : List (β × ℕ)) (row : β) :
    column cells row = 0 ∧ lastCol cells row = 0 ∨
      ∃ pre c, pre ++ [c] <+: cells ∧ c.1 = row ∧ column cells row = column pre row + 1 ∧
        lastCol cells row = c.2 := by
  induction cells using List.reverseRecOn with
  | nil => exact .inl ⟨rfl, rfl⟩
  | append_singleton cells d ih =>
    rw [column_concat, lastCol_concat]
    split_ifs with hd
    · exact .inr ⟨cells, d, List.prefix_rfl, hd, rfl, rfl⟩
    · rw [Nat.add_zero]
      exact ih.imp_right fun ⟨pre, c, hpre, h⟩ ↦ ⟨pre, c, hpre.trans (List.prefix_append _ _), h⟩

theorem lastCol_of_column (h : column cells row = 0) : lastCol cells row = 0 := by
  obtain h' | ⟨pre, c, -, -, hcolumn, -⟩ := exists_last cells row
  · exact h'.2
  · omega

/-- In every row the cells come one after the other. -/
def Rises (cells : List (β × ℕ)) : Prop := ∀ pre c, pre ++ [c] <+: cells → lastCol pre c.1 ≤ c.2

/-- The cells of each column are at one place. -/
def Aligned (cells : List (β × ℕ)) : Prop :=
  ∀ pre c pre' c', pre ++ [c] <+: cells → pre' ++ [c'] <+: cells →
    column pre c.1 = column pre' c'.1 → c.2 = c'.2

/-- Each column is as wide as the largest gap before a cell of it. -/
structure Widths (widths : List ℕ) (cells : List (β × ℕ)) : Prop where
  le : ∀ pre c, pre ++ [c] <+: cells →
    ∃ w, widths[column pre c.1]? = some w ∧ c.2 - lastCol pre c.1 ≤ w
  attained : ∀ k w, widths[k]? = some w →
    ∃ pre c, pre ++ [c] <+: cells ∧ column pre c.1 = k ∧ c.2 - lastCol pre c.1 = w

/-! ## Widening -/

/-- A gap is noted. -/
def noteWidth (widths : List ℕ) (k width : ℕ) : List ℕ :=
  match widths[k]? with
  | some existing => widths.set k (max existing width)
  | none => widths ++ [width]

theorem widths_nil : Widths ([] : List ℕ) ([] : List (β × ℕ)) where
  le := fun pre c h ↦ by simp at h
  attained := fun k w h ↦ by simp at h

theorem Widths.column_le (h : Widths widths cells) (row : β) :
    column cells row ≤ widths.length := by
  obtain ⟨hzero, -⟩ | ⟨pre, c, hpre, rfl, hcolumn, -⟩ := exists_last cells row
  · exact hzero ▸ Nat.zero_le _
  · obtain ⟨w, hw, -⟩ := h.le pre c hpre
    rw [hcolumn]
    exact (List.getElem?_eq_some_iff.mp hw).1

theorem getElem?_noteWidth (hk : k ≤ widths.length) (width j : ℕ) :
    (noteWidth widths k width)[j]? =
      if j = k then some (max (widths[k]?.getD 0) width) else widths[j]? := by
  rw [noteWidth]
  cases hexisting : widths[k]? with
  | some existing =>
    have hlt := (List.getElem?_eq_some_iff.mp hexisting).1
    dsimp only
    rw [List.getElem?_set]
    rcases eq_or_ne j k with rfl | hne
    · rw [if_pos rfl, if_pos hlt, if_pos rfl, Option.getD_some]
    · rw [if_neg hne.symm, if_neg hne]
  | none =>
    have hlen := List.getElem?_eq_none_iff.mp hexisting
    obtain rfl : k = widths.length := Nat.le_antisymm hk hlen
    dsimp only
    rcases Nat.lt_trichotomy j widths.length with hj | rfl | hj
    · rw [List.getElem?_append_left hj, if_neg hj.ne]
    · rw [List.getElem?_concat_length, if_pos rfl, Option.getD_none, Nat.zero_max]
    · rw [if_neg hj.ne', List.getElem?_eq_none_iff.mpr, List.getElem?_eq_none_iff.mpr hj.le]
      rw [List.length_append, List.length_singleton]
      exact hj

theorem Widths.concat (h : Widths widths cells) (c : β × ℕ) :
    Widths (noteWidth widths (column cells c.1) (c.2 - lastCol cells c.1)) (cells ++ [c]) where
  le := by
    intro pre d hpre
    rw [getElem?_noteWidth (h.column_le c.1)]
    rcases List.prefix_concat_iff.mp hpre with heq | hpre
    · obtain ⟨rfl, rfl⟩ := List.concat_inj.mp (by simpa using heq)
      exact ⟨_, if_pos rfl, le_max_right _ _⟩
    · obtain ⟨w, hw, hle⟩ := h.le pre d hpre
      split_ifs with hcolumn
      · rw [hcolumn] at hw
        rw [hw, Option.getD_some]
        exact ⟨_, rfl, hle.trans (le_max_left _ _)⟩
      · exact ⟨w, hw, hle⟩
  attained := by
    intro k w hw
    rw [getElem?_noteWidth (h.column_le c.1)] at hw
    have hold (hw : widths[k]? = some w) : ∃ pre d, pre ++ [d] <+: cells ++ [c] ∧
        column pre d.1 = k ∧ d.2 - lastCol pre d.1 = w := by
      obtain ⟨pre, d, hpre, h⟩ := h.attained k w hw
      exact ⟨pre, d, hpre.trans (List.prefix_append _ _), h⟩
    split_ifs at hw with hk
    · subst hk
      obtain rfl := Option.some.inj hw
      cases hexisting : widths[column cells c.1]? with
      | none => exact ⟨cells, c, List.prefix_rfl, rfl, by rw [Option.getD_none, Nat.zero_max]⟩
      | some existing =>
        rw [Option.getD_some]
        rcases le_total existing (c.2 - lastCol cells c.1) with hle | hle
        · exact ⟨cells, c, List.prefix_rfl, rfl, (Nat.max_eq_right hle).symm⟩
        · rw [hexisting, Option.getD_some, Nat.max_eq_left hle] at hold
          rw [Nat.max_eq_left hle]
          exact hold rfl
    · exact hold hw

/-! ## Room -/

/-- The columns that a row has so far. -/
def room (widths : List ℕ) (cells : List (β × ℕ)) (row : β) : ℕ :=
  (widths.take (column cells row)).sum

theorem room_concat (h : widths[column pre c.1]? = some w) :
    room widths (pre ++ [c]) c.1 = room widths pre c.1 + w := by
  rw [room, column_concat, if_pos rfl, List.take_add_one, h, List.sum_append, room]
  simp

/-- The columns so far are wide enough. -/
theorem Widths.lastCol_le (h : Widths widths cells) (hpre : pre <+: cells) (row : β) :
    lastCol pre row ≤ room widths pre row := by
  induction pre using List.reverseRecOn with
  | nil => exact Nat.zero_le _
  | append_singleton pre c ih =>
    have hle := ih ((List.prefix_append pre [c]).trans hpre)
    rcases eq_or_ne c.1 row with rfl | hne
    · obtain ⟨w, hw, hgap⟩ := h.le pre c hpre
      rw [room_concat hw, lastCol_concat, if_pos rfl]
      omega
    · rw [lastCol_concat, if_neg hne, room, column_concat, if_neg hne]
      exact hle

/-- How far the last cell of a row is from the end of its column. -/
def lack (widths : List ℕ) (cells : List (β × ℕ)) (row : β) : ℕ :=
  room widths cells row - lastCol cells row

/-- What is put before a cell, which has moved by what its row lacked, to bring it to the end of its
column. -/
def filling (widths : List ℕ) (pre : List (β × ℕ)) (c : β × ℕ) : ℕ :=
  room widths (pre ++ [c]) c.1 - (c.2 + lack widths pre c.1)

theorem lack_of_column (h : column cells row = 0) : lack widths cells row = 0 := by
  rw [lack, room, h, List.take_zero, List.sum_nil, Nat.zero_sub]

theorem lack_concat (widths : List ℕ) (pre : List (β × ℕ)) (c : β × ℕ) :
    lack widths (pre ++ [c]) c.1 = room widths (pre ++ [c]) c.1 - c.2 := by
  rw [lack, lastCol_concat, if_pos rfl]

/-- What a row lacks after a cell is not less than what it lacked before. -/
theorem Widths.lack_add_filling (h : Widths widths cells) (hpre : pre ++ [c] <+: cells) :
    lack widths pre c.1 + filling widths pre c = lack widths (pre ++ [c]) c.1 := by
  have hle := h.lastCol_le ((List.prefix_append pre [c]).trans hpre) c.1
  obtain ⟨w, hw, hgap⟩ := h.le pre c hpre
  rw [lack_concat, filling, lack, room_concat hw]
  omega

theorem Widths.add_lack (h : Widths widths cells) (hpre : pre ++ [c] <+: cells) :
    c.2 + lack widths (pre ++ [c]) c.1 = room widths (pre ++ [c]) c.1 := by
  have hle := h.lastCol_le hpre c.1
  rw [lastCol_concat, if_pos rfl] at hle
  rw [lack_concat]
  exact Nat.add_sub_cancel' hle

/-- The fillings of cells that come after others. -/
def fillings (widths : List ℕ) : List (β × ℕ) → List (β × ℕ) → List ℕ
  | _, [] => []
  | pre, c :: cells => filling widths pre c :: fillings widths (pre ++ [c]) cells

theorem fillings_append (widths : List ℕ) (pre cells cells' : List (β × ℕ)) :
    fillings widths pre (cells ++ cells') =
      fillings widths pre cells ++ fillings widths (pre ++ cells) cells' := by
  induction cells generalizing pre with
  | nil => rw [List.nil_append, List.append_nil, fillings, List.nil_append]
  | cons c cells ih =>
    rw [List.cons_append, fillings, ih, fillings, List.cons_append, List.append_assoc,
      List.singleton_append]

theorem fillings_concat (widths : List ℕ) (cells : List (β × ℕ)) (c : β × ℕ) :
    fillings widths [] (cells ++ [c]) = fillings widths [] cells ++ [filling widths cells c] := by
  rw [fillings_append, fillings, fillings, List.nil_append]

theorem exists_of_mem_fillings {n : ℕ} (h : n ∈ fillings widths [] cells) :
    ∃ pre c, pre ++ [c] <+: cells ∧ n = filling widths pre c := by
  induction cells using List.reverseRecOn with
  | nil => cases h
  | append_singleton cells d ih =>
    rw [fillings_concat] at h
    rcases List.mem_append.mp h with h | h
    · obtain ⟨pre, c, hpre, hn⟩ := ih h
      exact ⟨pre, c, hpre.trans (List.prefix_append _ _), hn⟩
    · exact ⟨cells, d, List.prefix_rfl, List.mem_singleton.mp h⟩

theorem length_fillings (widths : List ℕ) (pre cells : List (β × ℕ)) :
    (fillings widths pre cells).length = cells.length := by
  induction cells generalizing pre with
  | nil => rfl
  | cons c cells ih => rw [fillings, List.length_cons, ih, List.length_cons]

/-- Columns of aligned cells end at the cells. -/
theorem Widths.room_of_aligned (h : Widths widths cells) (hrises : Rises cells)
    (haligned : Aligned cells) (hpre : pre ++ [c] <+: cells) :
    room widths (pre ++ [c]) c.1 = c.2 := by
  induction hk : column pre c.1 generalizing pre c with
  | zero =>
    obtain ⟨w, hw, -⟩ := h.le pre c hpre
    obtain ⟨pre', c', hpre', hcolumn, rfl⟩ := h.attained _ w hw
    rw [room_concat hw, room, hk, List.take_zero, List.sum_nil, Nat.zero_add,
      lastCol_of_column (hcolumn.trans hk), Nat.sub_zero,
      haligned pre c pre' c' hpre hpre' hcolumn.symm]
  | succ k ih =>
    have hlast {pre : List (β × ℕ)} {c : β × ℕ} (hpre : pre ++ [c] <+: cells)
        (hcolumn : column pre c.1 = k + 1) : ∃ p d, p ++ [d] <+: cells ∧ column p d.1 = k ∧
          lastCol pre c.1 = d.2 := by
      obtain ⟨hzero, -⟩ | ⟨p, d, hp, hrow, hp', hd⟩ := exists_last pre c.1
      · omega
      · refine ⟨p, d, hp.trans ((List.prefix_append pre [c]).trans hpre), ?_, hd⟩
        rw [hrow]
        omega
    obtain ⟨p, d, hp, hcolumn, hd⟩ := hlast hpre hk
    obtain ⟨w, hw, -⟩ := h.le pre c hpre
    obtain ⟨pre', c', hpre', hcolumn', hgap⟩ := h.attained _ w hw
    obtain ⟨p', d', hp', hcolumn'', hd'⟩ := hlast hpre' (hcolumn'.trans hk)
    have hrow := ih hp hcolumn
    rw [room, column_concat, if_pos rfl, hcolumn] at hrow
    have hrise := hrises pre c hpre
    rw [hd', haligned p' d' p d hp' hp (hcolumn''.trans hcolumn.symm),
      haligned pre' c' pre c hpre' hpre hcolumn'] at hgap
    rw [room_concat hw, room, hk, hrow]
    omega

theorem Widths.filling_of_aligned (h : Widths widths cells) (hrises : Rises cells)
    (haligned : Aligned cells) (hpre : pre ++ [c] <+: cells) : filling widths pre c = 0 := by
  rw [filling, h.room_of_aligned hrises haligned hpre]
  exact Nat.sub_eq_zero_of_le (Nat.le_add_right _ _)

end Columns

end EeEditor
