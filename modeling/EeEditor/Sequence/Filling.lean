import Mathlib.Algebra.BigOperators.Group.List.Basic
import Mathlib.Algebra.GroupWithZero.Nat
import Mathlib.Data.List.Infix
import Mathlib.Tactic.Common
import EeEditor.Sequence.Pieces

/-!
# Filling rows with words

Words are put one after the other into rows of a bounded width. A row ends before the word that does
not fit any more, after a word that closes its row, and after a word that fills a row by itself. The
same rows come out if a row that is full is left open until the next word comes, and it does not
matter whether the last word closes its row.

Greedy filling is the same on words without a width: a line takes the next word as long as it fits,
and the next line begins with the first word that does not.
-/

namespace EeEditor

/-! ## Greedy filling -/

section

variable {α : Type*} (fits : List α → Prop) [DecidablePred fits]

@[grind =] def greedyFrom : List α → List α → List (List α)
  | line, [] => [line]
  | line, word :: words =>
    if fits (line ++ [word]) then greedyFrom (line ++ [word]) words
    else line :: greedyFrom [word] words

/-- The lines that some words fill. A line has one word at least. -/
def greedy : List α → List (List α)
  | [] => []
  | word :: words => greedyFrom fits [word] words

variable {fits} {line : List α} {words : List α} {lines : List (List α)}

theorem flatten_greedyFrom (line words : List α) :
    (greedyFrom fits line words).flatten = line ++ words := by
  induction words generalizing line with
  | nil => simp [greedyFrom]
  | cons word words ih =>
    rw [greedyFrom]
    split_ifs
    · rw [ih, List.append_assoc, List.singleton_append]
    · rw [List.flatten_cons, ih, List.singleton_append]

/-- Every word is kept. -/
theorem flatten_greedy (words : List α) : (greedy fits words).flatten = words := by
  cases words with
  | nil => rfl
  | cons word words => exact flatten_greedyFrom [word] words

theorem ne_nil_of_mem_greedyFrom (hline : line ≠ []) :
    ∀ l ∈ greedyFrom fits line words, l ≠ [] := by
  induction words generalizing line with
  | nil => simpa [greedyFrom] using hline
  | cons word words ih =>
    rw [greedyFrom]
    split_ifs
    · exact ih (by simp)
    · exact List.forall_mem_cons.mpr ⟨hline, ih (List.cons_ne_nil word [])⟩

theorem ne_nil_of_mem_greedy : ∀ l ∈ greedy fits words, l ≠ [] := by
  cases words with
  | nil => exact List.forall_mem_nil _
  | cons word words => exact ne_nil_of_mem_greedyFrom (List.cons_ne_nil word [])

/-- The first line goes on with the line that is open. -/
theorem greedyFrom_eq_cons (fits : List α → Prop) [DecidablePred fits] (line words : List α) :
    ∃ taken lines, greedyFrom fits line words = (line ++ taken) :: lines := by
  induction words generalizing line with
  | nil => exact ⟨[], [], by rw [greedyFrom, List.append_nil]⟩
  | cons word words ih =>
    rw [greedyFrom]
    split_ifs
    · obtain ⟨taken, lines, h⟩ := ih (line ++ [word])
      exact ⟨word :: taken, lines, by rw [h, List.append_assoc, List.singleton_append]⟩
    · exact ⟨[], greedyFrom fits [word] words, by rw [List.append_nil]⟩

/-! ## Lines are not too wide -/

theorem fits_of_mem_greedyFrom (hline : 1 < line.length → fits line) :
    ∀ l ∈ greedyFrom fits line words, 1 < l.length → fits l := by
  induction words generalizing line with
  | nil => simpa [greedyFrom] using hline
  | cons word words ih =>
    rw [greedyFrom]
    split_ifs with hfits
    · exact ih fun _ ↦ hfits
    · exact List.forall_mem_cons.mpr ⟨hline, ih (by simp)⟩

/-- A line of more than one word fits. -/
theorem fits_of_mem_greedy : ∀ l ∈ greedy fits words, 1 < l.length → fits l := by
  cases words with
  | nil => exact List.forall_mem_nil _
  | cons word words => exact fits_of_mem_greedyFrom (by simp)

/-! ## Lines are not too short -/

theorem isChain_greedyFrom (line words : List α) :
    (greedyFrom fits line words).IsChain fun l next ↦
      ∀ word, next.head? = some word → ¬ fits (l ++ [word]) := by
  induction words generalizing line with
  | nil => exact .singleton line
  | cons word words ih =>
    rw [greedyFrom]
    split_ifs with hfits
    · exact ih _
    · obtain ⟨taken, lines, h⟩ := greedyFrom_eq_cons fits [word] words
      have hrest := ih [word]
      rw [h] at hrest ⊢
      refine .cons_cons (fun first hfirst ↦ ?_) hrest
      obtain rfl := Option.some.inj hfirst
      exact hfits

/-- No line could have taken the first word of the next one. -/
theorem isChain_greedy (words : List α) :
    (greedy fits words).IsChain fun l next ↦
      ∀ word, next.head? = some word → ¬ fits (l ++ [word]) := by
  cases words with
  | nil => exact .nil
  | cons word words => exact isChain_greedyFrom [word] words

/-! ## Words that stand alone -/

/-- From the beginning of a line on, a word of a kind has no word after it. -/
def Alone (p : α → Prop) (lines : List (List α)) : Prop :=
  ∀ rest, rest <:+ lines → ∀ word words, rest.flatten = word :: words → p word → words = []

variable {p : α → Prop}

theorem alone_cons : Alone p (line :: lines) ↔
    (∀ word words, line ++ lines.flatten = word :: words → p word → words = []) ∧
      Alone p lines := by
  constructor
  · intro h
    exact ⟨h _ List.suffix_rfl, fun rest hrest ↦ h rest (hrest.trans (List.suffix_cons line lines))⟩
  · rintro ⟨hline, hlines⟩ rest hrest
    rcases List.suffix_cons_iff.mp hrest with rfl | hrest
    · exact hline
    · exact hlines rest hrest

theorem alone_nil : Alone p [] := by
  intro rest hrest word words h
  rw [List.suffix_nil.mp hrest] at h
  cases h

theorem alone_of_forall_mem (h : ∀ word ∈ lines.flatten, ¬ p word) : Alone p lines := by
  rintro rest ⟨before, rfl⟩ word words hrest hword
  refine absurd hword (h word ?_)
  rw [List.flatten_append, hrest]
  exact List.mem_append_right _ List.mem_cons_self

end

/-! ## Rows of a bounded width -/

/-- A word: the room it takes, its width, and whether the row ends after it. -/
structure Word where
  size : ℕ
  width : ℕ
  closes : Bool

namespace Word

/-- The rows from `start`, where the words up to `pos` already take `width` of the row. -/
@[grind =] def rows (limit : ℕ) : (start width pos : ℕ) → List Word → List (ℕ × ℕ)
  | start, _, pos, [] => if start < pos then [(start, pos)] else []
  | start, width, pos, w :: ws =>
    if width ≠ 0 ∧ limit < width + w.width then
      (start, pos) :: if w.closes ∨ limit ≤ w.width then (pos, pos + w.size) ::
          rows limit (pos + w.size) 0 (pos + w.size) ws
        else rows limit pos w.width (pos + w.size) ws
    else if w.closes ∨ width = 0 ∧ limit ≤ w.width then (start, pos + w.size) ::
        rows limit (pos + w.size) 0 (pos + w.size) ws
      else rows limit start (width + w.width) (pos + w.size) ws

/-- Each row begins where the one before it ends. -/
def Consecutive : ℕ → List (ℕ × ℕ) → ℕ → Prop
  | a, [], b => a = b
  | a, (s, e) :: rest, b => s = a ∧ s ≤ e ∧ Consecutive e rest b

/-- The words that have some width. -/
def Proper (ws : List Word) : Prop := ∀ w ∈ ws, 0 < w.size ∧ 0 < w.width

variable {limit start width pos : ℕ} {w : Word} {ws : List Word}

theorem Proper.head (h : Proper (w :: ws)) : 0 < w.size ∧ 0 < w.width := h w List.mem_cons_self

theorem Proper.tail (h : Proper (w :: ws)) : Proper ws := fun v hv ↦ h v (List.mem_cons_of_mem _ hv)

/-- A row that holds nothing yet takes the next word. -/
theorem rows_fresh (limit start pos : ℕ) (w : Word) (ws : List Word) :
    rows limit start 0 pos (w :: ws) = if w.closes ∨ limit ≤ w.width then (start, pos + w.size) ::
        rows limit (pos + w.size) 0 (pos + w.size) ws
      else rows limit start w.width (pos + w.size) ws := by
  rw [rows, if_neg fun h ↦ h.1 rfl, Nat.zero_add]
  simp only [true_and]

/-- A word that does not fit any more begins a row. -/
theorem rows_overflow (hwidth : width ≠ 0) (hover : limit < width + w.width) :
    rows limit start width pos (w :: ws) = (start, pos) :: rows limit pos 0 pos (w :: ws) := by
  rw [rows_fresh, rows, if_pos ⟨hwidth, hover⟩]

/-- A row that is full ends here. -/
theorem rows_full (hws : Proper ws) (hlimit : 0 < limit) (hfull : limit ≤ width)
    (hpos : start < pos) :
    rows limit start width pos ws = (start, pos) :: rows limit pos 0 pos ws := by
  cases ws with
  | nil => rw [rows, rows, if_pos hpos, if_neg (Nat.lt_irrefl pos)]
  | cons w ws =>
    have hwidth := hws.head.2
    exact rows_overflow (by omega) (by omega)

/-- A row is left open after a word that fills it. -/
theorem rows_fresh_open (hws : Proper (w :: ws)) (hlimit : 0 < limit) (hopen : w.closes = false) :
    rows limit pos 0 pos (w :: ws) = rows limit pos w.width (pos + w.size) ws := by
  have hsize := hws.head.1
  rw [rows_fresh, hopen]
  split
  case isTrue h =>
    rcases h with h | h
    · cases h
    · exact (rows_full hws.tail hlimit h (by omega)).symm
  case isFalse => rfl

/-- The rows begin at the beginning of the open row and end with the last word. -/
theorem consecutive_rows (width limit : ℕ) (ws : List Word) (hpos : start ≤ pos) :
    Consecutive start (rows limit start width pos ws) (pos + extent size ws) := by
  induction ws generalizing start width pos with
  | nil =>
    rw [rows, extent_nil, Nat.add_zero]
    split
    case isTrue hlt => exact ⟨rfl, hpos, rfl⟩
    case isFalse hge => exact Nat.le_antisymm hpos (Nat.le_of_not_lt hge)
  | cons w ws ih =>
    have hnext : pos ≤ pos + w.size := Nat.le_add_right pos w.size
    rw [rows, extent_cons, ← Nat.add_assoc]
    split
    · refine ⟨rfl, hpos, ?_⟩
      split
      · exact ⟨rfl, hnext, ih _ (Nat.le_refl _)⟩
      · exact ih _ hnext
    · split
      · exact ⟨rfl, hpos.trans hnext, ih _ (Nat.le_refl _)⟩
      · exact ih _ (hpos.trans hnext)

/-- The last word ends its row in any case. -/
theorem rows_singleton (hsize : 0 < w.size) (hpos : start ≤ pos) :
    rows limit start width pos [w] =
      if width ≠ 0 ∧ limit < width + w.width then [(start, pos), (pos, pos + w.size)]
      else [(start, pos + w.size)] := by
  have hdone : ∀ p : ℕ, rows limit p 0 p [] = [] := fun p ↦ if_neg (Nat.lt_irrefl p)
  have hopen : ∀ {s : ℕ}, s ≤ pos → ∀ v, rows limit s v (pos + w.size) [] = [(s, pos + w.size)] :=
    fun hs _ ↦ if_pos (by omega)
  rw [rows, hdone, hopen (Nat.le_refl pos), hopen hpos, ite_self, ite_self]

theorem rows_last (hws : Proper (ws ++ [w])) (hpos : start ≤ pos) (closes : Bool) :
    rows limit start width pos (ws ++ [w]) =
      rows limit start width pos (ws ++ [{ w with closes }]) := by
  induction ws generalizing start width pos with
  | nil =>
    have hsize := hws.head.1
    rw [List.nil_append, List.nil_append, rows_singleton hsize hpos,
      rows_singleton (w := { w with closes }) hsize hpos]
  | cons v ws ih =>
    have hnext : pos ≤ pos + v.size := Nat.le_add_right pos v.size
    rw [List.cons_append, List.cons_append, rows, rows, ih hws.tail (Nat.le_refl _),
      ih hws.tail hnext, ih hws.tail (hpos.trans hnext)]

end Word

end EeEditor
