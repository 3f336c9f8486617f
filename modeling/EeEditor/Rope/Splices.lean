import Mathlib.Data.List.Sort
import EeEditor.Rope.Builder

/-!
# Replacing several intervals at once

The intervals of a document that are replaced together, without overlap: what the builder of a delta
makes of them one after the other, in order, is what each position of the document contributes on
its own.
-/

namespace EeEditor

variable {α : Type}

/-- An interval of a document and what it is replaced with. -/
structure Splice (α : Type) where
  start : ℕ
  end_ : ℕ
  new : List α
deriving DecidableEq

namespace Splice

variable {text : List α} {splices rest : List (Splice α)} {splice : Splice α} {p q i len : ℕ}

/-- What a position contributes to the new document: what is inserted there, what replaces an
interval that begins there, and the element there unless it is replaced. -/
def pieceAt (text : List α) (splices : List (Splice α)) (i : ℕ) : List α :=
  (splices.filter fun splice ↦ splice.start = i && splice.end_ = i).flatMap new ++
    ((splices.filter fun splice ↦ splice.start = i && i < splice.end_).flatMap new ++
      if splices.any fun splice ↦ splice.start ≤ i && i < splice.end_ then [] else text[i]?.toList)

/-- The document with all intervals replaced at once. -/
def replaceAll (text : List α) (splices : List (Splice α)) : List α :=
  (List.range (text.length + 1)).flatMap (pieceAt text splices)

/-- Each interval begins where the one before it ends, or later. -/
def InOrder : ℕ → List (Splice α) → ℕ → Prop
  | p, [], len => p ≤ len
  | p, splice :: rest, len =>
    p ≤ splice.start ∧ splice.start ≤ splice.end_ ∧ InOrder splice.end_ rest len

/-- What the document from a position on becomes, interval by interval. -/
def spliced (text : List α) : ℕ → List (Splice α) → List α
  | p, [] => text.drop p
  | p, splice :: rest =>
    (text.drop p).take (splice.start - p) ++ (splice.new ++ spliced text splice.end_ rest)

theorem InOrder.le (h : InOrder p splices len) : p ≤ len := by
  induction splices generalizing p with
  | nil => exact h
  | cons splice rest ih => exact h.1.trans (h.2.1.trans (ih h.2.2))

theorem InOrder.le_start (h : InOrder p splices len) : ∀ splice ∈ splices, p ≤ splice.start := by
  induction splices generalizing p with
  | nil => exact List.forall_mem_nil _
  | cons splice rest ih =>
    obtain ⟨hstart, hle, hrest⟩ := h
    refine List.forall_mem_cons.mpr ⟨hstart, fun other hother ↦ ?_⟩
    exact (hstart.trans hle).trans (ih hrest other hother)

/-! ## Position by position -/

/-- A slice, element by element. -/
theorem flatMap_range' (text : List α) (n : ℕ) (p : ℕ) :
    (List.range' p n).flatMap (fun i ↦ text[i]?.toList) = (text.drop p).take n := by
  induction n generalizing p with
  | zero => rw [List.range'_zero, List.flatMap_nil, List.take_zero]
  | succ n ih =>
    rw [List.range'_succ, List.flatMap_cons, ih]
    rcases Nat.lt_or_ge p text.length with hlt | hge
    · rw [List.getElem?_eq_getElem hlt, List.drop_eq_getElem_cons hlt, List.take_succ_cons]
      rfl
    · rw [List.getElem?_eq_none hge, List.drop_eq_nil_of_le hge,
        List.drop_eq_nil_of_le (Nat.le_succ_of_le hge), List.take_nil, List.take_nil]
      rfl

theorem filter_start_eq_nil (h : ∀ splice ∈ splices, i < splice.start) (q : Splice α → Bool) :
    splices.filter (fun splice ↦ splice.start = i && q splice) = [] := by
  rw [List.filter_eq_nil_iff]
  intro splice hsplice
  simp [(h splice hsplice).ne']

/-- Before the first interval nothing is replaced. -/
theorem pieceAt_before (h : ∀ splice ∈ splices, i < splice.start) :
    pieceAt text splices i = text[i]?.toList := by
  have hinserted : splices.filter (fun splice ↦ splice.start = i && splice.end_ = i) = [] :=
    filter_start_eq_nil h _
  have hreplaced : splices.filter (fun splice ↦ splice.start = i && i < splice.end_) = [] :=
    filter_start_eq_nil h _
  have hcovered : splices.any (fun splice ↦ splice.start ≤ i && i < splice.end_) = false := by
    rw [List.any_eq_false]
    intro splice hsplice
    simp [Nat.not_le.mpr (h splice hsplice)]
  rw [pieceAt, hinserted, hreplaced, hcovered]
  rfl

/-- Past an interval it contributes nothing. -/
theorem pieceAt_cons_after (h : splice.end_ ≤ i) (hlt : splice.start < i) (rest : List (Splice α)) :
    pieceAt text (splice :: rest) i = pieceAt text rest i := by
  rw [pieceAt, List.filter_cons_of_neg (by simp; omega), List.filter_cons_of_neg (by simp; omega),
    List.any_cons]
  simp [pieceAt, Nat.not_lt.mpr h]

/-- An insertion comes before what else its position contributes. -/
theorem pieceAt_cons_insertion (hstart : splice.start = i) (hend : splice.end_ = i)
    (rest : List (Splice α)) :
    pieceAt text (splice :: rest) i = splice.new ++ pieceAt text rest i := by
  rw [pieceAt, List.filter_cons_of_pos (by simp [hstart, hend]),
    List.filter_cons_of_neg (by simp [hend]), List.any_cons, List.flatMap_cons, List.append_assoc]
  simp [pieceAt, hend]

/-- A part that is replaced contributes what replaces it, at its beginning. -/
theorem pieceAt_cons_inside (hstart : splice.start ≤ i) (hend : i < splice.end_)
    (hrest : ∀ other ∈ rest, i < other.start) : pieceAt text (splice :: rest) i =
      if splice.start = i then splice.new else [] := by
  have hinserted : rest.filter (fun other ↦ other.start = i && other.end_ = i) = [] :=
    filter_start_eq_nil hrest _
  have hreplaced : rest.filter (fun other ↦ other.start = i && i < other.end_) = [] :=
    filter_start_eq_nil hrest _
  rw [pieceAt, List.filter_cons_of_neg (by simp; omega), hinserted, List.filter_cons, hreplaced,
    List.any_cons]
  by_cases heq : splice.start = i <;> simp [heq, hend, hstart]

theorem range'_split {a b c : ℕ} (hab : a ≤ b) (hbc : b ≤ c) :
    List.range' a (c - a) = List.range' a (b - a) ++ List.range' b (c - b) := by
  have happend : List.range' a (b - a) ++ List.range' (a + (b - a)) (c - b) =
      List.range' a (b - a + (c - b)) := List.range'_append_1
  rw [Nat.add_sub_cancel' hab] at happend
  rw [happend]
  congr 1
  omega

/-- What an interval contributes in all, with what follows it. -/
theorem flatMap_pieceAt_cons (hle : splice.start ≤ splice.end_)
    (hrest : InOrder splice.end_ rest text.length) :
    (List.range' splice.start (text.length + 1 - splice.start)).flatMap
        (pieceAt text (splice :: rest)) =
      splice.new ++ (List.range' splice.end_ (text.length + 1 - splice.end_)).flatMap
        (pieceAt text rest) := by
  have hlen := hrest.le
  have hafter (i : ℕ) (hi : splice.end_ ≤ i) (hlt : splice.start < i) :
      pieceAt text (splice :: rest) i = pieceAt text rest i := pieceAt_cons_after hi hlt rest
  rcases Nat.eq_or_lt_of_le hle with heq | hlt
  · have hlast : text.length + 1 - splice.end_ = (text.length - splice.end_) + 1 := by omega
    rw [heq, hlast, List.range'_succ, List.flatMap_cons, List.flatMap_cons,
      pieceAt_cons_insertion heq rfl, List.append_assoc]
    congr 2
    refine List.flatMap_congr fun i hi ↦ hafter i ?_ ?_ <;>
      have hi := List.mem_range'_1.mp hi <;> omega
  · have hinside (i : ℕ) (hi : i < splice.end_) (hstart : splice.start ≤ i) :
        pieceAt text (splice :: rest) i = if splice.start = i then splice.new else [] :=
      pieceAt_cons_inside hstart hi fun other hother ↦ hi.trans_le (hrest.le_start other hother)
    have hlength : splice.end_ - splice.start = (splice.end_ - splice.start - 1) + 1 := by omega
    have hnone : (List.range' (splice.start + 1) (splice.end_ - splice.start - 1)).flatMap
        (pieceAt text (splice :: rest)) = [] := by
      rw [List.flatMap_eq_nil_iff]
      intro i hi
      have hi := List.mem_range'_1.mp hi
      rw [hinside i (by omega) (by omega), if_neg (by omega)]
    rw [range'_split hle (by omega), List.flatMap_append, hlength, List.range'_succ,
      List.flatMap_cons, hinside splice.start hlt le_rfl, if_pos rfl, hnone, List.append_nil]
    congr 1
    refine List.flatMap_congr fun i hi ↦ hafter i ?_ ?_ <;>
      have hi := List.mem_range'_1.mp hi <;> omega

/-- **What is replaced in order is replaced at once.** By induction on the intervals: before the
first one nothing is replaced. -/
theorem spliced_eq (h : InOrder p splices text.length) : spliced text p splices =
    (List.range' p (text.length + 1 - p)).flatMap (pieceAt text splices) := by
  induction splices generalizing p with
  | nil =>
    have hnone : pieceAt text [] = fun i ↦ text[i]?.toList :=
      funext fun i ↦ pieceAt_before (List.forall_mem_nil _)
    rw [hnone, flatMap_range', spliced, List.take_of_length_le]
    rw [List.length_drop]
    omega
  | cons splice rest ih =>
    obtain ⟨hstart, hle, hrest⟩ := h
    have hlen := hrest.le
    have hbefore : (List.range' p (splice.start - p)).flatMap (pieceAt text (splice :: rest)) =
        (text.drop p).take (splice.start - p) := by
      rw [← flatMap_range']
      refine List.flatMap_congr fun i hi ↦ pieceAt_before ?_
      have hi := List.mem_range'_1.mp hi
      refine List.forall_mem_cons.mpr ⟨by omega, fun other hother ↦ ?_⟩
      have := hrest.le_start other hother
      omega
    rw [spliced, ih hrest, range'_split hstart (by omega), List.flatMap_append, hbefore,
      flatMap_pieceAt_cons hle hrest]

/-! ## The order of the intervals -/

/-- The order that intervals are sorted by. -/
def keyLe (a b : Splice α) : Prop := a.start < b.start ∨ a.start = b.start ∧ a.end_ ≤ b.end_

instance : DecidableRel (keyLe : Splice α → Splice α → Prop) := fun a b ↦
  inferInstanceAs (Decidable (a.start < b.start ∨ a.start = b.start ∧ a.end_ ≤ b.end_))

instance : Std.Total (keyLe : Splice α → Splice α → Prop) where
  total a b := by
    rw [keyLe, keyLe]
    omega

instance : IsTrans (Splice α) keyLe where
  trans a b c := by
    rw [keyLe, keyLe, keyLe]
    omega

/-- Neither of two intervals reaches into the other. -/
def Apart (a b : Splice α) : Prop := a.end_ ≤ b.start ∨ b.end_ ≤ a.start

/-- Intervals that do not overlap are in order when they are sorted. -/
theorem inOrder_of_sorted (hsorted : splices.Pairwise keyLe) (hapart : splices.Pairwise Apart)
    (hle : ∀ splice ∈ splices, splice.start ≤ splice.end_ ∧ splice.end_ ≤ len)
    (hp : ∀ splice ∈ splices, p ≤ splice.start) (hlen : p ≤ len) : InOrder p splices len := by
  induction splices generalizing p with
  | nil => exact hlen
  | cons splice rest ih =>
    obtain ⟨hkey, hsorted⟩ := List.pairwise_cons.mp hsorted
    obtain ⟨hfirst, hapart⟩ := List.pairwise_cons.mp hapart
    obtain ⟨⟨hproper, hend⟩, hle⟩ := List.forall_mem_cons.mp hle
    refine ⟨hp splice List.mem_cons_self, hproper,
      ih hsorted hapart hle (fun other hother ↦ ?_) hend⟩
    have hother' := hle other hother
    have hkey := hkey other hother
    rcases hfirst other hother with h | h
    · exact h
    · -- both are empty and at the same position
      rw [keyLe] at hkey
      omega

theorem InOrder.pairwise (h : InOrder p splices len) : splices.Pairwise Apart := by
  induction splices generalizing p with
  | nil => exact List.Pairwise.nil
  | cons splice rest ih =>
    exact List.pairwise_cons.mpr ⟨fun other hother ↦ .inl (h.2.2.le_start other hother), ih h.2.2⟩

/-- Sorting keeps the order of what is equal in it. -/
theorem filter_insertionSort {r : α → α → Prop} [DecidableRel r] {test : α → Bool}
    (htest : ∀ a b, test a = true → test b = true → r a b) (l : List α) :
    (l.insertionSort r).filter test = l.filter test := by
  have hinsert (a : α) (l : List α) :
      (l.orderedInsert r a).filter test = (a :: l).filter test := by
    induction l with
    | nil => rfl
    | cons b l ih =>
      rw [List.orderedInsert]
      split_ifs with hab
      · rfl
      · rw [List.filter_cons, ih]
        cases ha : test a with
        | false =>
          rw [List.filter_cons_of_neg (by simp [ha]), List.filter_cons_of_neg (by simp [ha]),
            List.filter_cons]
        | true =>
          have hb : test b = false := by
            cases hb : test b with
            | false => rfl
            | true => exact absurd (htest a b ha hb) hab
          rw [if_neg (by simp [hb]), List.filter_cons_of_pos ha, List.filter_cons_of_pos ha,
            List.filter_cons_of_neg (by simp [hb])]
  induction l with
  | nil => rfl
  | cons a l ih => rw [List.insertionSort_cons, hinsert, List.filter_cons, ih, List.filter_cons]

theorem eq_of_perm_of_length {l l' : List α} (h : l.Perm l') (hlength : l.length ≤ 1) : l = l' := by
  match l with
  | [] => exact (List.nil_perm.mp h).symm
  | [a] => exact List.singleton_perm.mp h

/-- At most one interval that is not empty begins at a position. -/
theorem length_filter_le (hapart : splices.Pairwise Apart) (i : ℕ) :
    (splices.filter fun splice ↦ splice.start = i && i < splice.end_).length ≤ 1 := by
  induction splices with
  | nil => exact Nat.zero_le 1
  | cons splice rest ih =>
    obtain ⟨hfirst, hapart⟩ := List.pairwise_cons.mp hapart
    rw [List.filter_cons]
    split_ifs with hhere
    · have hnone : rest.filter (fun other ↦ other.start = i && i < other.end_) = [] := by
        rw [List.filter_eq_nil_iff]
        intro other hother hthere
        simp only [Bool.and_eq_true, decide_eq_true_eq] at hhere hthere
        have := hfirst other hother
        rw [Apart] at this
        omega
      rw [hnone]
      exact Nat.le_refl 1
    · exact ih hapart

/-- Sorting does not change what is replaced. -/
theorem replaceAll_insertionSort (hapart : splices.Pairwise Apart) :
    replaceAll text (splices.insertionSort keyLe) = replaceAll text splices := by
  have hperm := List.perm_insertionSort keyLe splices
  refine List.flatMap_congr fun i _ ↦ ?_
  have hinserted : (splices.insertionSort keyLe).filter
      (fun splice ↦ splice.start = i && splice.end_ = i) =
      splices.filter fun splice ↦ splice.start = i && splice.end_ = i := by
    refine filter_insertionSort (fun a b ha hb ↦ ?_) splices
    simp only [Bool.and_eq_true, decide_eq_true_eq] at ha hb
    rw [keyLe]
    omega
  have hreplaced := eq_of_perm_of_length (hperm.symm.filter _) (length_filter_le hapart i)
  rw [pieceAt, pieceAt, hinserted, ← hreplaced, hperm.any_eq]

end Splice

/-! ## The builder -/

namespace DeltaBuilder

variable {self : DeltaBuilder α} {text content rope : List α} {start end_ : ℕ}
  {splices : List (Splice α)}

/-- What the sections so far make of the document up to the last offset. -/
structure Holds (builder : DeltaBuilder α) (text content : List α) : Prop where
  baseLen : builder.baseLen = text.length
  le : builder.lastOffset ≤ text.length
  apply : (⟨builder.els, text.length⟩ : Delta α).apply text = some content

theorem holds_new (text : List α) : Holds (new text.length) text [] :=
  ⟨rfl, Nat.zero_le _, if_pos rfl⟩

theorem apply_append_copy {els : List (DeltaElement α)}
    (h : (⟨els, text.length⟩ : Delta α).apply text = some content) (hle : start ≤ end_)
    (hend : end_ ≤ text.length) : (⟨els ++ [.copy start end_], text.length⟩ : Delta α).apply text =
      some (content ++ (text.drop start).take (end_ - start)) := by
  rw [Delta.apply, if_pos rfl] at h ⊢
  dsimp only at h ⊢
  rw [List.foldlM_append, h, Option.bind_eq_bind, Option.bind_some, List.foldlM_cons]
  simp only [subseq_eq hle hend]
  rfl

theorem apply_append_insert {els : List (DeltaElement α)}
    (h : (⟨els, text.length⟩ : Delta α).apply text = some content) (rope : List α) :
    (⟨els ++ [.insert rope], text.length⟩ : Delta α).apply text = some (content ++ rope) := by
  rw [Delta.apply, if_pos rfl] at h ⊢
  dsimp only at h ⊢
  rw [List.foldlM_append, h]
  rfl

theorem Holds.replace (h : Holds self text content) (hstart : self.lastOffset ≤ start)
    (hle : start ≤ end_) (hend : end_ ≤ text.length) (rope : List α) :
    ∃ self', self.replace start end_ rope = some self' ∧ self'.lastOffset = end_ ∧
      Holds self' text (content ++ ((text.drop self.lastOffset).take (start - self.lastOffset) ++
        rope)) := by
  have hcopied : (⟨if start > self.lastOffset then self.els ++ [.copy self.lastOffset start]
      else self.els, text.length⟩ : Delta α).apply text =
        some (content ++ (text.drop self.lastOffset).take (start - self.lastOffset)) := by
    split_ifs with hlt
    · exact apply_append_copy h.apply hstart (hle.trans hend)
    · rw [h.apply, Nat.sub_eq_zero_of_le (Nat.not_lt.mp hlt), List.take_zero, List.append_nil]
  rw [DeltaBuilder.replace, delete, if_pos hstart, Option.bind_eq_bind, Option.bind_some,
    ← List.append_assoc]
  cases rope with
  | nil => exact ⟨_, rfl, rfl, h.baseLen, hend, by rwa [List.append_nil]⟩
  | cons a rope => exact ⟨_, rfl, rfl, h.baseLen, hend, apply_append_insert hcopied (a :: rope)⟩

theorem Holds.build (h : Holds self text content) :
    self.build.apply text = some (content ++ text.drop self.lastOffset) := by
  rw [DeltaBuilder.build, h.baseLen]
  split_ifs with hlt
  · rw [apply_append_copy h.apply hlt.le (Nat.le_refl _), List.take_of_length_le]
    rw [List.length_drop]
  · rw [h.apply, List.drop_eq_nil_of_le (Nat.not_lt.mp hlt), List.append_nil]

end DeltaBuilder

end EeEditor
