import EeEditor.Rope.Summary
import EeEditor.Rope.Synthesize

/-!
# Changed regions

The model of `xi-rope/src/delta/iter.rs`: the iterators over the insertions and over the deletions
of a delta. Both carry a position of the new document and one of the old, `last_end`. The latter
also grows by the length of the inserted text, so it is a position of the old document only until
text is inserted and again from the next `Copy` on. What the iterators should yield is described by
the document alone; they yield it exactly when no region is reported in between.
-/

namespace EeEditor

variable {α : Type}

/-- A place where a delta inserts or deletes. -/
structure DeltaRegion where
  oldOffset : ℕ
  newOffset : ℕ
  len : ℕ
deriving DecidableEq, Repr

/-- Run an iterator until it ends, for at most `n` calls of `next`. -/
def collect {σ ρ : Type} (next : σ → Option ρ × σ) : ℕ → σ → Option (List ρ)
  | 0, _ => none
  | n + 1, st =>
    match next st with
    | (none, _) => some []
    | (some r, st) => (collect next n st).map (r :: ·)

structure InsertsIter (α : Type) where
  pos : ℕ
  lastEnd : ℕ
  elsIter : List (DeltaElement α)

structure DeletionsIter (α : Type) where
  pos : ℕ
  lastEnd : ℕ
  baseLen : ℕ
  elsIter : List (DeltaElement α)

def InsertsIter.scan (pos lastEnd : ℕ) :
    List (DeltaElement α) → Option DeltaRegion × InsertsIter α
  | [] => (none, ⟨pos, lastEnd, []⟩)
  | .copy b e :: els => scan (pos + (e - b)) e els
  | .insert n :: els =>
    (some ⟨lastEnd, pos, n.length⟩, ⟨pos + n.length, lastEnd + n.length, els⟩)

def InsertsIter.next (self : InsertsIter α) : Option DeltaRegion × InsertsIter α :=
  scan self.pos self.lastEnd self.elsIter

def DeletionsIter.scan (pos lastEnd baseLen : ℕ) :
    List (DeltaElement α) → Option DeltaRegion × DeletionsIter α
  | [] =>
    if lastEnd < baseLen then
      (some ⟨lastEnd, pos, baseLen - lastEnd⟩, ⟨pos, baseLen, baseLen, []⟩)
    else (none, ⟨pos, lastEnd, baseLen, []⟩)
  | .copy b e :: els =>
    if b > lastEnd then
      (some ⟨lastEnd, pos, b - lastEnd⟩, ⟨pos + (e - b), e, baseLen, els⟩)
    else scan (pos + (e - b)) e baseLen els
  | .insert n :: els => scan (pos + n.length) (lastEnd + n.length) baseLen els

def DeletionsIter.next (self : DeletionsIter α) : Option DeltaRegion × DeletionsIter α :=
  scan self.pos self.lastEnd self.baseLen self.elsIter

namespace Delta

/-- The regions of `iter_inserts`. Each one uses up an element. -/
def iterInserts (self : Delta α) : Option (List DeltaRegion) :=
  collect InsertsIter.next (self.els.length + 1) ⟨0, 0, self.els⟩

/-- The regions of `iter_deletions`. Each one uses up an element, or is the last. -/
def iterDeletions (self : Delta α) : Option (List DeltaRegion) :=
  collect DeletionsIter.next (self.els.length + 2) ⟨0, 0, self.baseLen, self.els⟩

end Delta

/-! ## Sorted copies -/

/-- The copied ranges are in order, start at `p` or later and end by `q`. Ranges and insertions
may be empty. -/
def CopiesSorted : ℕ → List (DeltaElement α) → ℕ → Prop
  | p, [], q => p ≤ q
  | p, .copy b e :: els, q => p ≤ b ∧ b ≤ e ∧ CopiesSorted e els q
  | p, .insert _ :: els, q => CopiesSorted p els q

instance decidableCopiesSorted : ∀ (p : ℕ) (els : List (DeltaElement α)) (q : ℕ),
    Decidable (CopiesSorted p els q)
  | p, [], q => inferInstanceAs (Decidable (p ≤ q))
  | p, .copy b e :: els, q =>
    have := decidableCopiesSorted e els q
    inferInstanceAs (Decidable (p ≤ b ∧ b ≤ e ∧ CopiesSorted e els q))
  | p, .insert _ :: els, q => decidableCopiesSorted p els q

/-- The copies are sorted, disjoint and within the base. -/
def Delta.Sorted (d : Delta α) : Prop := CopiesSorted 0 d.els d.baseLen

instance (d : Delta α) : Decidable d.Sorted := decidableCopiesSorted 0 d.els d.baseLen

/-- Where the last `Copy` ends, `p` if there is none. -/
@[grind =] def copiedTo (p : ℕ) (els : List (DeltaElement α)) : ℕ :=
  els.foldl (fun p el ↦ match el with | .copy _ e => e | .insert _ => p) p

/-- Where the first `Copy` begins, `q` if there is none. -/
def copyStart (q : ℕ) : List (DeltaElement α) → ℕ
  | [] => q
  | .copy b _ :: _ => b
  | .insert _ :: els => copyStart q els

/-- The length of the text inserted since the last `Copy`. -/
@[grind =] def pendingLen (n : ℕ) (els : List (DeltaElement α)) : ℕ :=
  els.foldl (fun n el ↦ match el with | .copy _ _ => 0 | .insert m => n + m.length) n

@[simp] theorem copiedTo_append (p : ℕ) (els els' : List (DeltaElement α)) :
    copiedTo p (els ++ els') = copiedTo (copiedTo p els) els' := List.foldl_append

@[simp] theorem pendingLen_append (n : ℕ) (els els' : List (DeltaElement α)) :
    pendingLen n (els ++ els') = pendingLen (pendingLen n els) els' := List.foldl_append

namespace CopiesSorted

variable {p q : ℕ} {els pre post : List (DeltaElement α)}

theorem append : CopiesSorted p (pre ++ post) q ↔
    CopiesSorted p pre (copiedTo p pre) ∧ CopiesSorted (copiedTo p pre) post q := by
  induction pre generalizing p with
  | nil => exact ⟨fun h ↦ ⟨le_refl p, h⟩, And.right⟩
  | cons el pre ih =>
    cases el with
    | copy b e =>
      have hcopied : copiedTo p (.copy b e :: pre) = copiedTo e pre := rfl
      rw [List.cons_append, hcopied]
      constructor
      · rintro ⟨hb, he, hrest⟩
        exact ⟨⟨hb, he, (ih.mp hrest).1⟩, (ih.mp hrest).2⟩
      · rintro ⟨⟨hb, he, hpre⟩, hpost⟩
        exact ⟨hb, he, ih.mpr ⟨hpre, hpost⟩⟩
    | insert n => exact ih

theorem le_copyStart (h : CopiesSorted p els q) : p ≤ copyStart q els := by
  induction els generalizing p with
  | nil => exact h
  | cons el els ih =>
    cases el with
    | copy b e => exact h.1
    | insert n => exact ih h

theorem le (h : CopiesSorted p els q) : p ≤ q := by
  induction els generalizing p with
  | nil => exact h
  | cons el els ih =>
    cases el with
    | copy b e => exact (h.1.trans h.2.1).trans (ih h.2.2)
    | insert n => exact ih h

theorem copyStart_le (h : CopiesSorted p els q) : copyStart q els ≤ q := by
  induction els generalizing p with
  | nil => exact le_refl q
  | cons el els ih =>
    cases el with
    | copy b e => exact h.2.1.trans h.2.2.le
    | insert n => exact ih h

/-- The copies of the elements begin at the first one. -/
theorem of_mem (h : CopiesSorted p els q) {b e : ℕ} (hmem : .copy b e ∈ els) :
    copyStart q els ≤ b ∧ b ≤ e ∧ e ≤ copiedTo p els := by
  induction els generalizing p with
  | nil => exact absurd hmem List.not_mem_nil
  | cons el els ih =>
    cases el with
    | copy b' e' =>
      obtain ⟨-, hbe', hrest⟩ := h
      have hle := (append.mp ((List.append_nil els).symm ▸ hrest)).1.le
      rcases List.mem_cons.mp hmem with heq | hmem
      · cases heq
        exact ⟨le_refl b, hbe', hle⟩
      · obtain ⟨hb, hbe, he⟩ := ih hrest hmem
        exact ⟨(hbe'.trans hrest.le_copyStart).trans hb, hbe, he⟩
    | insert n =>
      rcases List.mem_cons.mp hmem with heq | hmem
      · cases heq
      · exact ih h hmem

end CopiesSorted

/-! ## What the regions should be -/

/-- The position of the base is copied by the element. -/
def DeltaElement.Covers : DeltaElement α → ℕ → Prop
  | .copy b e, i => b ≤ i ∧ i < e
  | .insert _, _ => False

namespace Delta

/-- The position of the base is copied. -/
def Covers (d : Delta α) (i : ℕ) : Prop := ∃ el ∈ d.els, el.Covers i

/-- A maximal gap of the base that no `Copy` covers. -/
structure IsGap (d : Delta α) (o l : ℕ) : Prop where
  pos : 0 < l
  le : o + l ≤ d.baseLen
  uncovered : ∀ i, o ≤ i → i < o + l → ¬ d.Covers i
  left : o = 0 ∨ d.Covers (o - 1)
  right : o + l = d.baseLen ∨ d.Covers (o + l)

/-- The new document has at `newOffset` nothing before it that was copied from behind the gap, and
nothing behind it that was copied from before the gap. -/
structure RemovedAt (d : Delta α) (r : DeltaRegion) : Prop where
  le : r.newOffset ≤ (flatten d.els).length
  before : ∀ i, .inl i ∈ (flatten d.els).take r.newOffset → i < r.oldOffset
  after : ∀ i, .inl i ∈ (flatten d.els).drop r.newOffset → r.oldOffset + r.len ≤ i

/-- The insertions, each with the elements before it. -/
def insertions (pre : List (DeltaElement α)) :
    List (DeltaElement α) → List (List (DeltaElement α) × List α)
  | [] => []
  | .copy b e :: els => insertions (pre ++ [.copy b e]) els
  | .insert n :: els => (pre, n) :: insertions (pre ++ [.insert n]) els

/-- Where an insertion stands in the old and in the new document. -/
def insertedRegion (ins : List (DeltaElement α) × List α) : DeltaRegion :=
  ⟨copiedTo 0 ins.1, totalElementLen ins.1, ins.2.length⟩

/-- One region for each insertion, in order. -/
def RealInserts (d : Delta α) (rs : List DeltaRegion) : Prop :=
  rs = (insertions [] d.els).map insertedRegion

/-- One region for each maximal gap, in order. -/
structure RealDeletions (d : Delta α) (rs : List DeltaRegion) : Prop where
  sorted : rs.Pairwise fun r r' ↦ r.oldOffset < r'.oldOffset
  gaps : ∀ o l, d.IsGap o l ↔ ∃ r ∈ rs, r.oldOffset = o ∧ r.len = l
  removed : ∀ r ∈ rs, d.RemovedAt r

/-- The reported regions are the real ones. -/
def RegionsReal (d : Delta α) : Prop :=
  (∃ rs, d.iterInserts = some rs ∧ d.RealInserts rs) ∧
    ∃ rs, d.iterDeletions = some rs ∧ d.RealDeletions rs

/-- Nothing lies between text that is inserted and what is reported next: no insertion follows
inserted text, text is inserted only where the copies around it meet, and no empty `Copy` lies
strictly inside a gap. -/
structure InsertsSeparated (d : Delta α) : Prop where
  apart : ∀ pre m mid n post, d.els = pre ++ .insert m :: (mid ++ .insert n :: post) → m ≠ [] →
    ∃ b e, .copy b e ∈ mid
  flush : ∀ pre n post, d.els = pre ++ .insert n :: post → n ≠ [] →
    copiedTo 0 pre = copyStart d.baseLen post
  adjoin : ∀ b, .copy b b ∈ d.els → b = 0 ∨ b = d.baseLen ∨ d.Covers (b - 1) ∨ d.Covers b

end Delta

/-! ## The insertions that are reported -/

@[simp] theorem Delta.totalElementLen_append (els els' : List (DeltaElement α)) :
    totalElementLen (els ++ els') = totalElementLen els + totalElementLen els' := by
  rw [totalElementLen, totalElementLen, totalElementLen, List.map_append, List.sum_append]

/-- The position of the base that both iterators believe to be at. -/
@[grind =] def reportedEnd (pre : List (DeltaElement α)) : ℕ := copiedTo 0 pre + pendingLen 0 pre

theorem reportedEnd_append_copy (pre : List (DeltaElement α)) (b e : ℕ) :
    reportedEnd (pre ++ [.copy b e]) = e := by
  simp [reportedEnd, copiedTo, pendingLen]

theorem reportedEnd_append_insert (pre : List (DeltaElement α)) (n : List α) :
    reportedEnd (pre ++ [.insert n]) = reportedEnd pre + n.length := by
  simp [reportedEnd, copiedTo, pendingLen, Nat.add_assoc]

section

variable {pre els mid post : List (DeltaElement α)} {n : List α}

open Delta

theorem totalElementLen_append_copy (pre : List (DeltaElement α)) (b e : ℕ) :
    totalElementLen (pre ++ [.copy b e]) = totalElementLen pre + (e - b) := by
  rw [totalElementLen_append]
  simp [totalElementLen, DeltaElement.len]

theorem totalElementLen_append_insert (pre : List (DeltaElement α)) (n : List α) :
    totalElementLen (pre ++ [.insert n]) = totalElementLen pre + n.length := by
  rw [totalElementLen_append]
  simp [totalElementLen, DeltaElement.len]

theorem collect_inserts (els : List (DeltaElement α)) :
    ∀ (pre : List (DeltaElement α)) (k : ℕ), els.length < k →
      collect InsertsIter.next k ⟨totalElementLen pre, reportedEnd pre, els⟩
        = some ((insertions pre els).map fun ins ↦
            ⟨reportedEnd ins.1, totalElementLen ins.1, ins.2.length⟩) := by
  induction els with
  | nil =>
    intro pre k hk
    obtain ⟨k, rfl⟩ := Nat.exists_eq_succ_of_ne_zero (Nat.ne_zero_of_lt hk)
    rfl
  | cons el els ih =>
    intro pre k hk
    rw [List.length_cons] at hk
    obtain ⟨k, rfl⟩ := Nat.exists_eq_succ_of_ne_zero (Nat.ne_zero_of_lt hk)
    cases el with
    | copy b e =>
      have hrest := ih (pre ++ [.copy b e]) (k + 1) (by omega)
      rw [totalElementLen_append_copy, reportedEnd_append_copy] at hrest
      exact hrest
    | insert n =>
      have hrest := ih (pre ++ [.insert n]) k (by omega)
      rw [totalElementLen_append_insert, reportedEnd_append_insert] at hrest
      rw [collect, InsertsIter.next, InsertsIter.scan]
      dsimp only
      rw [hrest]
      rfl

theorem mem_insertions {pre' : List (DeltaElement α)} : (pre', n) ∈ insertions pre els ↔
    ∃ mid post, els = mid ++ .insert n :: post ∧ pre' = pre ++ mid := by
  induction els generalizing pre with
  | nil => simp [insertions]
  | cons el els ih =>
    cases el with
    | copy b e =>
      rw [insertions, ih]
      constructor
      · rintro ⟨mid, post, rfl, rfl⟩
        exact ⟨.copy b e :: mid, post, rfl, by simp⟩
      · rintro ⟨mid, post, hels, rfl⟩
        cases mid with
        | nil => cases hels
        | cons el mid =>
          obtain ⟨rfl, rfl⟩ := List.cons.inj hels
          exact ⟨mid, post, rfl, by simp⟩
    | insert m =>
      rw [insertions, List.mem_cons, ih]
      constructor
      · rintro (heq | ⟨mid, post, rfl, rfl⟩)
        · cases heq
          exact ⟨[], els, rfl, by simp⟩
        · exact ⟨.insert m :: mid, post, rfl, by simp⟩
      · rintro ⟨mid, post, hels, rfl⟩
        cases mid with
        | nil =>
          obtain ⟨heq, rfl⟩ := List.cons.inj hels
          cases heq
          exact .inl (by simp)
        | cons el mid =>
          obtain ⟨rfl, rfl⟩ := List.cons.inj hels
          exact .inr ⟨mid, post, rfl, by simp⟩

/-! ### Stretches without a copy -/

theorem copiedTo_of_noCopy (h : ∀ b e, .copy b e ∉ mid) (p : ℕ) : copiedTo p mid = p := by
  induction mid with
  | nil => rfl
  | cons el mid ih =>
    cases el with
    | copy b e => exact absurd List.mem_cons_self (h b e)
    | insert n => exact ih fun b e hmem ↦ h b e (List.mem_cons_of_mem _ hmem)

theorem copyStart_of_noCopy (h : ∀ b e, .copy b e ∉ mid) (q : ℕ) :
    copyStart q (mid ++ post) = copyStart q post := by
  induction mid with
  | nil => rfl
  | cons el mid ih =>
    cases el with
    | copy b e => exact absurd List.mem_cons_self (h b e)
    | insert n => exact ih fun b e hmem ↦ h b e (List.mem_cons_of_mem _ hmem)

theorem le_pendingLen_of_noCopy (h : ∀ b e, .copy b e ∉ mid) (k : ℕ) : k ≤ pendingLen k mid := by
  induction mid generalizing k with
  | nil => exact le_refl k
  | cons el mid ih =>
    cases el with
    | copy b e => exact absurd List.mem_cons_self (h b e)
    | insert n =>
      have := ih (fun b e hmem ↦ h b e (List.mem_cons_of_mem _ hmem)) (k + n.length)
      exact (Nat.le_add_right _ _).trans this

/-- Text is pending when it was inserted since the last `Copy`. -/
theorem pendingLen_ne_zero_iff : pendingLen 0 pre ≠ 0 ↔
    ∃ pre' n mid, pre = pre' ++ .insert n :: mid ∧ n ≠ [] ∧ ∀ b e, .copy b e ∉ mid := by
  constructor
  · intro h
    induction pre using List.reverseRecOn with
    | nil => exact absurd rfl h
    | append_singleton pre el ih =>
      cases el with
      | copy b e => exact absurd (by simp [pendingLen]) h
      | insert n =>
        by_cases hn : n = []
        · subst hn
          obtain ⟨pre', m, mid, rfl, hm, hmid⟩ := ih (by simpa [pendingLen] using h)
          refine ⟨pre', m, mid ++ [.insert []], by simp, hm, fun b e hmem ↦ ?_⟩
          rcases List.mem_append.mp hmem with hmem | hmem
          · exact hmid b e hmem
          · cases List.mem_singleton.mp hmem
        · exact ⟨pre, n, [], rfl, hn, fun b e ↦ List.not_mem_nil⟩
  · rintro ⟨pre', n, mid, rfl, hn, hmid⟩
    have hle := le_pendingLen_of_noCopy hmid (pendingLen 0 pre' + n.length)
    have hpos := List.length_pos_of_ne_nil hn
    have heq : pendingLen 0 (pre' ++ .insert n :: mid)
        = pendingLen (pendingLen 0 pre' + n.length) mid := by
      rw [pendingLen_append]
      rfl
    omega

end

namespace Delta

variable {d : Delta α}

theorem iterInserts_eq (d : Delta α) : d.iterInserts = some ((insertions [] d.els).map fun ins ↦
    ⟨reportedEnd ins.1, totalElementLen ins.1, ins.2.length⟩) :=
  collect_inserts d.els [] _ (Nat.lt_succ_self _)

/-- The insertions are reported where they are if none follows inserted text. -/
theorem realInserts_iff : (∃ rs, d.iterInserts = some rs ∧ d.RealInserts rs) ↔
    ∀ pre m mid n post, d.els = pre ++ .insert m :: (mid ++ .insert n :: post) → m ≠ [] →
      ∃ b e, .copy b e ∈ mid := by
  have hpending : (∃ rs, d.iterInserts = some rs ∧ d.RealInserts rs) ↔
      ∀ ins ∈ insertions [] d.els, pendingLen 0 ins.1 = 0 := by
    rw [iterInserts_eq]
    simp only [Option.some.injEq, exists_eq_left', RealInserts, List.map_inj_left, insertedRegion,
      reportedEnd, DeltaRegion.mk.injEq, and_true]
    exact forall₂_congr fun ins _ ↦ by omega
  rw [hpending]
  constructor
  · intro h pre m mid n post hels hm
    by_contra hno
    have hmid : ∀ b e, .copy b e ∉ mid := fun b e hmem ↦ hno ⟨b, e, hmem⟩
    have hmem : (pre ++ .insert m :: mid, n) ∈ insertions [] d.els :=
      mem_insertions.mpr ⟨pre ++ .insert m :: mid, post, by simp [hels], rfl⟩
    exact pendingLen_ne_zero_iff.mpr ⟨pre, m, mid, rfl, hm, hmid⟩ (h _ hmem)
  · rintro h ⟨pre, n⟩ hmem
    obtain ⟨mid, post, hels, rfl⟩ := mem_insertions.mp hmem
    by_contra hne
    obtain ⟨pre', m, mid', hmid, hm, hno⟩ := pendingLen_ne_zero_iff.mp hne
    dsimp only at hmid
    obtain ⟨b, e, hcopy⟩ := h pre' m mid' n post (by simp [hels, hmid]) hm
    exact hno b e hcopy

end Delta

/-! ## The deletions that are reported -/

section

variable {pre els post : List (DeltaElement α)} {p q : ℕ}

open Delta

/-- The stretches of the base in front of the copies and of the end, each with the elements before
its end. -/
def stretches (q : ℕ) (pre : List (DeltaElement α)) :
    List (DeltaElement α) → List (List (DeltaElement α) × ℕ)
  | [] => [(pre, q)]
  | .copy b e :: els => (pre, b) :: stretches q (pre ++ [.copy b e]) els
  | .insert n :: els => stretches q (pre ++ [.insert n]) els

/-- What is reported at the end of a stretch. -/
@[grind =] def deletedRegion (stretch : List (DeltaElement α) × ℕ) : Option DeltaRegion :=
  if stretch.2 > reportedEnd stretch.1 then
    some ⟨reportedEnd stretch.1, totalElementLen stretch.1, stretch.2 - reportedEnd stretch.1⟩
  else none

theorem collect_deletions (q : ℕ) (els : List (DeltaElement α)) :
    ∀ (pre : List (DeltaElement α)) (k : ℕ), els.length + 1 < k →
      collect DeletionsIter.next k ⟨totalElementLen pre, reportedEnd pre, q, els⟩
        = some ((stretches q pre els).filterMap deletedRegion) := by
  induction els with
  | nil =>
    intro pre k hk
    obtain ⟨k, rfl⟩ : ∃ m, k = m + 2 := ⟨k - 2, by simp only [List.length_nil] at hk; omega⟩
    rw [collect, DeletionsIter.next, DeletionsIter.scan, stretches, List.filterMap_cons,
      List.filterMap_nil, deletedRegion]
    by_cases h : reportedEnd pre < q
    · rw [if_pos h, if_pos h]
      dsimp only
      rw [collect, DeletionsIter.next, DeletionsIter.scan, if_neg (lt_irrefl q)]
      rfl
    · rw [if_neg h, if_neg h]
  | cons el els ih =>
    intro pre k hk
    rw [List.length_cons] at hk
    obtain ⟨k, rfl⟩ := Nat.exists_eq_succ_of_ne_zero (Nat.ne_zero_of_lt hk)
    cases el with
    | copy b e =>
      rw [stretches, List.filterMap_cons, deletedRegion]
      dsimp only
      by_cases h : b > reportedEnd pre
      · have hrest := ih (pre ++ [.copy b e]) k (by omega)
        rw [totalElementLen_append_copy, reportedEnd_append_copy] at hrest
        rw [collect, DeletionsIter.next, DeletionsIter.scan, if_pos h, if_pos h]
        dsimp only
        rw [hrest]
        rfl
      · have hrest := ih (pre ++ [.copy b e]) (k + 1) (by omega)
        rw [totalElementLen_append_copy, reportedEnd_append_copy] at hrest
        rw [if_neg h, ← hrest, collect, collect, DeletionsIter.next, DeletionsIter.next,
          DeletionsIter.scan, if_neg h]
    | insert n =>
      have hrest := ih (pre ++ [.insert n]) (k + 1) (by omega)
      rw [totalElementLen_append_insert, reportedEnd_append_insert] at hrest
      exact hrest

theorem split_of_mem_stretches {s : List (DeltaElement α) × ℕ} (h : s ∈ stretches q pre els) :
    ∃ mid post, els = mid ++ post ∧ s.1 = pre ++ mid ∧ s.2 = copyStart q post ∧
      ∀ n post', post ≠ .insert n :: post' := by
  induction els generalizing pre with
  | nil =>
    obtain rfl := List.mem_singleton.mp h
    exact ⟨[], [], rfl, by simp, rfl, nofun⟩
  | cons el els ih =>
    cases el with
    | copy b e =>
      rcases List.mem_cons.mp h with rfl | h
      · exact ⟨[], .copy b e :: els, rfl, by simp, rfl, nofun⟩
      · obtain ⟨mid, post, rfl, hs, hb⟩ := ih h
        exact ⟨.copy b e :: mid, post, rfl, by simp [hs], hb⟩
    | insert n =>
      obtain ⟨mid, post, rfl, hs, hb⟩ := ih h
      exact ⟨.insert n :: mid, post, rfl, by simp [hs], hb⟩

theorem stretches_sorted (h : CopiesSorted (copiedTo 0 pre) els q) :
    ((stretches q pre els).Pairwise fun s s' ↦ s.2 ≤ copiedTo 0 s'.1) ∧
      ∀ s ∈ stretches q pre els, copiedTo 0 pre ≤ copiedTo 0 s.1 := by
  induction els generalizing pre with
  | nil => exact ⟨List.pairwise_singleton _ _, fun s hs ↦ by rw [List.mem_singleton.mp hs]⟩
  | cons el els ih =>
    cases el with
    | copy b e =>
      obtain ⟨hb, hbe, hrest⟩ := h
      have hcopied : copiedTo 0 (pre ++ [.copy b e]) = e := by simp [copiedTo]
      obtain ⟨hsorted, hle⟩ := ih (hcopied ▸ hrest)
      rw [hcopied] at hle
      refine ⟨List.pairwise_cons.mpr ⟨fun s hs ↦ hbe.trans (hle s hs), hsorted⟩, fun s hs ↦ ?_⟩
      rcases List.mem_cons.mp hs with rfl | hs
      · exact le_refl _
      · exact (hb.trans hbe).trans (hle s hs)
    | insert n =>
      have hcopied : copiedTo 0 (pre ++ [.insert n]) = copiedTo 0 pre := by simp [copiedTo]
      have hrest : CopiesSorted (copiedTo 0 (pre ++ [.insert n])) els q := by
        rw [hcopied]
        exact h
      obtain ⟨hsorted, hle⟩ := ih hrest
      exact ⟨hsorted, fun s hs ↦ hcopied ▸ hle s hs⟩

/-- A position that is not copied lies in a stretch. -/
theorem exists_stretch {i : ℕ} (hpre : copiedTo 0 pre ≤ i) (hi : i < q)
    (hno : ∀ el ∈ els, ¬ el.Covers i) :
    ∃ s ∈ stretches q pre els, copiedTo 0 s.1 ≤ i ∧ i < s.2 := by
  induction els generalizing pre with
  | nil => exact ⟨(pre, q), List.mem_singleton_self _, hpre, hi⟩
  | cons el els ih =>
    have hrest : ∀ el ∈ els, ¬ el.Covers i := fun el hel ↦ hno el (List.mem_cons_of_mem _ hel)
    cases el with
    | copy b e =>
      by_cases hb : i < b
      · exact ⟨(pre, b), List.mem_cons_self, hpre, hb⟩
      · have he : e ≤ i := by
          by_contra hlt
          exact hno _ List.mem_cons_self ⟨not_lt.mp hb, not_le.mp hlt⟩
        have hcopied : copiedTo 0 (pre ++ [.copy b e]) ≤ i := by simpa [copiedTo] using he
        obtain ⟨s, hs, hbounds⟩ := ih hcopied hrest
        exact ⟨s, List.mem_cons_of_mem _ hs, hbounds⟩
    | insert n =>
      have hcopied : copiedTo 0 (pre ++ [.insert n]) ≤ i := by simpa [copiedTo] using hpre
      exact ih hcopied hrest

theorem copiedTo_eq (p : ℕ) (pre : List (DeltaElement α)) :
    copiedTo p pre = p ∨ ∃ b, .copy b (copiedTo p pre) ∈ pre := by
  induction pre using List.reverseRecOn with
  | nil => exact .inl rfl
  | append_singleton pre el ih =>
    cases el with
    | copy b e => exact .inr ⟨b, by simp [copiedTo]⟩
    | insert n =>
      have hcopied : copiedTo p (pre ++ [.insert n]) = copiedTo p pre := by simp [copiedTo]
      rw [hcopied]
      exact ih.imp_right fun ⟨b, hb⟩ ↦ ⟨b, List.mem_append_left _ hb⟩

theorem copyStart_eq (q : ℕ) (post : List (DeltaElement α)) :
    copyStart q post = q ∨ ∃ e, .copy (copyStart q post) e ∈ post := by
  induction post with
  | nil => exact .inl rfl
  | cons el post ih =>
    cases el with
    | copy b e => exact .inr ⟨e, List.mem_cons_self⟩
    | insert n => exact ih.imp_right fun ⟨e, he⟩ ↦ ⟨e, List.mem_cons_of_mem _ he⟩

end

namespace Delta

variable {d : Delta α} {pre post : List (DeltaElement α)}

theorem iterDeletions_eq (d : Delta α) :
    d.iterDeletions = some ((stretches d.baseLen [] d.els).filterMap deletedRegion) :=
  collect_deletions d.baseLen d.els [] _ (Nat.lt_succ_self _)

/-- Between the copies on both sides nothing is copied. -/
theorem Sorted.uncovered (h : d.Sorted) (hels : d.els = pre ++ post) {i : ℕ}
    (hlo : copiedTo 0 pre ≤ i) (hhi : i < copyStart d.baseLen post) : ¬ d.Covers i := by
  rw [Sorted, hels, CopiesSorted.append] at h
  rintro ⟨el, hmem, hcov⟩
  rw [hels] at hmem
  cases el with
  | insert n => exact hcov
  | copy b e =>
    rcases List.mem_append.mp hmem with hmem | hmem
    · have := (h.1.of_mem hmem).2.2
      have := hcov.2
      omega
    · have := (h.2.of_mem hmem).1
      have := hcov.1
      omega

/-- The part of the base between the copies on both sides of a place where nothing is inserted. -/
theorem Sorted.isGap (h : d.Sorted)
    (hadjoin : ∀ b, .copy b b ∈ d.els → b = 0 ∨ b = d.baseLen ∨ d.Covers (b - 1) ∨ d.Covers b)
    (hels : d.els = pre ++ post) (hlt : copiedTo 0 pre < copyStart d.baseLen post) :
    d.IsGap (copiedTo 0 pre) (copyStart d.baseLen post - copiedTo 0 pre) := by
  have hsorted := h
  rw [Sorted, hels, CopiesSorted.append] at hsorted
  have hend := hsorted.2.copyStart_le
  have hun := fun i ↦ h.uncovered hels (i := i)
  have hadd : copiedTo 0 pre + (copyStart d.baseLen post - copiedTo 0 pre)
      = copyStart d.baseLen post := Nat.add_sub_cancel' hlt.le
  refine ⟨Nat.sub_pos_of_lt hlt, by omega, fun i hlo hhi ↦ hun i hlo (hadd ▸ hhi), ?_, ?_⟩
  · rcases copiedTo_eq 0 pre with hzero | ⟨b, hmem⟩
    · exact .inl hzero
    · have hmem' : .copy b (copiedTo 0 pre) ∈ d.els := hels ▸ List.mem_append_left _ hmem
      rcases (hsorted.1.of_mem hmem).2.1.lt_or_eq with hb | hb
      · exact .inr ⟨_, hmem', by omega, by omega⟩
      · -- an empty `Copy` adjoins a covered position, which is not the one behind it
        rw [hb] at hmem'
        rcases hadjoin _ hmem' with hzero | hbase | hcov | hcov
        · exact .inl hzero
        · omega
        · exact .inr hcov
        · exact absurd hcov (hun _ le_rfl hlt)
  · rw [hadd]
    rcases copyStart_eq d.baseLen post with hbase | ⟨e, hmem⟩
    · exact .inl hbase
    · have hmem' : .copy (copyStart d.baseLen post) e ∈ d.els :=
        hels ▸ List.mem_append_right _ hmem
      rcases (hsorted.2.of_mem hmem).2.1.lt_or_eq with hb | hb
      · exact .inr ⟨_, hmem', le_rfl, hb⟩
      · rw [← hb] at hmem'
        rcases hadjoin _ hmem' with hzero | hbase | hcov | hcov
        · omega
        · exact .inl hbase
        · exact absurd hcov (hun _ (by omega) (by omega))
        · exact .inr hcov

/-- Two maximal gaps with a position in common are the same. -/
theorem IsGap.unique {o l o' l' i : ℕ} (h : d.IsGap o l) (h' : d.IsGap o' l') (hlo : o ≤ i)
    (hhi : i < o + l) (hlo' : o' ≤ i) (hhi' : i < o' + l') : o = o' ∧ l = l' := by
  have hstart : ∀ {o l o' l' : ℕ}, d.IsGap o l → d.IsGap o' l' → i < o + l → o' ≤ i → o' ≤ o := by
    intro o l o' l' h h' hhi hlo'
    by_contra hlt
    rcases h'.left with hzero | hcov
    · omega
    · exact h.uncovered _ (by omega) (by omega) hcov
  have hstop : ∀ {o l o' l' : ℕ}, d.IsGap o l → d.IsGap o' l' → o ≤ i → i < o' + l' →
      o + l ≤ o' + l' := by
    intro o l o' l' h h' hlo hhi'
    by_contra hlt
    rcases h'.right with hbase | hcov
    · have := h.le
      omega
    · exact h.uncovered _ (by omega) (by omega) hcov
  have h1 := hstart h h' hhi hlo'
  have h2 := hstart h' h hhi' hlo
  have h3 := hstop h h' hlo hhi'
  have h4 := hstop h' h hlo' hhi
  omega

/-- Every position of the base that is not copied lies in a maximal gap. -/
theorem exists_isGap {i : ℕ} (hi : i < d.baseLen) (hno : ¬ d.Covers i) :
    ∃ o l, d.IsGap o l ∧ o ≤ i ∧ i < o + l := by
  classical
  have hleft : ∃ o ≤ i, (∀ j, o ≤ j → j ≤ i → ¬ d.Covers j) ∧ (o = 0 ∨ d.Covers (o - 1)) := by
    clear hi
    induction i with
    | zero => exact ⟨0, le_rfl, fun j _ hj ↦ Nat.le_zero.mp hj ▸ hno, .inl rfl⟩
    | succ i ih =>
      by_cases hcov : d.Covers i
      · exact ⟨i + 1, le_rfl, fun j h1 h2 ↦ le_antisymm h1 h2 ▸ hno, .inr hcov⟩
      · obtain ⟨o, ho, hun, hleft⟩ := ih hcov
        refine ⟨o, ho.trans (Nat.le_succ i), fun j h1 h2 ↦ ?_, hleft⟩
        rcases Nat.le_succ_iff.mp h2 with h2 | rfl
        · exact hun j h1 h2
        · exact hno
  have hright : ∃ k, i < k ∧ k ≤ d.baseLen ∧ (∀ j, i ≤ j → j < k → ¬ d.Covers j) ∧
      (k = d.baseLen ∨ d.Covers k) := by
    obtain ⟨m, hm⟩ := Nat.exists_eq_add_of_lt hi
    clear hleft hi
    induction m generalizing i with
    | zero =>
      exact ⟨i + 1, Nat.lt_succ_self i, hm.ge, fun j h1 h2 ↦ by
        rwa [← le_antisymm h1 (Nat.lt_succ_iff.mp h2)], .inl hm.symm⟩
    | succ m ih =>
      by_cases hcov : d.Covers (i + 1)
      · exact ⟨i + 1, Nat.lt_succ_self i, by omega, fun j h1 h2 ↦ by
          rwa [← le_antisymm h1 (Nat.lt_succ_iff.mp h2)], .inr hcov⟩
      · obtain ⟨k, hlt, hle, hun, hright⟩ := ih hcov (by omega)
        refine ⟨k, by omega, hle, fun j h1 h2 ↦ ?_, hright⟩
        rcases h1.eq_or_lt with rfl | h1
        · exact hno
        · exact hun j h1 h2
  obtain ⟨o, ho, hun, hleft⟩ := hleft
  obtain ⟨k, hlt, hle, hun', hright⟩ := hright
  have hadd : o + (k - o) = k := by omega
  refine ⟨o, k - o, ⟨by omega, by omega, fun j h1 h2 ↦ ?_, hleft, hadd.symm ▸ hright⟩, ho,
    by omega⟩
  rcases Nat.le_total j i with h | h
  · exact hun j h1 h
  · exact hun' j h (by omega)

/-! ### The document around a gap -/

theorem length_flatten (els : List (DeltaElement α)) :
    (flatten els).length = totalElementLen els := by
  induction els with
  | nil => rfl
  | cons el els ih =>
    rw [flatten_cons, List.length_append, ih, totalElementLen, totalElementLen, List.map_cons,
      List.sum_cons]
    cases el with
    | copy b e => simp [DeltaElement.flat, DeltaElement.len]
    | insert n => simp [DeltaElement.flat, DeltaElement.len]

theorem mem_flatten_inl {els : List (DeltaElement α)} {i : ℕ} (h : .inl i ∈ flatten els) :
    ∃ b e, .copy b e ∈ els ∧ b ≤ i ∧ i < e := by
  obtain ⟨el, hel, hi⟩ := List.mem_flatMap.mp h
  cases el with
  | copy b e =>
    obtain ⟨j, hj, heq⟩ := List.mem_map.mp hi
    cases heq
    have := List.mem_range'_1.mp hj
    exact ⟨b, e, hel, by omega, by omega⟩
  | insert n =>
    obtain ⟨a, -, heq⟩ := List.mem_map.mp hi
    cases heq

theorem Sorted.removedAt (h : d.Sorted) (hels : d.els = pre ++ post) {r : DeltaRegion}
    (hold : r.oldOffset = copiedTo 0 pre) (hend : r.oldOffset + r.len = copyStart d.baseLen post)
    (hnew : r.newOffset = totalElementLen pre) : d.RemovedAt r := by
  rw [Sorted, hels, CopiesSorted.append] at h
  have hflat : flatten d.els = flatten pre ++ flatten post := by rw [hels, flatten_append]
  have hlen : r.newOffset = (flatten pre).length := by rw [hnew, length_flatten]
  refine ⟨by rw [hflat, hlen, List.length_append]; exact Nat.le_add_right _ _, fun i hi ↦ ?_,
    fun i hi ↦ ?_⟩
  · rw [hflat, hlen, List.take_left] at hi
    obtain ⟨b, e, hmem, -, hlt⟩ := mem_flatten_inl hi
    have := (h.1.of_mem hmem).2.2
    omega
  · rw [hflat, hlen, List.drop_left] at hi
    obtain ⟨b, e, hmem, hle, -⟩ := mem_flatten_inl hi
    have := (h.2.of_mem hmem).1
    omega

/-! ### Reported and real deletions -/

theorem of_deletedRegion {s : List (DeltaElement α) × ℕ} {r : DeltaRegion}
    (h : deletedRegion s = some r) : r.oldOffset = reportedEnd s.1 ∧ r.oldOffset + r.len = s.2 ∧
      0 < r.len ∧ r.newOffset = totalElementLen s.1 := by
  rw [deletedRegion] at h
  split at h
  · rename_i hlt
    obtain rfl := Option.some.inj h
    exact ⟨rfl, Nat.add_sub_cancel' hlt.le, Nat.sub_pos_of_lt hlt, rfl⟩
  · cases h

theorem copiedTo_le_reportedEnd (pre : List (DeltaElement α)) : copiedTo 0 pre ≤ reportedEnd pre :=
  Nat.le_add_right _ _

/-- Where text is inserted between copies that meet, nothing is pending at the end of a gap. -/
theorem reportedEnd_of_flush
    (hflush : ∀ pre n post, d.els = pre ++ .insert n :: post → n ≠ [] →
      copiedTo 0 pre = copyStart d.baseLen post)
    (hels : d.els = pre ++ post) (hlt : copiedTo 0 pre < copyStart d.baseLen post) :
    reportedEnd pre = copiedTo 0 pre := by
  rw [reportedEnd, Nat.add_eq_left]
  by_contra hne
  obtain ⟨pre', n, mid, rfl, hn, hmid⟩ := pendingLen_ne_zero_iff.mp hne
  have hmeet := hflush pre' n (mid ++ post) (by simp [hels]) hn
  rw [copyStart_of_noCopy hmid] at hmeet
  have hcopied : copiedTo 0 (pre' ++ .insert n :: mid) = copiedTo 0 pre' := by
    rw [copiedTo_append]
    exact copiedTo_of_noCopy hmid _
  omega

theorem InsertsSeparated.realDeletions (hsep : d.InsertsSeparated) (h : d.Sorted) :
    d.RealDeletions ((stretches d.baseLen [] d.els).filterMap deletedRegion) := by
  have hregion : ∀ s ∈ stretches d.baseLen [] d.els, ∀ r, deletedRegion s = some r →
      r.oldOffset = copiedTo 0 s.1 ∧ d.IsGap r.oldOffset r.len ∧ d.RemovedAt r := by
    intro s hs r hr
    obtain ⟨pre, post, hels, hpre, hpost, -⟩ := split_of_mem_stretches hs
    rw [List.nil_append] at hpre
    obtain ⟨hold, hend, hpos, hnew⟩ := of_deletedRegion hr
    rw [hpre] at hold hnew ⊢
    rw [hpost] at hend
    have hle := copiedTo_le_reportedEnd pre
    rw [reportedEnd_of_flush hsep.flush hels (by omega)] at hold
    have hlen : r.len = copyStart d.baseLen post - copiedTo 0 pre := by omega
    refine ⟨hold, ?_, h.removedAt hels hold hend hnew⟩
    rw [hold, hlen]
    exact h.isGap hsep.adjoin hels (by omega)
  have hnil : CopiesSorted (copiedTo 0 ([] : List (DeltaElement α))) d.els d.baseLen := h
  refine ⟨?_, fun o l ↦ ⟨fun hgap ↦ ?_, ?_⟩, fun r hr ↦ ?_⟩
  · refine List.Pairwise.filterMap deletedRegion ?_ (stretches_sorted hnil).1
    intro s s' hle r hr r' hr'
    obtain ⟨-, hend, hpos, -⟩ := of_deletedRegion hr
    obtain ⟨hold', -⟩ := of_deletedRegion hr'
    have := copiedTo_le_reportedEnd s'.1
    omega
  · -- the gap begins in a stretch, and the region of that stretch is a gap
    have hno := hgap.uncovered o le_rfl (Nat.lt_add_of_pos_right hgap.pos)
    have hlt := hgap.le
    have hpos := hgap.pos
    have hstart : copiedTo 0 ([] : List (DeltaElement α)) ≤ o := Nat.zero_le o
    have hend : o < d.baseLen := by omega
    obtain ⟨s, hs, hlo, hhi⟩ := exists_stretch hstart hend fun el hel hcov ↦ hno ⟨el, hel, hcov⟩
    obtain ⟨pre, post, hels, hpre, hpost, -⟩ := split_of_mem_stretches hs
    rw [List.nil_append] at hpre
    have hend : s.2 > reportedEnd s.1 := by
      rw [hpre, reportedEnd_of_flush hsep.flush hels (by rw [← hpost, ← hpre]; omega), ← hpre]
      omega
    obtain ⟨r, hr⟩ : ∃ r, deletedRegion s = some r := ⟨_, if_pos hend⟩
    obtain ⟨hold, hgap', -⟩ := hregion s hs r hr
    obtain ⟨-, hstop, -⟩ := of_deletedRegion hr
    obtain ⟨ho, hl⟩ := hgap'.unique hgap (i := o) (by omega) (by omega) le_rfl
      (Nat.lt_add_of_pos_right hgap.pos)
    exact ⟨r, List.mem_filterMap.mpr ⟨s, hs, hr⟩, ho, hl⟩
  · rintro ⟨r, hr, rfl, rfl⟩
    obtain ⟨s, hs, hr⟩ := List.mem_filterMap.mp hr
    exact (hregion s hs r hr).2.1
  · obtain ⟨s, hs, hr⟩ := List.mem_filterMap.mp hr
    exact (hregion s hs r hr).2.2

/-- A gap that is reported lies between what the elements on both sides copy, and the elements in
front of it have no inserted text pending. -/
theorem RealDeletions.exists_split
    (hreal : d.RealDeletions ((stretches d.baseLen [] d.els).filterMap deletedRegion))
    {i : ℕ} (hi : i < d.baseLen) (hno : ¬ d.Covers i) : ∃ o l pre post, d.IsGap o l ∧ o ≤ i ∧
      i < o + l ∧ d.els = pre ++ post ∧ o = reportedEnd pre ∧ o + l = copyStart d.baseLen post ∧
      ∀ n post', post ≠ .insert n :: post' := by
  obtain ⟨o, l, hgap, hlo, hhi⟩ := exists_isGap hi hno
  obtain ⟨r, hr, rfl, rfl⟩ := (hreal.gaps o l).mp hgap
  obtain ⟨s, hs, hr⟩ := List.mem_filterMap.mp hr
  obtain ⟨pre, post, hels, hpre, hpost, hcopy⟩ := split_of_mem_stretches hs
  obtain ⟨hold, hend, -⟩ := of_deletedRegion hr
  exact ⟨r.oldOffset, r.len, pre, post, hgap, hlo, hhi, hels, by rw [hold, hpre]; rfl,
    by rw [hend, hpost], hcopy⟩

theorem RealDeletions.flush (h : d.Sorted)
    (hreal : d.RealDeletions ((stretches d.baseLen [] d.els).filterMap deletedRegion))
    {n : List α} (hels : d.els = pre ++ .insert n :: post) (hn : n ≠ []) :
    copiedTo 0 pre = copyStart d.baseLen post := by
  have hsorted := h
  rw [Sorted, hels, CopiesSorted.append] at hsorted
  have hmeet : copiedTo 0 pre ≤ copyStart d.baseLen post :=
    (show CopiesSorted _ (.insert n :: post) _ from hsorted.2).le_copyStart
  by_contra hne
  have hlt : copiedTo 0 pre < copyStart d.baseLen post := hmeet.lt_of_ne hne
  have hend := (show CopiesSorted _ (.insert n :: post) _ from hsorted.2).copyStart_le
  obtain ⟨o, l, pre', post', -, hlo, hhi, hels', ho, hl, hcopy⟩ := hreal.exists_split
    (i := copiedTo 0 pre) (lt_of_lt_of_le hlt hend) (h.uncovered hels le_rfl hlt)
  rw [hl] at hhi
  have hsorted' := h
  rw [Sorted, hels', CopiesSorted.append] at hsorted'
  have hle := copiedTo_le_reportedEnd pre'
  -- the stretch of the gap holds the place of the insertion, so no `Copy` separates the two
  rcases List.append_eq_append_iff.mp (hels'.symm.trans hels) with
    ⟨mid, rfl, rfl⟩ | ⟨mid, rfl, hmid⟩
  · cases mid with
    | nil => exact hcopy n post rfl
    | cons el mid =>
      cases el with
      | insert m => exact hcopy m (mid ++ .insert n :: post) rfl
      | copy b e =>
        have hmem := hsorted.1.of_mem (List.mem_append_right _ List.mem_cons_self) (b := b) (e := e)
        have : b < e ∨ b = e := hmem.2.1.lt_or_eq
        change copiedTo 0 (pre' ++ .copy b e :: mid) < b at hhi
        omega
  · cases mid with
    | nil => exact hcopy n post hmid.symm
    | cons el mid =>
      obtain ⟨rfl, rfl⟩ := List.cons.inj hmid
      have hno : ∀ b e, .copy b e ∉ mid := by
        intro b e hmem
        have hb := ((show CopiesSorted _ (.insert n :: (mid ++ post')) _ from hsorted.2).of_mem
          (List.mem_cons_of_mem _ (List.mem_append_left _ hmem))).1
        have he := hsorted'.1.of_mem (List.mem_append_right _ (List.mem_cons_of_mem _ hmem))
        change copyStart d.baseLen (mid ++ post') ≤ b at hb
        change copiedTo 0 pre < copyStart d.baseLen (mid ++ post') at hlt
        omega
      have hpending := pendingLen_ne_zero_iff.mpr ⟨pre, n, mid, rfl, hn, hno⟩
      have hcopied : copiedTo 0 (pre ++ .insert n :: mid) = copiedTo 0 pre := by
        rw [copiedTo_append]
        exact copiedTo_of_noCopy hno _
      rw [reportedEnd] at ho
      omega

theorem RealDeletions.adjoin (h : d.Sorted)
    (hreal : d.RealDeletions ((stretches d.baseLen [] d.els).filterMap deletedRegion)) {b : ℕ}
    (hmem : .copy b b ∈ d.els) : b = 0 ∨ b = d.baseLen ∨ d.Covers (b - 1) ∨ d.Covers b := by
  by_contra hno
  push Not at hno
  obtain ⟨hzero, hbase, hprev, hnext⟩ := hno
  have hle := (CopiesSorted.append.mp (show CopiesSorted 0 (d.els ++ []) d.baseLen by
    rw [List.append_nil]; exact h)).2
  have hend := (CopiesSorted.of_mem h hmem).2.2
  have hlt : b < d.baseLen := lt_of_le_of_ne (hend.trans hle) hbase
  obtain ⟨o, l, pre, post, hgap, hlo, hhi, hels, ho, hl, -⟩ := hreal.exists_split hlt hnext
  -- the gap begins before `b`, as the position before `b` is not copied
  have hbefore : o < b := by
    rcases hlo.lt_or_eq with hlo | rfl
    · exact hlo
    · exact absurd hgap.left (by simp [hzero, hprev])
  rw [Sorted, hels, CopiesSorted.append] at h
  have hcopied := copiedTo_le_reportedEnd pre
  rw [hels] at hmem
  rcases List.mem_append.mp hmem with hmem | hmem
  · have := (h.1.of_mem hmem).2.2
    omega
  · have := (h.2.of_mem hmem).1
    omega

/-- **The regions of a delta.** They are the real ones exactly when no inserted text lies between
the places that are reported. -/
theorem regionsReal_iff (h : d.Sorted) : d.RegionsReal ↔ d.InsertsSeparated := by
  constructor
  · rintro ⟨hins, rs, hdel, hreal⟩
    rw [iterDeletions_eq, Option.some.injEq] at hdel
    subst hdel
    exact ⟨realInserts_iff.mp hins, fun pre n post hels hn ↦ hreal.flush h hels hn,
      fun b hmem ↦ hreal.adjoin h hmem⟩
  · intro hsep
    exact ⟨realInserts_iff.mpr hsep.apart, _, iterDeletions_eq d, hsep.realDeletions h⟩

/-- An insertion, a deletion and a replacement at different places. The deletion of the replacement
is reported one position late and one element short. -/
def replacing : Delta ℕ :=
  ⟨[.copy 0 2, .insert [20], .copy 2 3, .copy 5 6, .insert [21], .copy 8 10], 10⟩

theorem regionsReal_iff_replacing : replacing.RegionsReal ↔ replacing.InsertsSeparated :=
  regionsReal_iff (by decide)

/-- The iterators of a sorted delta do not report the regions that it changes. -/
theorem not_regionsReal : ¬ ∀ d : Delta ℕ, d.Sorted → d.RegionsReal := by
  intro hall
  obtain ⟨-, rs, hdel, hreal⟩ := hall replacing (by decide)
  obtain rfl : [⟨3, 4, 2⟩, ⟨7, 6, 1⟩] = rs := Option.some.inj hdel
  have hgap : replacing.IsGap 7 1 := (hreal.gaps 7 1).mpr ⟨⟨7, 6, 1⟩, by simp, rfl, rfl⟩
  -- the position before the reported gap is not copied either
  rcases hgap.left with h | ⟨el, hel, hcov⟩
  · cases h
  · simp only [replacing, List.mem_cons, List.not_mem_nil, or_false] at hel
    rcases hel with rfl | rfl | rfl | rfl | rfl | rfl <;> simp [DeltaElement.Covers] at hcov

end Delta

end EeEditor
