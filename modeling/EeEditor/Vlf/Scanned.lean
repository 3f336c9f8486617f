import EeEditor.Vlf.Store
import EeEditor.Vlf.Terminators

/-!
# The page index of a partly scanned file

In a file without carriage returns the index holds scanned pages in order, with a table that adds
up their newlines (`IndexInv`). The table also counts pages after a gap, so its count for a page is
right exactly when no newline lies in an unscanned page before it (`IndexInv.newlines_take_eq_iff`).
-/

namespace EeEditor.Vlf

variable {file : List UInt8} {p : ℕ}

/-! ## Counting newlines -/

theorem nthNewline_succ (r i : ℕ) (bytes : List UInt8) :
    nthNewline (r + 1) i bytes = match select isNewline bytes (r + 1) with
      | some s => .ok (i + s)
      | none => .error (r + 1 - bytes.countP isNewline) := by
  induction bytes generalizing r i with
  | nil => rfl
  | cons b bytes ih =>
    rw [nthNewline, select_cons_succ, List.countP_cons]
    by_cases hb : b = 10
    · have hnl : isNewline b = true := by rw [isNewline, hb]; rfl
      rw [if_pos hb, Nat.add_sub_cancel]
      simp only [hnl, if_true]
      cases r with
      | zero => simp
      | succ r =>
        rw [if_neg (Nat.succ_ne_zero r), ih]
        cases select isNewline bytes (r + 1) with
        | none => simp
        | some s => simp [Nat.add_assoc, Nat.add_comm 1 s]
    · have hnl : isNewline b = false := by simpa [isNewline] using hb
      rw [if_neg hb]
      simp only [hnl, Bool.false_eq_true, if_false, Nat.add_zero]
      rw [ih]
      cases select isNewline bytes (r + 1) with
      | none => rfl
      | some s => simp [Nat.add_assoc, Nat.add_comm 1 s]

/-! ## Pages -/

/-- The descriptor of the page at `start`, in a file without carriage returns. -/
def pageOf (file : List UInt8) (p start : ℕ) : PageDescriptor :=
  let end_ := min (start + p) file.length
  ⟨start, end_, rank isNewline file end_ - rank isNewline file start, false, false, .scanned⟩

/-- The newlines of some pages. -/
def newlines (ds : List PageDescriptor) : ℕ := (ds.map (·.newlineCount)).sum

/-- Every newline before `pos` lies in one of the pages. -/
def Covered (file : List UInt8) (ds : List PageDescriptor) (pos : ℕ) : Prop :=
  ∀ i < pos, file[i]? = some 10 → ∃ d ∈ ds, d.start ≤ i ∧ i < d.end_

/-- The index holds scanned pages in order, with the table that goes with them. -/
structure IndexInv (file : List UInt8) (p : ℕ) (index : PageIndex) : Prop where
  sorted : index.descriptors.Pairwise (·.start < ·.start)
  pages : ∀ d ∈ index.descriptors, ∃ k, d = pageOf file p (k * p) ∧ k * p < file.length
  linesPrefix_eq : index.linesPrefix = PageIndex.prefixFrom 0 index.descriptors
  total_eq : index.scannedNewlinesTotal = newlines index.descriptors

theorem newlineCount_add_rank {d : PageDescriptor} {k : ℕ} (hd : d = pageOf file p (k * p))
    (hlt : k * p < file.length) : d.start ≤ d.end_ ∧ d.end_ ≤ file.length ∧
      d.newlineCount + rank isNewline file d.start = rank isNewline file d.end_ := by
  subst hd
  have hle : k * p ≤ min (k * p + p) file.length := le_min (Nat.le_add_right _ _) hlt.le
  have hmono : rank isNewline file (k * p) ≤ rank isNewline file (min (k * p + p) file.length) :=
    rank_mono hle
  refine ⟨hle, min_le_right _ _, ?_⟩
  simp only [pageOf]
  omega

/-- Pages do not overlap. -/
theorem end_le_start {d d' : PageDescriptor} {k k' : ℕ} (hd : d = pageOf file p (k * p))
    (hd' : d' = pageOf file p (k' * p)) (hlt : d.start < d'.start) : d.end_ ≤ d'.start := by
  subst hd hd'
  simp only [pageOf] at hlt ⊢
  have hk : k + 1 ≤ k' := by
    by_contra hge
    exact absurd hlt (not_lt.mpr (Nat.mul_le_mul_right p (by omega)))
  calc min (k * p + p) file.length ≤ k * p + p := min_le_left _ _
    _ = (k + 1) * p := (Nat.succ_mul k p).symm
    _ ≤ k' * p := Nat.mul_le_mul_right p hk

/-- The newlines of pages in order are at most those of the stretch that they lie in, and as many
exactly when the pages cover all of those. -/
theorem newlines_eq_iff (file : List UInt8) {ds : List PageDescriptor} {a b : ℕ} (hab : a ≤ b)
    (hchain : ds.Pairwise (·.end_ ≤ ·.start))
    (hds : ∀ d ∈ ds, a ≤ d.start ∧ d.start ≤ d.end_ ∧ d.end_ ≤ b ∧
      d.newlineCount + rank isNewline file d.start = rank isNewline file d.end_) :
    rank isNewline file a + newlines ds ≤ rank isNewline file b ∧
      (rank isNewline file a + newlines ds = rank isNewline file b ↔
        ∀ i, a ≤ i → i < b → file[i]? = some 10 → ∃ d ∈ ds, d.start ≤ i ∧ i < d.end_) := by
  induction ds generalizing a with
  | nil =>
    refine ⟨rank_mono hab, ?_⟩
    rw [newlines, List.map_nil, List.sum_nil, Nat.add_zero, rank_eq_rank_iff hab]
    constructor
    · intro h i hai hib hi
      exact absurd (h i 10 hai hib hi) (by decide)
    · intro h i c hai hib hi
      by_contra hc
      rw [Bool.not_eq_false, isNewline, beq_iff_eq] at hc
      obtain ⟨d, hd, -⟩ := h i hai hib (hc ▸ hi)
      simp at hd
  | cons d ds ih =>
    obtain ⟨hd, hchain⟩ := List.pairwise_cons.mp hchain
    obtain ⟨had, hse, heb, hcount⟩ := hds d (by simp)
    have hstart : ∀ d' ∈ ds, d.end_ ≤ d'.start := hd
    obtain ⟨hle, hiff⟩ := ih heb hchain fun d' hd' ↦
      ⟨hstart d' hd', (hds d' (by simp [hd'])).2⟩
    have hmono : rank isNewline file a ≤ rank isNewline file d.start := rank_mono had
    have hsum : newlines (d :: ds) = d.newlineCount + newlines ds := rfl
    refine ⟨by omega, ?_⟩
    constructor
    · intro heq i hai hib hi
      have hgap : rank isNewline file a = rank isNewline file d.start := by omega
      rcases Nat.lt_or_ge i d.start with hlt | hge
      · exact absurd ((rank_eq_rank_iff had).mp hgap i 10 hai hlt hi) (by decide)
      · rcases Nat.lt_or_ge i d.end_ with hlt | hge'
        · exact ⟨d, by simp, hge, hlt⟩
        · obtain ⟨d', hd', hi'⟩ := hiff.mp (by omega) i hge' hib hi
          exact ⟨d', by simp [hd'], hi'⟩
    · intro h
      have hgap : rank isNewline file a = rank isNewline file d.start := by
        rw [rank_eq_rank_iff had]
        intro i c hai hlt hi
        by_contra hc
        rw [Bool.not_eq_false, isNewline, beq_iff_eq] at hc
        obtain ⟨d', hd', hlo, -⟩ := h i hai (by omega) (hc ▸ hi)
        rcases List.mem_cons.mp hd' with rfl | hd'
        · omega
        · have := hstart d' hd'
          omega
      have hrest := hiff.mpr fun i hei hib hi ↦ by
        obtain ⟨d', hd', hlo, hhi⟩ := h i (by omega) hib hi
        rcases List.mem_cons.mp hd' with rfl | hd'
        · omega
        · exact ⟨d', hd', hlo, hhi⟩
      omega

/-! ## The table -/

namespace PageIndex

theorem getElem?_prefixFrom {ds : List PageDescriptor} (hds : ∀ d ∈ ds, d.scanState = .scanned)
    (cum i : ℕ) : (prefixFrom cum ds)[i]?
      = ds[i]?.map fun d ↦ (d.start, cum + newlines (ds.take i)) := by
  induction ds generalizing cum i with
  | nil => rfl
  | cons d ds ih =>
    rw [prefixFrom, if_pos (hds d (by simp))]
    cases i with
    | zero => rfl
    | succ i =>
      rw [List.getElem?_cons_succ, List.getElem?_cons_succ, ih fun d' hd' ↦ hds d' (by simp [hd']),
        List.take_succ_cons]
      have hsum : newlines (d :: ds.take i) = d.newlineCount + newlines (ds.take i) := rfl
      rw [hsum, Nat.add_assoc]

theorem length_prefixFrom {ds : List PageDescriptor} (hds : ∀ d ∈ ds, d.scanState = .scanned)
    (cum : ℕ) : (prefixFrom cum ds).length = ds.length := by
  induction ds generalizing cum with
  | nil => rfl
  | cons d ds ih =>
    rw [prefixFrom, if_pos (hds d (by simp)), List.length_cons, List.length_cons,
      ih fun d' hd' ↦ hds d' (by simp [hd'])]

/-- The binary search ends where the predicate fails after it held. -/
theorem lowerBound_spec (below : ℕ → Bool) {n : ℕ} (fuel lo hi : ℕ) (hfuel : hi - lo ≤ fuel)
    (hle : lo ≤ hi) (hhi : hi ≤ n) (hlo : lo = 0 ∨ below (lo - 1) = true)
    (hend : hi = n ∨ below hi = false) :
    (lowerBound below fuel lo hi = 0 ∨ below (lowerBound below fuel lo hi - 1) = true) ∧
      (lowerBound below fuel lo hi = n ∨ below (lowerBound below fuel lo hi) = false) := by
  induction fuel generalizing lo hi with
  | zero =>
    obtain rfl : lo = hi := by omega
    exact ⟨hlo, hend⟩
  | succ fuel ih =>
    rw [lowerBound]
    by_cases hlt : lo < hi
    · rw [if_pos hlt]
      dsimp only
      by_cases hmid : below ((lo + hi) / 2) = true
      · rw [if_pos hmid]
        exact ih _ _ (by omega) (by omega) hhi (.inr (by rwa [Nat.add_sub_cancel])) hend
      · rw [if_neg hmid]
        exact ih _ _ (by omega) (by omega) (by omega) hlo (.inr (by simpa using hmid))
    · rw [if_neg hlt]
      obtain rfl : lo = hi := by omega
      exact ⟨hlo, hend⟩

end PageIndex

namespace IndexInv

variable {index : PageIndex} {d : PageDescriptor}

theorem scanned (h : IndexInv file p index) : ∀ d ∈ index.descriptors, d.scanState = .scanned := by
  intro d hd
  obtain ⟨k, rfl, -⟩ := h.pages d hd
  rfl

theorem bounds (h : IndexInv file p index) (hd : d ∈ index.descriptors) :
    d.start ≤ d.end_ ∧ d.end_ ≤ file.length ∧
      d.newlineCount + rank isNewline file d.start = rank isNewline file d.end_ := by
  obtain ⟨k, hk, hlt⟩ := h.pages d hd
  exact newlineCount_add_rank hk hlt

theorem chain (h : IndexInv file p index) : index.descriptors.Pairwise (·.end_ ≤ ·.start) := by
  refine h.sorted.imp_of_mem fun ha hb hlt ↦ ?_
  obtain ⟨k, hk, -⟩ := h.pages _ ha
  obtain ⟨k', hk', -⟩ := h.pages _ hb
  exact end_le_start hk hk' hlt

theorem eq_of_start_eq (h : IndexInv file p index) {d' : PageDescriptor}
    (hd : d ∈ index.descriptors) (hd' : d' ∈ index.descriptors) (heq : d.start = d'.start) :
    d = d' := by
  obtain ⟨k, rfl, -⟩ := h.pages d hd
  obtain ⟨k', rfl, -⟩ := h.pages d' hd'
  have hk : k * p = k' * p := heq
  rw [hk]

theorem find?_start (h : IndexInv file p index) (hd : d ∈ index.descriptors) :
    index.descriptors.find? (·.start = d.start) = some d := by
  cases hfind : index.descriptors.find? (·.start = d.start) with
  | none =>
    rw [List.find?_eq_none] at hfind
    exact absurd (hfind d hd) (by simp)
  | some d' =>
    have hstart : d'.start = d.start := by simpa using List.find?_some hfind
    exact congrArg some (h.eq_of_start_eq (List.mem_of_find?_eq_some hfind) hd hstart)

/-- The pages before a page in order, and the table's count for it. -/
theorem cumLinesBefore_eq (h : IndexInv file p index) {i : ℕ}
    (hd : index.descriptors[i]? = some d) :
    index.cumLinesBefore d.start = some (newlines (index.descriptors.take i)) := by
  obtain ⟨hi, hget⟩ := List.getElem?_eq_some_iff.mp hd
  have hentry : ∀ j d', index.descriptors[j]? = some d' →
      index.linesPrefix[j]? = some (d'.start, newlines (index.descriptors.take j)) := by
    intro j d' hd'
    rw [h.linesPrefix_eq, PageIndex.getElem?_prefixFrom h.scanned, hd', Option.map_some,
      Nat.zero_add]
  have hfind : index.linesPrefix.find? (d.start ≤ ·.1)
      = some (d.start, newlines (index.descriptors.take i)) := by
    obtain ⟨hlt, hgeti⟩ := List.getElem?_eq_some_iff.mp (hentry i d hd)
    rw [List.find?_eq_some_iff_getElem]
    refine ⟨by simp, i, hlt, hgeti, fun j hj ↦ ?_⟩
    have hj' : j < index.descriptors.length := by omega
    have hgetj := (List.getElem?_eq_some_iff.mp
      (hentry j _ (List.getElem?_eq_getElem hj'))).2
    have hsorted := List.pairwise_iff_getElem.mp h.sorted j i hj' hi hj
    rw [hget] at hsorted
    rw [hgetj]
    simp
    omega
  rw [PageIndex.cumLinesBefore, hfind]
  simp

/-- The count of the table is right exactly when the newlines before the page are scanned. -/
theorem newlines_take_eq_iff (h : IndexInv file p index) {i : ℕ}
    (hd : index.descriptors[i]? = some d) :
    newlines (index.descriptors.take i) ≤ rank isNewline file d.start ∧
      (newlines (index.descriptors.take i) = rank isNewline file d.start ↔
        Covered file index.descriptors d.start) := by
  obtain ⟨hi, hget⟩ := List.getElem?_eq_some_iff.mp hd
  have hsplit : index.descriptors
      = index.descriptors.take i ++ d :: index.descriptors.drop (i + 1) := by
    rw [← hget, ← List.drop_eq_getElem_cons hi, List.take_append_drop]
  have hchain := h.chain
  rw [hsplit, List.pairwise_append] at hchain
  obtain ⟨htake, hrest, hcross⟩ := hchain
  obtain ⟨hle, hiff⟩ := newlines_eq_iff file (Nat.zero_le d.start) htake fun d' hd' ↦ by
    obtain ⟨hse, -, hcount⟩ := h.bounds (List.mem_of_mem_take hd')
    exact ⟨Nat.zero_le _, hse, hcross d' hd' d (by simp), hcount⟩
  rw [rank_zero, Nat.zero_add] at hle hiff
  refine ⟨hle, hiff.trans ⟨fun hcov j hj hnl ↦ ?_, fun hcov j _ hj hnl ↦ ?_⟩⟩
  · obtain ⟨d', hd', hin⟩ := hcov j (Nat.zero_le j) hj hnl
    exact ⟨d', List.mem_of_mem_take hd', hin⟩
  · obtain ⟨d', hd', hlo, hhi⟩ := hcov j hj hnl
    rw [hsplit, List.mem_append] at hd'
    -- a page from the given one on starts after `j`
    rcases hd' with hd' | hd'
    · exact ⟨d', hd', hlo, hhi⟩
    · exfalso
      rcases List.mem_cons.mp hd' with rfl | hd'
      · omega
      · have := (List.pairwise_cons.mp hrest).1 d' hd'
        have := (h.bounds (List.mem_of_getElem? hd)).1
        omega

theorem pageAtByte_eq_some {offset : ℕ}
    (hpage : index.pageAtByte offset = some d) :
    d ∈ index.descriptors ∧ d.start ≤ offset ∧ offset < d.end_ := by
  rw [PageIndex.pageAtByte, Option.filter_eq_some_iff] at hpage
  obtain ⟨hlast, hend⟩ := hpage
  have hmem := List.mem_of_getLast? hlast
  rw [List.mem_filter, decide_eq_true_iff] at hmem
  exact ⟨hmem.1, hmem.2, by simpa using hend⟩

theorem pageEnd_eq (h : IndexInv file p index) (i : ℕ) :
    index.pageEnd i = newlines (index.descriptors.take (i + 1)) := by
  rw [PageIndex.pageEnd, h.linesPrefix_eq, PageIndex.getElem?_prefixFrom h.scanned, Nat.zero_add]
  cases hnext : index.descriptors[i + 1]? with
  | none =>
    have hlen := List.getElem?_eq_none_iff.mp hnext
    rw [Option.map_none, h.total_eq, List.take_of_length_le hlen]
  | some d' => rfl

theorem newlines_take_succ {i : ℕ} (hd : index.descriptors[i]? = some d) :
    newlines (index.descriptors.take (i + 1))
      = newlines (index.descriptors.take i) + d.newlineCount := by
  rw [newlines, List.take_add_one, hd, List.map_append, List.sum_append, newlines]
  simp

/-- The page that a line lies in. -/
theorem findPageForLine_eq (h : IndexInv file p index) (line : ℕ) :
    (∃ lookup, index.findPageForLine line = some (.error lookup) ∧
      ∀ b, lookup ≠ .exact b) ∨
    ∃ i d, index.descriptors[i]? = some d ∧
      index.findPageForLine line = some (.ok (d, newlines (index.descriptors.take i))) ∧
      (i = 0 ∨ newlines (index.descriptors.take i) < line) ∧
      line ≤ newlines (index.descriptors.take i) + d.newlineCount := by
  have hlen : index.linesPrefix.length = index.descriptors.length := by
    rw [h.linesPrefix_eq, PageIndex.length_prefixFrom h.scanned]
  have hbeyond : ∀ b, (if index.isComplete then LineLookup.outOfRange else .pending) ≠
    .exact b := by
    intro b
    split_ifs <;> simp
  rw [PageIndex.findPageForLine]
  by_cases hn : index.linesPrefix.length = 0
  · rw [if_pos hn]
    exact .inl ⟨_, rfl, hbeyond⟩
  · rw [if_neg hn]
    obtain ⟨hbefore, hat⟩ := PageIndex.lowerBound_spec (fun i ↦ decide (index.pageEnd i < line))
      (n := index.linesPrefix.length) index.linesPrefix.length 0 index.linesPrefix.length
      (Nat.sub_le _ _) (Nat.zero_le _) le_rfl (.inl rfl) (.inl rfl)
    generalize PageIndex.lowerBound (fun i ↦ decide (index.pageEnd i < line))
      index.linesPrefix.length 0 index.linesPrefix.length = lo at hbefore hat ⊢
    have hentry : index.linesPrefix[lo]? = index.descriptors[lo]?.map
        fun d ↦ (d.start, newlines (index.descriptors.take lo)) := by
      rw [h.linesPrefix_eq, PageIndex.getElem?_prefixFrom h.scanned]
      simp only [Nat.zero_add]
    dsimp only
    rw [hentry]
    cases hd : index.descriptors[lo]? with
    | none =>
      left
      dsimp only [Option.map_none]
      split_ifs
      · exact ⟨_, rfl, by simp⟩
      · exact ⟨_, rfl, by simp⟩
      · exact ⟨_, rfl, by simp⟩
    | some d =>
      right
      obtain ⟨hlt, -⟩ := List.getElem?_eq_some_iff.mp hd
      refine ⟨lo, d, hd, ?_, ?_, ?_⟩
      · dsimp only [Option.map_some]
        rw [h.find?_start (List.mem_of_getElem? hd)]
        rfl
      · rcases hbefore with h0 | hbelow
        · exact .inl h0
        · cases lo with
          | zero => exact .inl rfl
          | succ lo =>
            right
            rw [Nat.add_sub_cancel, h.pageEnd_eq lo, decide_eq_true_iff] at hbelow
            exact hbelow
      · have hat := hat.resolve_left (by omega)
        rw [h.pageEnd_eq lo, newlines_take_succ hd, decide_eq_false_iff_not] at hat
        omega

end IndexInv

/-! ## Scanning -/

section

variable {index : PageIndex} {desc : PageDescriptor} {ds : List PageDescriptor}

theorem mem_insertDescriptor {d : PageDescriptor} (h : d ∈ PageIndex.insertDescriptor desc ds) :
    d = desc ∨ d ∈ ds := by
  induction ds with
  | nil => exact .inl (by simpa [PageIndex.insertDescriptor] using h)
  | cons e ds ih =>
    rw [PageIndex.insertDescriptor] at h
    split_ifs at h
    · simpa using h
    · rcases List.mem_cons.mp h with h | h
      · exact .inl h
      · exact .inr (by simp [h])
    · rcases List.mem_cons.mp h with h | h
      · exact .inr (by simp [h])
      · exact (ih h).imp_right fun h ↦ by simp [h]

theorem sorted_insertDescriptor (h : ds.Pairwise (·.start < ·.start)) :
    (PageIndex.insertDescriptor desc ds).Pairwise (·.start < ·.start) := by
  induction ds with
  | nil => simp [PageIndex.insertDescriptor]
  | cons e ds ih =>
    obtain ⟨he, hds⟩ := List.pairwise_cons.mp h
    rw [PageIndex.insertDescriptor]
    split_ifs with hlt heq
    · refine List.pairwise_cons.mpr ⟨fun d hd ↦ ?_, h⟩
      rcases List.mem_cons.mp hd with rfl | hd
      · exact hlt
      · exact hlt.trans (he d hd)
    · exact List.pairwise_cons.mpr ⟨fun d hd ↦ heq ▸ he d hd, hds⟩
    · refine List.pairwise_cons.mpr ⟨fun d hd ↦ ?_, ih hds⟩
      rcases mem_insertDescriptor hd with rfl | hd
      · omega
      · exact he d hd

theorem PageIndex.insert_descriptors (index : PageIndex) (desc : PageDescriptor) :
    (index.insert desc).descriptors = insertDescriptor desc index.descriptors := by
  rw [insert]
  dsimp only
  split_ifs <;> rfl

/-- An inserted descriptor takes the place of one with the same key. -/
theorem mem_insertDescriptor_iff (h : ds.Pairwise (·.start < ·.start)) {d : PageDescriptor} :
    d ∈ PageIndex.insertDescriptor desc ds ↔ d = desc ∨ d ∈ ds ∧ d.start ≠ desc.start := by
  induction ds with
  | nil => simp [PageIndex.insertDescriptor]
  | cons e ds ih =>
    obtain ⟨he, hds⟩ := List.pairwise_cons.mp h
    rw [PageIndex.insertDescriptor]
    split_ifs with hlt heq
    · have hne : ∀ d' ∈ e :: ds, d'.start ≠ desc.start := by
        intro d' hd'
        rcases List.mem_cons.mp hd' with rfl | hd'
        · exact hlt.ne'
        · exact (hlt.trans (he d' hd')).ne'
      rw [List.mem_cons]
      exact or_congr_right (and_iff_left_of_imp (hne d)).symm
    · have hne : ∀ d' ∈ ds, d'.start ≠ desc.start := fun d' hd' ↦ heq ▸ (he d' hd').ne'
      rw [List.mem_cons, List.mem_cons]
      constructor
      · exact Or.imp_right fun hd ↦ ⟨.inr hd, hne d hd⟩
      · rintro (hd | ⟨rfl | hd, hstart⟩)
        · exact .inl hd
        · exact absurd heq.symm hstart
        · exact .inr hd
    · rw [List.mem_cons, List.mem_cons, ih hds]
      constructor
      · rintro (rfl | hd | ⟨hd, hstart⟩)
        · exact .inr ⟨.inl rfl, Ne.symm heq⟩
        · exact .inl hd
        · exact .inr ⟨.inr hd, hstart⟩
      · rintro (hd | ⟨hd | hd, hstart⟩)
        · exact .inr (.inl hd)
        · exact .inl hd
        · exact .inr (.inr ⟨hd, hstart⟩)

/-- Scanning a page again changes nothing. -/
theorem insertDescriptor_of_mem (h : ds.Pairwise (·.start < ·.start)) (hmem : desc ∈ ds) :
    PageIndex.insertDescriptor desc ds = ds := by
  induction ds with
  | nil => simp at hmem
  | cons e ds ih =>
    obtain ⟨he, hds⟩ := List.pairwise_cons.mp h
    rw [PageIndex.insertDescriptor]
    rcases List.mem_cons.mp hmem with rfl | hmem
    · simp
    · have hlt := he desc hmem
      rw [if_neg (by omega), if_neg (by omega), ih hds hmem]

theorem newlines_insertDescriptor (h : ∀ d ∈ ds, d.start ≠ desc.start) :
    newlines (PageIndex.insertDescriptor desc ds) = newlines ds + desc.newlineCount := by
  induction ds with
  | nil => simp [PageIndex.insertDescriptor, newlines]
  | cons e ds ih =>
    have ih := ih fun d hd ↦ h d (by simp [hd])
    rw [PageIndex.insertDescriptor]
    split_ifs with hlt heq
    · simp [newlines, Nat.add_comm]
    · exact absurd heq.symm (h e (by simp))
    · have hcons : ∀ l, newlines (e :: l) = e.newlineCount + newlines l := fun _ ↦ rfl
      rw [hcons, hcons, ih]
      omega

theorem IndexInv.insert (h : IndexInv file p index) {k : ℕ} (hlt : k * p < file.length) :
    IndexInv file p (index.insert (pageOf file p (k * p))) := by
  have hpages : ∀ d ∈ PageIndex.insertDescriptor (pageOf file p (k * p)) index.descriptors,
      ∃ k, d = pageOf file p (k * p) ∧ k * p < file.length := by
    intro d hd
    rcases mem_insertDescriptor hd with rfl | hd
    · exact ⟨k, rfl, hlt⟩
    · exact h.pages d hd
  have hscanned : (pageOf file p (k * p)).scanState = .scanned := rfl
  have htotal : index.scannedNewlinesTotal
      + (if (index.descriptors.find? (·.start = (pageOf file p (k * p)).start)).any
          (·.scanState = .scanned) then (pageOf file p (k * p)).newlineCount
            - ((index.descriptors.find? (·.start = (pageOf file p (k * p)).start)).map
                (·.newlineCount)).getD 0
        else (pageOf file p (k * p)).newlineCount)
      = newlines (PageIndex.insertDescriptor (pageOf file p (k * p)) index.descriptors) := by
    cases hfind : index.descriptors.find? (·.start = (pageOf file p (k * p)).start) with
    | none =>
      rw [List.find?_eq_none] at hfind
      rw [newlines_insertDescriptor fun d hd ↦ by simpa using hfind d hd, h.total_eq]
      simp
    | some d =>
      have hmem := List.mem_of_find?_eq_some hfind
      have hstart : d.start = (pageOf file p (k * p)).start := by
        simpa only [decide_eq_true_iff] using List.find?_some hfind
      obtain ⟨k', hd, -⟩ := h.pages d hmem
      have hkk : k' * p = k * p := (congrArg PageDescriptor.start hd).symm.trans hstart
      rw [hkk] at hd
      rw [← hd, insertDescriptor_of_mem h.sorted hmem, h.total_eq]
      simp [h.scanned d hmem]
  refine ⟨sorted_insertDescriptor h.sorted, hpages, ?_, ?_⟩
  · simp [PageIndex.insert, hscanned]
  · simp only [PageIndex.insert, hscanned, if_true]
    exact htotal

/-- Scanning a page without lone carriage returns. -/
theorem IndexInv.scanPageAt_of_noLoneCr {s : Store} (h : IndexInv s.file s.pageSize s.index)
    (reads : Reader) {k : ℕ} (hcr : NoLoneCr ((s.file.drop (k * s.pageSize)).take s.pageSize)) :
    IndexInv s.file s.pageSize (s.scanPageAt reads (k * s.pageSize)).index ∧
      (s.scanPageAt reads (k * s.pageSize) = s ∨
        k * s.pageSize < s.file.length ∧ s.scanPageAt reads (k * s.pageSize)
          = { s with index := s.index.insert (pageOf s.file s.pageSize (k * s.pageSize)) }) := by
  rw [Store.scanPageAt]
  dsimp only
  split_ifs with hge
  · exact ⟨h, .inl rfl⟩
  · cases hread : s.readAt reads (k * s.pageSize)
        (min (k * s.pageSize + s.pageSize) s.file.length) with
    | none => exact ⟨h, .inl rfl⟩
    | some bytes =>
      have hbytes : bytes = (s.file.drop (k * s.pageSize)).take
          (min (k * s.pageSize + s.pageSize) s.file.length - k * s.pageSize) := by
        rw [Store.readAt] at hread
        split_ifs at hread
        exact (Option.some.inj hread).symm
      have hpage : bytes = (s.file.drop (k * s.pageSize)).take s.pageSize := by
        rw [hbytes]
        rcases Nat.lt_or_ge (k * s.pageSize + s.pageSize) s.file.length with hlt | hle
        · rw [min_eq_left hlt.le, Nat.add_sub_cancel_left]
        · rw [min_eq_right hle, List.take_of_length_le (by simp),
            List.take_of_length_le (by rw [List.length_drop]; omega)]
      have hcr' : NoLoneCr bytes := hpage ▸ hcr
      have hlast : (bytes.getLast? == some 13) = false := by
        rw [beq_eq_false_iff_ne]
        exact hcr'.getLast?_ne
      have hprev : (s.index.pageAtByte (k * s.pageSize - 1)).any (·.endsWithCrBeforeLf)
          = false := by
        cases hpage : s.index.pageAtByte (k * s.pageSize - 1) with
        | none => rfl
        | some d =>
          obtain ⟨k', rfl, -⟩ := h.pages d (IndexInv.pageAtByte_eq_some hpage).1
          rfl
      have hcount : analyseBytes bytes false false
          = rank isNewline s.file (min (k * s.pageSize + s.pageSize) s.file.length)
            - rank isNewline s.file (k * s.pageSize) := by
        rw [hcr'.analyseBytes_eq, hbytes, countP_take_drop]
        exact le_min (Nat.le_add_right _ _) (not_le.mp hge).le
      simp only [hlast, Bool.false_and, Bool.false_eq_true, if_false, hprev, ite_self, hcount]
      exact ⟨h.insert (not_le.mp hge), .inr ⟨not_le.mp hge, rfl⟩⟩

/-- Scanning the pages of a file without carriage returns. -/
theorem IndexInv.scanPageAt {s : Store} (hcr : (13 : UInt8) ∉ s.file)
    (h : IndexInv s.file s.pageSize s.index) (reads : Reader) (k : ℕ) :
    IndexInv s.file s.pageSize (s.scanPageAt reads (k * s.pageSize)).index ∧
      ∃ index, s.scanPageAt reads (k * s.pageSize) = { s with index := index } := by
  have hpage : NoLoneCr ((s.file.drop (k * s.pageSize)).take s.pageSize) :=
    .of_not_mem fun hmem ↦ hcr (List.mem_of_mem_drop (List.mem_of_mem_take hmem))
  obtain ⟨hinv, heq | ⟨-, heq⟩⟩ := h.scanPageAt_of_noLoneCr reads hpage
  · exact ⟨hinv, s.index, heq⟩
  · exact ⟨hinv, _, heq⟩

end

end EeEditor.Vlf
