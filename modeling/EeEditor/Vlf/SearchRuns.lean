import EeEditor.Vlf.Search

/-!
# Runs of a search

A page is searched once, whatever the batches are, and what its window finds in the page is stored.
The stored matches have distinct starts and there are at most `maxStoredMatches` of them.
-/

namespace EeEditor.Vlf

/-! ## Stored matches -/

section

variable {ms : List VlfStoredMatch} {starts : List ℕ} {n : ℕ}

/-- Matches at distinct starts, and not too many of them. -/
structure Stored (ms : List VlfStoredMatch) : Prop where
  nodup : (ms.map (·.byteStart)).Nodup
  length_le : ms.length ≤ maxStoredMatches

theorem Stored.concat {m : VlfStoredMatch} (h : Stored ms)
    (hnew : m.byteStart ∉ ms.map (·.byteStart)) (hroom : ms.length < maxStoredMatches) :
    Stored (ms ++ [m]) where
  nodup := by
    rw [List.map_append, List.map_singleton, List.nodup_append_comm]
    exact List.nodup_cons.mpr ⟨hnew, h.nodup⟩
  length_le := by
    rw [List.length_append]
    exact hroom

theorem dedupAfter_eq (h : (n :: ms.map (·.byteStart)).Nodup) : dedupAfter n ms = ms := by
  induction ms generalizing n with
  | nil => rfl
  | cons m ms ih =>
    rw [List.map_cons] at h
    obtain ⟨hn, hms⟩ := List.nodup_cons.mp h
    rw [dedupAfter, if_neg fun heq ↦ hn (by rw [heq]; exact List.mem_cons_self), ih hms]

theorem dedupStarts_eq (h : (ms.map (·.byteStart)).Nodup) : dedupStarts ms = ms := by
  cases ms with
  | nil => rfl
  | cons m ms => rw [dedupStarts, dedupAfter_eq h]

theorem Stored.settle_eq (h : Stored ms) :
    settleMatches ms = ms.insertionSort VlfStoredMatch.KeyLe := by
  have hperm := List.perm_insertionSort VlfStoredMatch.KeyLe ms
  rw [settleMatches, dedupStarts_eq ((hperm.map _).nodup_iff.mpr h.nodup), List.take_of_length_le]
  exact hperm.length_eq.trans_le h.length_le

theorem Stored.settle_perm (h : Stored ms) : (settleMatches ms).Perm ms := by
  rw [h.settle_eq]
  exact List.perm_insertionSort _ _

instance : Std.Total VlfStoredMatch.KeyLe where
  total a b := by
    rw [VlfStoredMatch.KeyLe, VlfStoredMatch.KeyLe]
    omega

instance : IsTrans VlfStoredMatch VlfStoredMatch.KeyLe where
  trans a b c := by
    rw [VlfStoredMatch.KeyLe, VlfStoredMatch.KeyLe, VlfStoredMatch.KeyLe]
    omega

theorem Stored.settle_sorted (h : Stored ms) :
    ((settleMatches ms).map (·.byteStart)).Pairwise (· < ·) := by
  have hperm := List.perm_insertionSort VlfStoredMatch.KeyLe ms
  have hnodup := (hperm.map (·.byteStart)).nodup_iff.mpr h.nodup
  rw [h.settle_eq]
  rw [List.Nodup, List.pairwise_map] at hnodup
  rw [List.pairwise_map]
  refine ((List.pairwise_insertionSort VlfStoredMatch.KeyLe ms).and hnodup).imp ?_
  rintro m m' ⟨hlt | ⟨heq, -⟩, hne⟩
  · exact hlt
  · exact absurd heq hne

theorem Stored.settle (h : Stored ms) : Stored (settleMatches ms) :=
  ⟨(h.settle_perm.map _).nodup_iff.mpr h.nodup, h.settle_perm.length_eq.trans_le h.length_le⟩

/-- A start is stored, unless it is there already or there is no room for it. -/
def storeStart (starts : List ℕ) (start : ℕ) : List ℕ :=
  if maxStoredMatches ≤ starts.length ∨ start ∈ starts then starts else starts ++ [start]

theorem foldl_storeStart_full (h : maxStoredMatches ≤ starts.length) (found : List ℕ) :
    found.foldl storeStart starts = starts := by
  induction found with
  | nil => rfl
  | cons start found ih => rw [List.foldl_cons, storeStart, if_pos (.inl h), ih]

theorem subset_foldl_storeStart (starts found : List ℕ) :
    starts ⊆ found.foldl storeStart starts := by
  induction found generalizing starts with
  | nil => exact List.Subset.refl _
  | cons start found ih =>
    refine List.Subset.trans ?_ (ih (storeStart starts start))
    rw [storeStart]
    split_ifs
    · exact List.Subset.refl _
    · exact List.subset_append_left _ _

theorem length_le_foldl_storeStart (starts found : List ℕ) :
    starts.length ≤ (found.foldl storeStart starts).length := by
  induction found generalizing starts with
  | nil => exact Nat.le_refl _
  | cons start found ih =>
    refine Nat.le_trans ?_ (ih (storeStart starts start))
    rw [storeStart]
    split_ifs
    · exact Nat.le_refl _
    · rw [List.length_append]
      exact Nat.le_add_right _ _

/-- The stored matches are those at the starts. They are in the order of these while there is room,
and sorted when there is none. -/
structure StoredAs (starts : List ℕ) (ms : List VlfStoredMatch) : Prop where
  stored : Stored ms
  perm : (ms.map (·.byteStart)).Perm starts
  eq_of_room : ms.length < maxStoredMatches → ms.map (·.byteStart) = starts
  sorted_of_full : ms.length = maxStoredMatches → (ms.map (·.byteStart)).Pairwise (· < ·)

theorem StoredAs.length_eq (h : StoredAs starts ms) : ms.length = starts.length := by
  rw [← h.perm.length_eq, List.length_map]

/-- The starts that are stored are the starts. -/
theorem StoredAs.self (h : StoredAs starts ms) : StoredAs (ms.map (·.byteStart)) ms :=
  ⟨h.stored, .refl _, fun _ ↦ rfl, h.sorted_of_full⟩

/-- What is settled is stored in the order that it has then. -/
theorem Stored.storedAs_settle (h : Stored ms) :
    StoredAs ((settleMatches ms).map (·.byteStart)) (settleMatches ms) :=
  ⟨h.settle, .refl _, fun _ ↦ rfl, fun _ ↦ h.settle_sorted⟩

end

namespace VlfSearchState

variable {store : EditStore} {regex : Regex} {isAlphanumeric : List UInt8 → Bool}
  {answers : ℕ → PageAnswers} {answer : PageAnswers} {s s₀ : VlfSearchState} {chunk : TextChunk}
  {pageStart pageEnd_ : ℕ} {found : List (ℕ × ℕ)}

/-! ## One page -/

/-- A match of the expression starts in the page, is a whole word where that is asked for, and its
line can be looked up. -/
def holds (isAlphanumeric : List UInt8 → Bool) (wholeWords : Bool) (answer : PageAnswers)
    (pageStart pageEnd_ : ℕ) (chunk : TextChunk) (p : ℕ × ℕ) : Bool :=
  let start := chunk.byteRange.start + p.1
  decide (pageStart ≤ start ∧ start < pageEnd_) &&
    (!wholeWords || isWholeWordMatch isAlphanumeric chunk.text p.1 p.2) &&
    ((answer.byteToLine start).bind (answer.lineToByte start)).isSome

/-- One match of the expression is passed over, or stored. -/
theorem collectFound_cons (isAlphanumeric : List UInt8 → Bool) (answer : PageAnswers)
    (pageStart pageEnd_ : ℕ) (chunk : TextChunk) (found : List (ℕ × ℕ)) (s : VlfSearchState)
    (p : ℕ × ℕ) :
    (collectFound isAlphanumeric answer pageStart pageEnd_ chunk (p :: found) s
        = collectFound isAlphanumeric answer pageStart pageEnd_ chunk found s ∧
      (holds isAlphanumeric s.wholeWords answer pageStart pageEnd_ chunk p = false ∨
        chunk.byteRange.start + p.1 ∈ s.matches_.map (·.byteStart))) ∨
    ∃ m : VlfStoredMatch, m.byteStart = chunk.byteRange.start + p.1 ∧
      holds isAlphanumeric s.wholeWords answer pageStart pageEnd_ chunk p = true ∧
      m.byteStart ∉ s.matches_.map (·.byteStart) ∧
      collectFound isAlphanumeric answer pageStart pageEnd_ chunk (p :: found) s
        = if (s.matches_ ++ [m]).length ≥ maxStoredMatches then
            { s with matches_ := settleMatches (s.matches_ ++ [m]) }
          else collectFound isAlphanumeric answer pageStart pageEnd_ chunk found
            { s with matches_ := s.matches_ ++ [m] } := by
  rw [collectFound, holds]
  dsimp only
  split
  · next hout =>
    have hin : ¬ (pageStart ≤ chunk.byteRange.start + p.1 ∧
        chunk.byteRange.start + p.1 < pageEnd_) := by omega
    exact .inl ⟨rfl, .inl (by rw [decide_eq_false hin, Bool.false_and, Bool.false_and])⟩
  next hin =>
  have hin : pageStart ≤ chunk.byteRange.start + p.1 ∧
      chunk.byteRange.start + p.1 < pageEnd_ := by omega
  rw [decide_eq_true hin, Bool.true_and]
  split
  · next hword => exact .inl ⟨rfl, .inl (by revert hword; cases s.wholeWords <;> simp +contextual)⟩
  next hword =>
  have hword : (!s.wholeWords || isWholeWordMatch isAlphanumeric chunk.text p.1 p.2) = true := by
    revert hword
    cases s.wholeWords <;> simp
  rw [hword, Bool.true_and]
  split
  · next hold => exact .inl ⟨rfl, .inr (by simpa using hold)⟩
  next hnew =>
  split
  · next hline => exact .inl ⟨rfl, .inl (by rw [hline]; rfl)⟩
  next line hline =>
  rw [hline, Option.bind_some]
  split
  · next hstart => exact .inl ⟨rfl, .inl (by rw [hstart]; rfl)⟩
  · next hstart => exact .inr ⟨_, rfl, by rw [hstart]; rfl, by simpa using hnew, rfl⟩

theorem collectFound_eq (isAlphanumeric : List UInt8 → Bool) (answer : PageAnswers)
    (pageStart pageEnd_ : ℕ) (chunk : TextChunk) (found : List (ℕ × ℕ)) (s : VlfSearchState) :
    collectFound isAlphanumeric answer pageStart pageEnd_ chunk found s = { s with
      matches_ :=
        (collectFound isAlphanumeric answer pageStart pageEnd_ chunk found s).matches_ } := by
  induction found generalizing s with
  | nil => rfl
  | cons p found ih =>
    obtain ⟨hskip, -⟩ | ⟨m, -, -, -, hstep⟩ := collectFound_cons
      isAlphanumeric answer pageStart pageEnd_ chunk found s p
    · rw [hskip]
      exact ih s
    · rw [hstep]
      split
      · rfl
      · exact ih _

/-- What is found in a page is stored while there is room. -/
theorem collectFound_storedAs {starts : List ℕ} (isAlphanumeric : List UInt8 → Bool)
    (answer : PageAnswers) (pageStart pageEnd_ : ℕ) (chunk : TextChunk) (found : List (ℕ × ℕ))
    (h : StoredAs starts s.matches_) (hroom : s.matches_.length < maxStoredMatches) :
    StoredAs (((found.filter
        (holds isAlphanumeric s.wholeWords answer pageStart pageEnd_ chunk)).map
          fun p ↦ chunk.byteRange.start + p.1).foldl storeStart starts)
      (collectFound isAlphanumeric answer pageStart pageEnd_ chunk found s).matches_ := by
  induction found generalizing s starts with
  | nil => exact h
  | cons p found ih =>
    obtain ⟨hskip, hheld | hold⟩ | ⟨m, hm, hheld, hnew, hstep⟩ := collectFound_cons
      isAlphanumeric answer pageStart pageEnd_ chunk found s p
    · rw [hskip, List.filter_cons_of_neg (Bool.eq_false_iff.mp hheld)]
      exact ih h hroom
    · rw [hskip, List.filter_cons]
      split
      · rw [List.map_cons, List.foldl_cons, storeStart, if_pos (.inr (h.perm.mem_iff.mp hold))]
        exact ih h hroom
      · exact ih h hroom
    · have hstored := h.stored.concat hnew hroom
      have hstarts : m.byteStart ∉ starts := h.perm.mem_iff.not.mp hnew
      have hmap : (s.matches_ ++ [m]).map (·.byteStart) = starts ++ [m.byteStart] := by
        rw [List.map_append, h.eq_of_room hroom]
        rfl
      rw [hstep, List.filter_cons_of_pos hheld, List.map_cons, List.foldl_cons, ← hm, storeStart,
        if_neg (by rw [← h.length_eq]; exact not_or.mpr ⟨Nat.not_le.mpr hroom, hstarts⟩), ← hmap]
      split
      · next hfull =>
        rw [foldl_storeStart_full (by rwa [List.length_map])]
        refine ⟨hstored.settle, hstored.settle_perm.map _, fun hlt ↦ ?_, fun _ ↦
          hstored.settle_sorted⟩
        rw [hstored.settle_perm.length_eq] at hlt
        exact absurd hlt (Nat.not_lt.mpr hfull)
      · next hlen =>
        have hlen := Nat.not_le.mp hlen
        exact ih (s := { s with matches_ := s.matches_ ++ [m] })
          ⟨hstored, .refl _, fun _ ↦ rfl, fun heq ↦ absurd heq hlen.ne⟩ hlen

/-- The starts of the matches that a page holds. `none` is a page that cannot be read. -/
def pageHeld (store : EditStore) (regex : Regex) (isAlphanumeric : List UInt8 → Bool)
    (answer : PageAnswers) (s : VlfSearchState) (pageStart : ℕ) : Option (List ℕ) :=
  if s.pageEnd store pageStart ≤ pageStart then some []
  else if scansPage store answer pageStart then
    (s.readWindow store answer pageStart).map fun chunk ↦
      ((regex chunk.text).filter (holds isAlphanumeric s.wholeWords answer pageStart
        (s.pageEnd store pageStart) chunk)).map fun p ↦ chunk.byteRange.start + p.1
  else none

/-! ## The pages of a run -/

/-- `find_iter` of an expression that stands for a text. -/
def literalMatches (query text : List UInt8) : List (ℕ × ℕ) :=
  (leftmost query text).map fun i ↦ (i, i + query.length)

/-- The starts of the matches that pages hold, up to the first page that cannot be read, and whether
all pages can be read. The pages have their indexes from `i` on. -/
def heldBy (store : EditStore) (regex : Regex) (isAlphanumeric : List UInt8 → Bool)
    (answers : ℕ → PageAnswers) (s : VlfSearchState) : List ℕ → ℕ → List ℕ × Bool
  | [], _ => ([], true)
  | pageStart :: pages, i =>
    match pageHeld store regex isAlphanumeric (answers i) s pageStart with
    | none => ([], false)
    | some starts =>
      let rest := heldBy store regex isAlphanumeric answers s pages (i + 1)
      (starts ++ rest.1, rest.2)

/-- What the pages hold that are left to search. -/
def heldLeft (store : EditStore) (regex : Regex) (isAlphanumeric : List UInt8 → Bool)
    (answers : ℕ → PageAnswers) (s : VlfSearchState) : List ℕ × Bool :=
  heldBy store regex isAlphanumeric answers s (s.pageStarts.drop s.nextPageIdx) s.nextPageIdx

theorem heldBy_congr (nextPageIdx scannedBytes : ℕ) (ms : List VlfStoredMatch) (pages : List ℕ)
    (i : ℕ) : heldBy store regex isAlphanumeric answers { s with
      nextPageIdx := nextPageIdx, scannedBytes := scannedBytes, matches_ := ms } pages i =
        heldBy store regex isAlphanumeric answers s pages i := by
  induction pages generalizing i with
  | nil => rfl
  | cons pageStart pages ih =>
    rw [heldBy, heldBy, ih]
    rfl

variable (store regex isAlphanumeric answers) in
theorem heldLeft_nil (hpage : s.pageStarts[s.nextPageIdx]? = none) :
    heldLeft store regex isAlphanumeric answers s = ([], true) := by
  rw [heldLeft, List.drop_eq_nil_of_le (List.getElem?_eq_none_iff.mp hpage)]
  rfl

variable (store regex isAlphanumeric answers) in
theorem heldLeft_cons (hpage : s.pageStarts[s.nextPageIdx]? = some pageStart)
    (scannedBytes : ℕ) (ms : List VlfStoredMatch) :
    heldLeft store regex isAlphanumeric answers s =
      match pageHeld store regex isAlphanumeric (answers s.nextPageIdx) s pageStart with
      | none => ([], false)
      | some starts =>
        let rest := heldLeft store regex isAlphanumeric answers { s with
          nextPageIdx := s.nextPageIdx + 1, scannedBytes := scannedBytes, matches_ := ms }
        (starts ++ rest.1, rest.2) := by
  obtain ⟨hlt, rfl⟩ := List.getElem?_eq_some_iff.mp hpage
  rw [heldLeft, List.drop_eq_getElem_cons hlt, heldBy]
  simp only [heldLeft, heldBy_congr]

/-! ## A scan -/

/-- What the loop of a scan leaves. If it comes to the end of the pages, or to a read that is
cancelled, it has stored what the pages hold up to there. -/
structure Searched (store : EditStore) (regex : Regex) (isAlphanumeric : List UInt8 → Bool)
    (answers : ℕ → PageAnswers) (s : VlfSearchState) (starts : List ℕ) (exit : LoopExit)
    (t : VlfSearchState) : Prop where
  active : t.activeMatchIdx = s.activeMatchIdx
  complete : t.complete = (s.complete || exit == .interrupted)
  stored : ∃ found : List ℕ, StoredAs (found.foldl storeStart starts) t.matches_
  ended : exit = .ended → t.pageStarts.length ≤ t.nextPageIdx →
    (heldLeft store regex isAlphanumeric answers s).2 = true ∧
      StoredAs ((heldLeft store regex isAlphanumeric answers s).1.foldl storeStart starts)
        t.matches_
  interrupted : exit = .interrupted →
    (heldLeft store regex isAlphanumeric answers s).2 = false ∧
      StoredAs ((heldLeft store regex isAlphanumeric answers s).1.foldl storeStart starts)
        t.matches_

/-- A page more before a scan. -/
theorem Searched.cons {starts held : List ℕ} {exit : LoopExit} {t : VlfSearchState}
    (scannedBytes : ℕ) (ms : List VlfStoredMatch)
    (hpage : s.pageStarts[s.nextPageIdx]? = some pageStart)
    (hheld : pageHeld store regex isAlphanumeric (answers s.nextPageIdx) s pageStart = some held)
    (h : Searched store regex isAlphanumeric answers { s with
      nextPageIdx := s.nextPageIdx + 1, scannedBytes := scannedBytes, matches_ := ms }
        (held.foldl storeStart starts) exit t) :
    Searched store regex isAlphanumeric answers s starts exit t := by
  have hleft := heldLeft_cons store regex isAlphanumeric answers hpage scannedBytes ms
  rw [hheld] at hleft
  obtain ⟨found, hfound⟩ := h.stored
  refine ⟨h.active, h.complete, ⟨held ++ found, by rwa [List.foldl_append]⟩, ?_, ?_⟩
  · rw [hleft, List.foldl_append]
    exact h.ended
  · rw [hleft, List.foldl_append]
    exact h.interrupted

theorem collectMatches_eq (isAlphanumeric : List UInt8 → Bool) (regex : Regex)
    (answer : PageAnswers) (pageStart pageEnd_ : ℕ) (chunk : TextChunk) (s : VlfSearchState) :
    collectMatches regex isAlphanumeric answer pageStart pageEnd_ chunk s = { s with
      matches_ :=
        (collectMatches regex isAlphanumeric answer pageStart pageEnd_ chunk s).matches_ } := by
  rw [collectMatches]
  split_ifs
  · rfl
  · exact collectFound_eq _ _ _ _ _ _ _

theorem collectMatches_storedAs {starts : List ℕ} (regex : Regex)
    (isAlphanumeric : List UInt8 → Bool)
    (answer : PageAnswers) (pageStart pageEnd_ : ℕ) (chunk : TextChunk)
    (h : StoredAs starts s.matches_) :
    StoredAs ((((regex chunk.text).filter
        (holds isAlphanumeric s.wholeWords answer pageStart pageEnd_ chunk)).map
          fun p ↦ chunk.byteRange.start + p.1).foldl storeStart starts)
      (collectMatches regex isAlphanumeric answer pageStart pageEnd_ chunk s).matches_ := by
  rw [collectMatches]
  split_ifs with hfull
  · rw [foldl_storeStart_full (by rwa [← h.length_eq])]
    exact h
  · exact collectFound_storedAs _ _ _ _ _ _ h (Nat.not_le.mp hfull)

/-- The loop of a scan that has a page to take for each unit of its fuel. -/
theorem scanPages_searched {starts : List ℕ} (store : EditStore) (regex : Regex)
    (isAlphanumeric : List UInt8 → Bool) (answers : ℕ → PageAnswers) (fuel batchBytes : ℕ)
    (hfuel : s.pageStarts.length ≤ s.nextPageIdx + fuel) (h : StoredAs starts s.matches_) :
    Searched store regex isAlphanumeric answers s starts
      (s.scanPages store regex isAlphanumeric answers fuel batchBytes).1
      (s.scanPages store regex isAlphanumeric answers fuel batchBytes).2 := by
  induction fuel generalizing batchBytes s starts with
  | zero =>
    have hleft := heldLeft_nil store regex isAlphanumeric answers
      (List.getElem?_eq_none_iff.mpr hfuel)
    refine ⟨rfl, (Bool.or_false _).symm, ⟨[], h⟩, fun _ _ ↦ ?_, nofun⟩
    rw [hleft]
    exact ⟨rfl, h⟩
  | succ fuel ih =>
    rw [scanPages]
    cases hpage : s.pageStarts[s.nextPageIdx]? with
    | none =>
      have hleft := heldLeft_nil store regex isAlphanumeric answers hpage
      refine ⟨rfl, (Bool.or_false _).symm, ⟨[], h⟩, fun _ _ ↦ ?_, nofun⟩
      rw [hleft]
      exact ⟨rfl, h⟩
    | some pageStart =>
      have hlt := (List.getElem?_eq_some_iff.mp hpage).1
      dsimp only
      split
      · have hunread (hheld : pageHeld store regex isAlphanumeric (answers s.nextPageIdx) s
            pageStart = none) :
            heldLeft store regex isAlphanumeric answers s = ([], false) := by
          rw [heldLeft_cons _ _ _ _ hpage 0 [], hheld]
        split
        · next hlen =>
          have hempty : s.pageEnd store pageStart ≤ pageStart := Nat.sub_eq_zero_iff_le.mp hlen
          refine .cons s.scannedBytes s.matches_ hpage (if_pos hempty) ?_
          exact ih (s := { s with nextPageIdx := s.nextPageIdx + 1 }) batchBytes
            (by simp only; omega) h
        next hlen =>
        have hlen : ¬ s.pageEnd store pageStart ≤ pageStart := fun hle ↦
          hlen (Nat.sub_eq_zero_iff_le.mpr hle)
        split
        · exact ⟨rfl, (Bool.or_false _).symm, ⟨[], h⟩, nofun, nofun⟩
        next hscans =>
        have hscans : scansPage store (answers s.nextPageIdx) pageStart = true := by
          simpa using hscans
        split
        · next hread =>
          have hread : s.readWindow store (answers s.nextPageIdx) pageStart = none := hread
          split
          · refine ⟨rfl, (Bool.or_true _).symm, ⟨[], h⟩, nofun, fun _ ↦ ?_⟩
            rw [hunread (by rw [pageHeld, if_neg hlen, if_pos hscans, hread]; rfl)]
            exact ⟨rfl, h⟩
          · exact ⟨rfl, (Bool.or_false _).symm, ⟨[], h⟩, nofun, nofun⟩
        · next chunk hread =>
          have hread : s.readWindow store (answers s.nextPageIdx) pageStart = some chunk := hread
          have hheld : pageHeld store regex isAlphanumeric (answers s.nextPageIdx) s pageStart =
              some (((regex chunk.text).filter (holds isAlphanumeric s.wholeWords
                (answers s.nextPageIdx) pageStart (s.pageEnd store pageStart) chunk)).map
                  fun p ↦ chunk.byteRange.start + p.1) := by
            rw [pageHeld, if_neg hlen, if_pos hscans, hread]
            rfl
          have hstored := collectMatches_storedAs (s := { s with nextPageIdx := s.nextPageIdx + 1 })
            regex isAlphanumeric (answers s.nextPageIdx) pageStart (s.pageEnd store pageStart)
              chunk h
          rw [collectMatches_eq]
          refine .cons (s.scannedBytes + (s.pageEnd store pageStart - pageStart))
            (collectMatches regex isAlphanumeric (answers s.nextPageIdx) pageStart
              (s.pageEnd store pageStart) chunk
                { s with nextPageIdx := s.nextPageIdx + 1 }).matches_ hpage hheld ?_
          exact ih (s := { s with
            nextPageIdx := s.nextPageIdx + 1
            scannedBytes := s.scannedBytes + (s.pageEnd store pageStart - pageStart)
            matches_ := (collectMatches regex isAlphanumeric (answers s.nextPageIdx) pageStart
              (s.pageEnd store pageStart) chunk
                { s with nextPageIdx := s.nextPageIdx + 1 }).matches_ }) _
            (by simp only; omega) hstored
      · refine ⟨rfl, (Bool.or_false _).symm, ⟨[], h⟩, fun _ hend ↦ ?_, nofun⟩
        exact absurd hend (Nat.not_le.mpr hlt)

section

variable {s' : VlfSearchState}

/-! ## The beginning -/

variable {viewport : ByteRange} {query : List UInt8}

theorem new_eq {compiled wholeWords : Bool}
    (h : new store viewport query compiled wholeWords = some s₀) : query ≠ [] ∧ s₀ = {
      query := query
      wholeWords := wholeWords
      slopBytes := max (query.length * 2) minSearchSlopBytes
      pageStarts := viewportFirstPageOrder store.lenBytes store.base.pageSize viewport
      nextPageIdx := 0
      scannedBytes := 0
      totalBytes := store.lenBytes
      matches_ := []
      activeMatchIdx := none
      complete := false } := by
  rw [new] at h
  split at h
  · cases h
  · next hquery =>
    refine ⟨fun hnil ↦ hquery (by rw [hnil]; rfl), (Option.some.inj h).symm⟩

end

/-- The answers for a document of one line, all of which can be read. -/
def oneLine : PageAnswers := ⟨allReads, allReads, .failed, fun _ ↦ some 0, fun _ _ ↦ some 0⟩

end VlfSearchState

end EeEditor.Vlf
