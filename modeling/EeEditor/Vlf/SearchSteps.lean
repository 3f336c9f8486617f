import EeEditor.Vlf.SearchRuns

/-!
# Steps through the matches of a search

Calls of `scan_batch` and of `next_match` in any order. The active match is an index, which the scan
does not touch when it rearranges what is stored; it stays below the number of matches, so that
`next_match` never asks for a match that is not there.

## What a scan does to the index

The scan that completes the search stores what the pages hold that are left, and sorts. The match
returned last stays at the active index when as many of the stored and found matches start before it
(`VlfSearchState.KeepsPlace`), and then the steps forward are those of the order of the matches. A
scan that is cancelled completes the search without sorting.
-/

namespace EeEditor.Vlf

/-- A call on a search. Each scan may find the store and its reads as they are then. -/
inductive SearchCall where
  | scanBatch (store : EditStore) (answers : ℕ → PageAnswers)
  | nextMatch (reverse wrap : Bool)

/-- A match is the first in the order of the starts. `none` is for no match at all. -/
def IsFirst (ms : List VlfStoredMatch) : Option VlfStoredMatch → Prop
  | none => ms = []
  | some m => m ∈ ms ∧ ∀ m' ∈ ms, m.byteStart ≤ m'.byteStart

/-- The answer to a step forward, after a step that returned the match at `last`: the next match
in the order of the starts, or the first if there was no step, or, with `wrap`, no next one. -/
def Follows (ms : List VlfStoredMatch) (last : Option ℕ) (wrap : Bool)
    (answer : Option VlfStoredMatch) : Prop :=
  match last with
  | none => IsFirst ms answer
  | some start =>
    if ∃ m ∈ ms, start < m.byteStart then
      ∃ m ∈ ms, answer = some m ∧ start < m.byteStart ∧
        ∀ m' ∈ ms, start < m'.byteStart → m.byteStart ≤ m'.byteStart
    else if wrap then IsFirst ms answer
    else answer = none

/-- A match that follows without a step around the end is the least of the greater ones. -/
theorem Follows.least {ms : List VlfStoredMatch} {start : ℕ} {m : VlfStoredMatch}
    (h : Follows ms (some start) false (some m)) :
    start < m.byteStart ∧ ∀ m' ∈ ms, start < m'.byteStart → m.byteStart ≤ m'.byteStart := by
  rw [Follows] at h
  split at h
  · obtain ⟨m', -, heq, hm'⟩ := h
    exact Option.some.inj heq ▸ hm'
  · cases h

/-- In increasing numbers as many are below one as its index. -/
theorem countP_lt_of_pairwise {xs : List ℕ} (h : xs.Pairwise (· < ·)) {i b : ℕ}
    (hb : xs[i]? = some b) : xs.countP (· < b) = i := by
  induction xs generalizing i with
  | nil => cases hb
  | cons x xs ih =>
    obtain ⟨hx, hxs⟩ := List.pairwise_cons.mp h
    cases i with
    | zero =>
      obtain rfl := Option.some.inj hb
      rw [List.countP_eq_zero]
      intro y hy
      rcases List.mem_cons.mp hy with rfl | hy
      · simp
      · simpa using (hx y hy).le
    | succ i =>
      rw [List.getElem?_cons_succ] at hb
      rw [List.countP_cons_of_pos (by simpa using hx b (List.mem_of_getElem? hb)), ih hxs hb]

namespace VlfSearchState

/-- A call, with the start of the match that `next_match` returned last. -/
def call (regex : Regex) (isAlphanumeric : List UInt8 → Bool) :
    SearchCall → VlfSearchState × Option ℕ → Option (VlfSearchState × Option ℕ)
  | .scanBatch store answers, (self, last) =>
    some ((self.scanBatch store regex isAlphanumeric answers).2, last)
  | .nextMatch reverse wrap, (self, last) =>
    (self.nextStored reverse wrap).map fun (matched, self) ↦
      (self, (matched.map (·.byteStart)).or last)

/-- Calls, one after the other. -/
def calls (regex : Regex) (isAlphanumeric : List UInt8 → Bool) :
    List SearchCall → VlfSearchState × Option ℕ → Option (VlfSearchState × Option ℕ)
  | [], state => some state
  | c :: cs, state => (call regex isAlphanumeric c state).bind (calls regex isAlphanumeric cs)

/-- The steps forward among calls return what follows. -/
def StepsFollow (regex : Regex) (isAlphanumeric : List UInt8 → Bool) :
    List SearchCall → VlfSearchState × Option ℕ → Prop
  | [], _ => True
  | c :: cs, state =>
    (∀ wrap, c = .nextMatch false wrap → ∃ answer self,
      state.1.nextStored false wrap = some (answer, self) ∧
        Follows state.1.matches_ state.2 wrap answer) ∧
    ∀ state', call regex isAlphanumeric c state = some state' →
      StepsFollow regex isAlphanumeric cs state'

/-- The starts of the matches that are stored after the pages that are left, in the order in which
they are found. -/
def startsAhead (store : EditStore) (regex : Regex) (isAlphanumeric : List UInt8 → Bool)
    (answers : ℕ → PageAnswers) (s : VlfSearchState) : List ℕ :=
  (heldLeft store regex isAlphanumeric answers s).1.foldl storeStart
    (s.matches_.map (·.byteStart))

/-- What is known before a scan that completes the search. Either all pages can be read that are
left, or the matches fill the store, or they are found in order; and as many of them start before
the match returned last as the active index says. -/
structure KeepsPlace (store : EditStore) (regex : Regex) (isAlphanumeric : List UInt8 → Bool)
    (answers : ℕ → PageAnswers) (s : VlfSearchState) (last : Option ℕ) : Prop where
  in_order : (heldLeft store regex isAlphanumeric answers s).2 = true ∨
    maxStoredMatches ≤ (startsAhead store regex isAlphanumeric answers s).length ∨
    (startsAhead store regex isAlphanumeric answers s).Pairwise (· < ·)
  in_place : ∀ start i, last = some start → s.activeMatchIdx = some i →
    (startsAhead store regex isAlphanumeric answers s).countP (· < start) = i

variable {regex : Regex} {isAlphanumeric : List UInt8 → Bool} {s s' : VlfSearchState}
  {last : Option ℕ} {store : EditStore} {answers : ℕ → PageAnswers}

/-! ## What scans keep -/

/-- A scan stores more matches, and keeps the active index. -/
theorem scanBatch_stored {starts : List ℕ} (store : EditStore) (regex : Regex)
    (isAlphanumeric : List UInt8 → Bool) (answers : ℕ → PageAnswers)
    (h : StoredAs starts s.matches_) : ∃ found : List ℕ, ∃ starts',
      StoredAs starts' (s.scanBatch store regex isAlphanumeric answers).2.matches_ ∧
        starts'.Perm (found.foldl storeStart starts) ∧
        (s.scanBatch store regex isAlphanumeric answers).2.activeMatchIdx = s.activeMatchIdx := by
  rw [scanBatch]
  split_ifs
  · exact ⟨[], starts, h, .refl _, rfl⟩
  have hscan := scanPages_searched store regex isAlphanumeric answers
    (s.pageStarts.length - s.nextPageIdx) 0 (by omega) h
  obtain ⟨found, hfound⟩ := hscan.stored
  have hactive := hscan.active
  split
  · next hexit =>
    rw [hexit] at hfound hactive
    exact ⟨found, _, hfound, .refl _, hactive⟩
  · next hexit =>
    rw [hexit] at hfound hactive
    exact ⟨found, _, hfound, .refl _, hactive⟩
  · next hexit =>
    rw [hexit] at hfound hactive
    split
    · exact ⟨found, _, hfound.stored.storedAs_settle,
        (hfound.stored.settle_perm.map _).trans hfound.perm, hactive⟩
    · exact ⟨found, _, hfound, .refl _, hactive⟩

/-- What the scan stores that completes the search. -/
theorem scanBatch_completes (h : StoredAs (s.matches_.map (·.byteStart)) s.matches_)
    (hs : s.complete = false)
    (hcomplete : (s.scanBatch store regex isAlphanumeric answers).2.complete = true) :
    (((s.scanBatch store regex isAlphanumeric answers).2.matches_.map (·.byteStart)).Perm
        (startsAhead store regex isAlphanumeric answers s)) ∧
      (((s.scanBatch store regex isAlphanumeric answers).2.matches_.map (·.byteStart)).Pairwise
          (· < ·) ↔
        (heldLeft store regex isAlphanumeric answers s).2 = true ∨
          maxStoredMatches ≤ (startsAhead store regex isAlphanumeric answers s).length ∨
          (startsAhead store regex isAlphanumeric answers s).Pairwise (· < ·)) := by
  have hscan := scanPages_searched store regex isAlphanumeric answers
    (s.pageStarts.length - s.nextPageIdx) 0 (by omega) h
  rw [scanBatch, hs, if_neg Bool.false_ne_true] at hcomplete ⊢
  revert hcomplete
  split
  · next hexit =>
    rw [hexit] at hscan
    intro hcomplete
    have hfalse := hscan.complete
    rw [hs] at hfalse
    rw [hfalse] at hcomplete
    cases hcomplete
  · next hexit =>
    rw [hexit] at hscan
    obtain ⟨hunread, hstored⟩ := hscan.interrupted rfl
    refine fun _ ↦ ⟨hstored.perm, ?_⟩
    rw [hunread]
    refine ⟨fun hsorted ↦ .inr ?_, ?_⟩
    · rcases Nat.lt_or_ge (startsAhead store regex isAlphanumeric answers s).length
        maxStoredMatches with hroom | hfull
      · have heq := hstored.eq_of_room (by rwa [hstored.length_eq])
        rw [startsAhead, ← heq]
        exact .inr hsorted
      · exact .inl hfull
    · rintro (hread | hfull | hsorted)
      · cases hread
      · exact hstored.sorted_of_full (Nat.le_antisymm hstored.stored.length_le
          (by rw [hstored.length_eq]; exact hfull))
      · rcases Nat.lt_or_ge (startsAhead store regex isAlphanumeric answers s).length
          maxStoredMatches with hroom | hfull
        · have heq := hstored.eq_of_room (by rwa [hstored.length_eq])
          rw [startsAhead, ← heq] at hsorted
          exact hsorted
        · exact hstored.sorted_of_full (Nat.le_antisymm hstored.stored.length_le
            (by rw [hstored.length_eq]; exact hfull))
  · next hexit =>
    rw [hexit] at hscan
    split
    · next hend =>
      obtain ⟨hread, hstored⟩ := hscan.ended rfl hend
      exact fun _ ↦ ⟨(hstored.stored.settle_perm.map _).trans hstored.perm,
        iff_of_true hstored.stored.settle_sorted (.inl hread)⟩
    · intro hcomplete
      have hfalse := hscan.complete
      rw [hs] at hfalse
      rw [hfalse] at hcomplete
      cases hcomplete

/-! ## The active match -/

/-- The active index is that of a match, and the match returned last is still stored. -/
structure Stepping (s : VlfSearchState) (last : Option ℕ) : Prop where
  stored : StoredAs (s.matches_.map (·.byteStart)) s.matches_
  active_lt : ∀ i, s.activeMatchIdx = some i → i < s.matches_.length
  last_none : last = none ↔ s.activeMatchIdx = none
  last_mem : ∀ start, last = some start → start ∈ s.matches_.map (·.byteStart)

theorem nextIdx_none {wrap : Bool} (h : s.activeMatchIdx = none) (reverse : Bool) :
    s.nextIdx reverse wrap = some (if reverse then s.matches_.length - 1 else 0) := by
  cases reverse <;> simp [nextIdx, h]

theorem nextIdx_forward {i : ℕ} (h : s.activeMatchIdx = some i) (wrap : Bool) :
    s.nextIdx false wrap
      = if i + 1 < s.matches_.length then some (i + 1) else if wrap then some 0 else none := by
  simp [nextIdx, h]

theorem nextIdx_reverse {wrap : Bool} {i : ℕ} (h : s.activeMatchIdx = some i) :
    s.nextIdx true wrap
      = if i > 0 then some (i - 1) else if wrap then some (s.matches_.length - 1) else none := by
  simp [nextIdx, h]

/-- The index of a step is that of a stored match. -/
theorem Stepping.nextIdx_lt (h : Stepping s last) (hpos : 0 < s.matches_.length)
    {reverse wrap : Bool} {idx : ℕ} (hidx : s.nextIdx reverse wrap = some idx) :
    idx < s.matches_.length := by
  cases hactive : s.activeMatchIdx with
  | none =>
    rw [nextIdx_none hactive] at hidx
    obtain rfl := Option.some.inj hidx
    split <;> omega
  | some i =>
    have hi := h.active_lt i hactive
    cases reverse with
    | false =>
      rw [nextIdx_forward hactive wrap] at hidx
      split_ifs at hidx with hnext
      · exact Option.some.inj hidx ▸ hnext
      · exact Option.some.inj hidx ▸ hpos
    | true =>
      rw [nextIdx_reverse hactive] at hidx
      split_ifs at hidx
      all_goals
        obtain rfl := Option.some.inj hidx
        omega

theorem nextStored_some {reverse wrap : Bool} {idx : ℕ} {m : VlfStoredMatch}
    (hidx : s.nextIdx reverse wrap = some idx) (hm : s.matches_[idx]? = some m) :
    s.nextStored reverse wrap = some (some m, { s with activeMatchIdx := some idx }) := by
  rw [nextStored, if_neg, hidx]
  · dsimp only
    rw [hm]
    rfl
  · intro hnil
    rw [List.isEmpty_iff.mp hnil] at hm
    cases hm

/-- A step goes to a stored match, or nowhere. -/
theorem Stepping.nextStored (h : Stepping s last) (reverse wrap : Bool) :
    s.nextStored reverse wrap = some (none, s) ∨
      ∃ idx m, s.nextIdx reverse wrap = some idx ∧ s.matches_[idx]? = some m ∧
        s.nextStored reverse wrap = some (some m, { s with activeMatchIdx := some idx }) := by
  by_cases hnil : s.matches_.isEmpty = true
  · exact .inl (by rw [VlfSearchState.nextStored, if_pos hnil])
  have hpos : 0 < s.matches_.length := by
    rw [List.isEmpty_iff] at hnil
    exact List.length_pos_of_ne_nil hnil
  cases hidx : s.nextIdx reverse wrap with
  | none => exact .inl (by rw [VlfSearchState.nextStored, if_neg hnil, hidx])
  | some idx =>
    have hm := List.getElem?_eq_getElem (h.nextIdx_lt hpos hidx)
    exact .inr ⟨idx, _, rfl, hm, nextStored_some hidx hm⟩

theorem Stepping.call (regex : Regex) (isAlphanumeric : List UInt8 → Bool) (h : Stepping s last)
    (c : SearchCall) :
    ∃ s' last', call regex isAlphanumeric c (s, last) = some (s', last') ∧ Stepping s' last' := by
  cases c with
  | scanBatch store answers =>
    obtain ⟨found, starts', hstored, hperm, hactive⟩ :=
      scanBatch_stored store regex isAlphanumeric answers h.stored
    refine ⟨_, last, rfl, hstored.self, fun i hi ↦ ?_, by rw [hactive]; exact h.last_none,
      fun start hstart ↦ ?_⟩
    · have hlength := length_le_foldl_storeStart (s.matches_.map (·.byteStart)) found
      rw [List.length_map, ← hperm.length_eq, ← hstored.length_eq] at hlength
      exact (h.active_lt i (hactive ▸ hi)).trans_le hlength
    · rw [hstored.perm.mem_iff, hperm.mem_iff]
      exact subset_foldl_storeStart _ _ (h.last_mem start hstart)
  | nextMatch reverse wrap =>
    rcases h.nextStored reverse wrap with heq | ⟨idx, m, -, hm, heq⟩
    · exact ⟨s, last, by rw [VlfSearchState.call, heq]; rfl, h⟩
    · refine ⟨{ s with activeMatchIdx := some idx }, some m.byteStart,
        by rw [VlfSearchState.call, heq]; rfl, h.stored, ?_, ?_, ?_⟩
      · rintro i ⟨⟩
        exact (List.getElem?_eq_some_iff.mp hm).1
      · simp
      · rintro start ⟨⟩
        exact List.mem_map_of_mem (List.mem_of_getElem? hm)

theorem Stepping.calls (regex : Regex) (isAlphanumeric : List UInt8 → Bool) (h : Stepping s last)
    (cs : List SearchCall) :
    ∃ s' last', calls regex isAlphanumeric cs (s, last) = some (s', last') ∧
      Stepping s' last' := by
  induction cs generalizing s last with
  | nil => exact ⟨s, last, rfl, h⟩
  | cons c cs ih =>
    obtain ⟨s₁, last₁, hcall, h₁⟩ := h.call regex isAlphanumeric c
    obtain ⟨s₂, last₂, hcalls, h₂⟩ := ih h₁
    exact ⟨s₂, last₂, by rw [VlfSearchState.calls, hcall]; exact hcalls, h₂⟩

/-! ## Steps in order -/

/-- The stored matches are in the order of their starts, and the active index is that of the match
returned last. -/
structure InStep (s : VlfSearchState) (last : Option ℕ) : Prop where
  sorted : (s.matches_.map (·.byteStart)).Pairwise (· < ·)
  last_eq : last = (s.activeMatchIdx.bind fun i ↦ s.matches_[i]?).map (·.byteStart)

theorem lt_iff_of_sorted {ms : List VlfStoredMatch} {i j : ℕ} {m m' : VlfStoredMatch}
    (hsorted : (ms.map (·.byteStart)).Pairwise (· < ·)) (hm : ms[i]? = some m)
    (hm' : ms[j]? = some m') : m.byteStart < m'.byteStart ↔ i < j := by
  obtain ⟨hi, rfl⟩ := List.getElem?_eq_some_iff.mp hm
  obtain ⟨hj, rfl⟩ := List.getElem?_eq_some_iff.mp hm'
  rw [List.pairwise_map, List.pairwise_iff_getElem] at hsorted
  constructor
  · intro hlt
    by_contra hge
    rcases Nat.eq_or_lt_of_le (Nat.not_lt.mp hge) with rfl | hlt'
    · exact absurd hlt (Nat.lt_irrefl _)
    · exact absurd (hsorted j i hj hi hlt') (Nat.lt_asymm hlt)
  · exact hsorted i j hi hj

/-- In order, the first match is the one at index zero. -/
theorem isFirst_of_sorted {ms : List VlfStoredMatch} {m : VlfStoredMatch}
    (hsorted : (ms.map (·.byteStart)).Pairwise (· < ·)) (hm : ms[0]? = some m) :
    IsFirst ms (some m) := by
  refine ⟨List.mem_of_getElem? hm, fun m' hm' ↦ ?_⟩
  obtain ⟨j, hj⟩ := List.mem_iff_getElem?.mp hm'
  have hle := (lt_iff_of_sorted hsorted hj hm).not.mpr (Nat.not_lt_zero j)
  omega

/-- In step, a step forward goes to what follows. -/
theorem InStep.follows (h : InStep s last) (hstepping : Stepping s last) (wrap : Bool) :
    ∃ answer s', s.nextStored false wrap = some (answer, s') ∧
      Follows s.matches_ last wrap answer := by
  by_cases hnil : s.matches_ = []
  · refine ⟨none, s, by rw [nextStored, if_pos (List.isEmpty_iff.mpr hnil)], ?_⟩
    have hlast : last = none := by
      refine Option.eq_none_iff_forall_ne_some.mpr fun start hstart ↦ ?_
      have hmem := hstepping.last_mem start hstart
      rw [hnil] at hmem
      cases hmem
    rw [hlast]
    exact hnil
  have hpos := List.length_pos_of_ne_nil hnil
  obtain ⟨first, hfirst⟩ : ∃ m, s.matches_[0]? = some m := ⟨_, List.getElem?_eq_getElem hpos⟩
  cases hactive : s.activeMatchIdx with
  | none =>
    refine ⟨some first, _, nextStored_some (nextIdx_none hactive false) hfirst, ?_⟩
    rw [hstepping.last_none.mpr hactive]
    exact isFirst_of_sorted h.sorted hfirst
  | some i =>
    obtain ⟨active, hi⟩ : ∃ m, s.matches_[i]? = some m :=
      ⟨_, List.getElem?_eq_getElem (hstepping.active_lt i hactive)⟩
    have hlast := h.last_eq
    rw [hactive, Option.bind_some, hi, Option.map_some] at hlast
    have hidx := nextIdx_forward hactive wrap
    rw [hlast]
    by_cases hnext : i + 1 < s.matches_.length
    · have hm := List.getElem?_eq_getElem hnext
      rw [if_pos hnext] at hidx
      have hlt := (lt_iff_of_sorted h.sorted hi hm).mpr (Nat.lt_succ_self i)
      refine ⟨_, _, nextStored_some hidx hm, ?_⟩
      rw [Follows, if_pos ⟨_, List.mem_of_getElem? hm, hlt⟩]
      refine ⟨_, List.mem_of_getElem? hm, rfl, hlt, fun m' hm' hlt' ↦ ?_⟩
      obtain ⟨j, hj⟩ := List.mem_iff_getElem?.mp hm'
      have hij := (lt_iff_of_sorted h.sorted hi hj).mp hlt'
      have hle := (lt_iff_of_sorted h.sorted hj hm).not.mpr (by omega)
      omega
    · have hnone : ¬ ∃ m ∈ s.matches_, active.byteStart < m.byteStart := by
        rintro ⟨m, hm, hlt⟩
        obtain ⟨j, hj⟩ := List.mem_iff_getElem?.mp hm
        have hij := (lt_iff_of_sorted h.sorted hi hj).mp hlt
        have := (List.getElem?_eq_some_iff.mp hj).1
        omega
      rw [if_neg hnext] at hidx
      cases wrap with
      | true =>
        refine ⟨_, _, nextStored_some hidx hfirst, ?_⟩
        rw [Follows, if_neg hnone]
        exact isFirst_of_sorted h.sorted hfirst
      | false =>
        refine ⟨none, s, ?_, ?_⟩
        · rw [nextStored, if_neg (by simpa using hnil), hidx]
          rfl
        · rw [Follows, if_neg hnone]
          rfl

/-- A complete search stays in step. -/
theorem InStep.call (h : InStep s last) (hcomplete : s.complete = true) {c : SearchCall}
    {last' : Option ℕ} (hstepping : Stepping s last)
    (hcall : call regex isAlphanumeric c (s, last) = some (s', last')) :
    InStep s' last' ∧ s'.complete = true := by
  cases c with
  | scanBatch store answers =>
    rw [VlfSearchState.call, scanBatch, if_pos hcomplete] at hcall
    obtain ⟨rfl, rfl⟩ := Prod.mk.inj (Option.some.inj hcall)
    exact ⟨h, hcomplete⟩
  | nextMatch reverse wrap =>
    rw [VlfSearchState.call] at hcall
    rcases hstepping.nextStored reverse wrap with heq | ⟨idx, m, -, hm, heq⟩
    · rw [heq] at hcall
      obtain ⟨rfl, rfl⟩ := Prod.mk.inj (Option.some.inj hcall)
      exact ⟨h, hcomplete⟩
    · rw [heq] at hcall
      obtain ⟨rfl, rfl⟩ := Prod.mk.inj (Option.some.inj hcall)
      exact ⟨⟨h.sorted, by rw [Option.bind_some, hm]; rfl⟩, hcomplete⟩

/-- In step, every step forward goes to what follows. -/
theorem InStep.stepsFollow (h : InStep s last) (hcomplete : s.complete = true)
    (hstepping : Stepping s last) (cs : List SearchCall) :
    StepsFollow regex isAlphanumeric cs (s, last) := by
  induction cs generalizing s last with
  | nil => trivial
  | cons c cs ih =>
    refine ⟨fun wrap _ ↦ h.follows hstepping wrap, fun ⟨s', last'⟩ hcall ↦ ?_⟩
    obtain ⟨hnext, hcomplete'⟩ := h.call hcomplete hstepping hcall
    obtain ⟨s₁, last₁, hcall₁, h₁⟩ := hstepping.call regex isAlphanumeric c
    obtain ⟨rfl, rfl⟩ := Prod.mk.inj (Option.some.inj (hcall₁.symm.trans hcall))
    exact ih hnext hcomplete' h₁

/-! ## Steps from anywhere -/

section

variable {m : VlfStoredMatch} {i k : ℕ}

theorem calls_append {cs cs' : List SearchCall} {state state' : VlfSearchState × Option ℕ}
    (h : calls regex isAlphanumeric cs state = some state') :
    calls regex isAlphanumeric (cs ++ cs') state = calls regex isAlphanumeric cs' state' := by
  induction cs generalizing state with
  | nil => rw [List.nil_append, Option.some.inj h]
  | cons c cs ih =>
    rw [calls] at h
    obtain ⟨state₁, hcall, hcalls⟩ := Option.bind_eq_some_iff.mp h
    rw [List.cons_append, calls, hcall, Option.bind_some, ih hcalls]

theorem StepsFollow.of_append {cs cs' : List SearchCall} {state state' : VlfSearchState × Option ℕ}
    (hsteps : StepsFollow regex isAlphanumeric (cs ++ cs') state)
    (h : calls regex isAlphanumeric cs state = some state') :
    StepsFollow regex isAlphanumeric cs' state' := by
  induction cs generalizing state with
  | nil => exact Option.some.inj h ▸ hsteps
  | cons c cs ih =>
    rw [calls] at h
    obtain ⟨state₁, hcall, hcalls⟩ := Option.bind_eq_some_iff.mp h
    exact ih (hsteps.2 state₁ hcall) hcalls

theorem call_nextMatch (regex : Regex) (isAlphanumeric : List UInt8 → Bool) (last : Option ℕ)
    {reverse wrap : Bool} (hidx : s.nextIdx reverse wrap = some k)
    (hm : s.matches_[k]? = some m) :
    call regex isAlphanumeric (.nextMatch reverse wrap) (s, last)
      = some ({ s with activeMatchIdx := some k }, some m.byteStart) := by
  rw [call, nextStored_some hidx hm]
  rfl

/-- Steps back lead to every match before the active one. -/
theorem exists_calls_back (regex : Regex) (isAlphanumeric : List UInt8 → Bool) (last : Option ℕ)
    (hactive : s.activeMatchIdx = some i) (hi : i < s.matches_.length)
    (hk : k < i) (hm : s.matches_[k]? = some m) :
    ∃ cs, calls regex isAlphanumeric cs (s, last)
      = some ({ s with activeMatchIdx := some k }, some m.byteStart) := by
  induction i generalizing s last with
  | zero => exact absurd hk (Nat.not_lt_zero k)
  | succ i ih =>
    have hidx : s.nextIdx true true = some i := by
      rw [nextIdx_reverse hactive, if_pos (Nat.succ_pos i)]
      rfl
    rcases Nat.lt_succ_iff_lt_or_eq.mp hk with hlt | rfl
    · have hstep := call_nextMatch regex isAlphanumeric last hidx
        (List.getElem?_eq_getElem (Nat.lt_of_succ_lt hi))
      obtain ⟨cs, hcs⟩ := ih _ (s := { s with activeMatchIdx := some i }) rfl
        (Nat.lt_of_succ_lt hi) hlt hm
      exact ⟨_ :: cs, by rw [calls, hstep]; exact hcs⟩
    · exact ⟨[.nextMatch true true], by rw [calls, call_nextMatch _ _ _ hidx hm]; rfl⟩

/-- Steps back, around the end, lead to every match. -/
theorem exists_calls (regex : Regex) (isAlphanumeric : List UInt8 → Bool) (h : Stepping s last)
    (hm : s.matches_[k]? = some m) :
    ∃ cs, calls regex isAlphanumeric cs (s, last)
      = some ({ s with activeMatchIdx := some k }, some m.byteStart) := by
  have hk := (List.getElem?_eq_some_iff.mp hm).1
  have hpos : 0 < s.matches_.length := Nat.zero_lt_of_lt hk
  have hend := List.getElem?_eq_getElem (Nat.sub_lt hpos Nat.one_pos)
  -- from the last match, a step back or none
  have hback : ∀ {cs : List SearchCall} {start : Option ℕ},
      calls regex isAlphanumeric cs (s, last)
        = some ({ s with activeMatchIdx := some (s.matches_.length - 1) }, start) →
      start = some (s.matches_[s.matches_.length - 1]).byteStart →
      ∃ cs, calls regex isAlphanumeric cs (s, last)
        = some ({ s with activeMatchIdx := some k }, some m.byteStart) := by
    rintro cs _ hcs rfl
    rcases Nat.lt_or_ge k (s.matches_.length - 1) with hlt | hge
    · obtain ⟨cs', hcs'⟩ := exists_calls_back regex isAlphanumeric
        (some (s.matches_[s.matches_.length - 1]).byteStart)
        (s := { s with activeMatchIdx := some (s.matches_.length - 1) }) rfl
        (Nat.sub_lt hpos Nat.one_pos) hlt hm
      exact ⟨cs ++ cs', by rw [calls_append hcs]; exact hcs'⟩
    · obtain rfl : k = s.matches_.length - 1 := by omega
      obtain rfl := Option.some.inj (hend.symm.trans hm)
      exact ⟨cs, hcs⟩
  cases hactive : s.activeMatchIdx with
  | none =>
    have haround : calls regex isAlphanumeric [.nextMatch true true] (s, last)
        = some ({ s with activeMatchIdx := some (s.matches_.length - 1) },
          some (s.matches_[s.matches_.length - 1]).byteStart) := by
      rw [calls, call_nextMatch _ _ _ (nextIdx_none hactive true) hend]
      rfl
    exact hback haround rfl
  | some i =>
    have haround : ∀ {t : VlfSearchState} {start : Option ℕ}, t.activeMatchIdx = some 0 →
        t.matches_ = s.matches_ → { t with activeMatchIdx := some (s.matches_.length - 1) }
          = { s with activeMatchIdx := some (s.matches_.length - 1) } →
        calls regex isAlphanumeric [.nextMatch true true] (t, start)
          = some ({ s with activeMatchIdx := some (s.matches_.length - 1) },
            some (s.matches_[s.matches_.length - 1]).byteStart) := by
      intro t start ht hmatches heq
      have hidx : t.nextIdx true true = some (s.matches_.length - 1) := by
        rw [nextIdx_reverse ht, hmatches]
        rfl
      rw [calls, call_nextMatch _ _ _ hidx (by rw [hmatches]; exact hend), heq]
      rfl
    rcases Nat.eq_zero_or_pos i with rfl | hi
    · exact hback (haround hactive rfl rfl) rfl
    · obtain ⟨cs, hcs⟩ := exists_calls_back regex isAlphanumeric last hactive
        (h.active_lt i hactive) hi (List.getElem?_eq_getElem hpos)
      exact hback ((calls_append hcs).trans (haround rfl rfl rfl)) rfl

/-- When every step forward from a state on goes to what follows, the state is in step. -/
theorem inStep_of_stepsFollow (h : Stepping s last)
    (hall : ∀ cs, StepsFollow regex isAlphanumeric cs (s, last)) : InStep s last := by
  have hfollows : ∀ {k : ℕ} {m m' : VlfStoredMatch}, s.matches_[k]? = some m →
      s.matches_[k + 1]? = some m' → Follows s.matches_ (some m.byteStart) false (some m') := by
    intro k m m' hm hm'
    obtain ⟨cs, hcs⟩ := exists_calls regex isAlphanumeric h hm
    obtain ⟨answer, t, hstep, hfollows⟩ := ((hall (cs ++ [.nextMatch false false])).of_append hcs).1
      false rfl
    have hidx : nextIdx { s with activeMatchIdx := some k } false false = some (k + 1) := by
      rw [nextIdx_forward rfl false, if_pos (List.getElem?_eq_some_iff.mp hm').1]
    rw [nextStored_some hidx hm'] at hstep
    obtain rfl := (Prod.mk.inj (Option.some.inj hstep)).1
    exact hfollows
  have hsorted : (s.matches_.map (·.byteStart)).Pairwise (· < ·) := by
    rw [List.pairwise_map, ← List.isChain_iff_pairwise, List.isChain_iff_getElem]
    intro k hk
    exact (Follows.least (hfollows (List.getElem?_eq_getElem (Nat.lt_of_succ_lt hk))
      (List.getElem?_eq_getElem hk))).1
  refine ⟨hsorted, ?_⟩
  cases hactive : s.activeMatchIdx with
  | none => exact h.last_none.mpr hactive
  | some i =>
    have hi := h.active_lt i hactive
    obtain ⟨start, hstart⟩ : ∃ start, last = some start :=
      Option.ne_none_iff_exists'.mp fun hnone ↦ by
        rw [h.last_none.mp hnone] at hactive
        cases hactive
    obtain ⟨m, hmem, rfl⟩ := List.mem_map.mp (h.last_mem start hstart)
    obtain ⟨k, hk⟩ := List.mem_iff_getElem?.mp hmem
    have hklt := (List.getElem?_eq_some_iff.mp hk).1
    obtain ⟨answer, t, hstep, hanswer⟩ := (hall [.nextMatch false false]).1 false rfl
    have hidx := nextIdx_forward hactive false
    rw [hstart] at hanswer
    -- the step goes on from the active index, and what follows from the match returned last
    have hik : k = i := by
      by_cases hnext : i + 1 < s.matches_.length
      · have hm' := List.getElem?_eq_getElem hnext
        rw [if_pos hnext] at hidx
        rw [nextStored_some hidx hm'] at hstep
        obtain rfl := (Prod.mk.inj (Option.some.inj hstep)).1
        obtain ⟨hlt, hleast⟩ := hanswer.least
        have hki := (lt_iff_of_sorted hsorted hk hm').mp hlt
        by_contra hne
        have hk' := List.getElem?_eq_getElem (show k + 1 < s.matches_.length by omega)
        have hle := hleast _ (List.mem_of_getElem? hk')
          ((lt_iff_of_sorted hsorted hk hk').mpr (Nat.lt_succ_self k))
        have hlt' := (lt_iff_of_sorted hsorted hk' hm').mpr (by omega)
        omega
      · by_contra hne
        have hk' := List.getElem?_eq_getElem (show k + 1 < s.matches_.length by omega)
        rw [nextStored, if_neg (by simpa using List.ne_nil_of_mem hmem), hidx,
          if_neg hnext] at hstep
        obtain rfl := (Prod.mk.inj (Option.some.inj hstep)).1
        rw [Follows, if_pos ⟨_, List.mem_of_getElem? hk',
          (lt_iff_of_sorted hsorted hk hk').mpr (Nat.lt_succ_self k)⟩] at hanswer
        obtain ⟨m', -, heq, -⟩ := hanswer
        cases heq
    rw [hstart, Option.bind_some, ← hik, hk]
    rfl

variable {viewport : ByteRange} {query : List UInt8} {compiled wholeWords : Bool}
  {s₀ : VlfSearchState}

theorem Stepping.new (hnew : new store viewport query compiled wholeWords = some s₀) :
    Stepping s₀ none := by
  rw [(new_eq hnew).2]
  exact ⟨⟨⟨.nil, Nat.zero_le _⟩, .refl _, fun _ ↦ rfl, fun _ ↦ .nil⟩, fun _ h ↦ (by cases h),
    ⟨fun _ ↦ rfl, fun _ ↦ rfl⟩, fun _ h ↦ by cases h⟩

/-- After the scan that completes the search, the state is in step just when the scan kept the place
of the match returned last, and the order. -/
theorem Stepping.inStep_iff (h : Stepping s last) (hs : s.complete = false)
    (hcomplete : (s.scanBatch store regex isAlphanumeric answers).2.complete = true) :
    InStep (s.scanBatch store regex isAlphanumeric answers).2 last ↔
      KeepsPlace store regex isAlphanumeric answers s last := by
  obtain ⟨hperm, hsorted⟩ := scanBatch_completes h.stored hs hcomplete
  obtain ⟨-, -, -, -, hactive⟩ := scanBatch_stored store regex isAlphanumeric answers h.stored
  obtain ⟨s', last', hcall, hafter⟩ := h.call regex isAlphanumeric (.scanBatch store answers)
  obtain ⟨rfl, rfl⟩ := Prod.mk.inj (Option.some.inj hcall)
  generalize (s.scanBatch store regex isAlphanumeric answers).2 = t at *
  have hget (i : ℕ) : (t.matches_[i]?).map (·.byteStart) =
      (t.matches_.map (·.byteStart))[i]? := List.getElem?_map.symm
  constructor
  · rintro ⟨hms, hlast⟩
    refine ⟨hsorted.mp hms, fun start i hstart hi ↦ ?_⟩
    rw [hstart, hactive, hi, Option.bind_some, hget] at hlast
    rw [← hperm.countP_eq]
    exact countP_lt_of_pairwise hms hlast.symm
  · rintro ⟨horder, hplace⟩
    have hms := hsorted.mpr horder
    refine ⟨hms, ?_⟩
    cases hlast : last with
    | none => rw [hafter.last_none.mp hlast, Option.bind_none, Option.map_none]
    | some start =>
      obtain ⟨i, hi⟩ : ∃ i, s.activeMatchIdx = some i :=
        Option.ne_none_iff_exists'.mp fun hnone ↦ by
          rw [h.last_none.mpr hnone] at hlast
          cases hlast
      obtain ⟨j, hj⟩ := List.mem_iff_getElem?.mp (hafter.last_mem start hlast)
      have hcount := countP_lt_of_pairwise hms hj
      rw [hperm.countP_eq, hplace start i hlast hi] at hcount
      rw [hactive, hi, Option.bind_some, hget, hcount, hj]

/-- No calls on a search, in any order, make `next_match` ask for a match that is not there. When a
scan then completes the search, every step forward from there on, whatever other calls there are,
goes to what follows the match returned last exactly when that scan keeps its place, and the order.
-/
theorem steps_follow_iff (regex : Regex) (isAlphanumeric : List UInt8 → Bool)
    (hnew : new store viewport query compiled wholeWords = some s₀)
    (cs : List SearchCall) : ∃ s last, calls regex isAlphanumeric cs (s₀, none) = some (s, last) ∧
      (∀ reverse wrap, (s.nextStored reverse wrap).isSome) ∧
      ∀ store answers, s.complete = false →
        (s.scanBatch store regex isAlphanumeric answers).2.complete = true →
        ((∀ cs', StepsFollow regex isAlphanumeric cs'
            ((s.scanBatch store regex isAlphanumeric answers).2, last)) ↔
          KeepsPlace store regex isAlphanumeric answers s last) := by
  obtain ⟨s, last, hcalls, hstepping⟩ := (Stepping.new hnew).calls regex isAlphanumeric cs
  refine ⟨s, last, hcalls, fun reverse wrap ↦ ?_, fun store answers hs hcomplete ↦ ?_⟩
  · rcases hstepping.nextStored reverse wrap with heq | ⟨idx, m, -, -, heq⟩
    · rw [heq]
      rfl
    · rw [heq]
      rfl
  · obtain ⟨s', last', hcall, hafter⟩ :=
      hstepping.call regex isAlphanumeric (.scanBatch store answers)
    obtain ⟨rfl, rfl⟩ := Prod.mk.inj (Option.some.inj hcall)
    rw [← hstepping.inStep_iff hs hcomplete]
    exact ⟨inStep_of_stepsFollow hafter, fun h cs' ↦ h.stepsFollow hcomplete hafter cs'⟩

end

/-- The second page cannot be read, and is left out. -/
def failSecond (i : ℕ) : PageAnswers :=
  if i = 1 then { oneLine with searchReads := fun _ _ ↦ false } else oneLine

/-- A search for `a` in `aaa`, a byte a page, with the first page in view. -/
def searchAhead : VlfSearchState := ⟨[97], false, 256, [0, 1, 2], 0, 0, 3, [], none, false⟩

/-- After the match of the first page has been returned, the scan of the last page keeps its
place. -/
theorem steps_follow_aaa : new (.new [97, 97, 97] 1) ⟨0, 1⟩ [97] true false = some searchAhead ∧
    ∃ s, calls (literalMatches [97]) (fun _ ↦ false) [.scanBatch (.new [97, 97, 97] 1) failSecond,
        .nextMatch false false] (searchAhead, none) = some (s, some 0) ∧
      ∀ cs, StepsFollow (literalMatches [97]) (fun _ ↦ false) cs
        ((s.scanBatch (.new [97, 97, 97] 1) (literalMatches [97]) (fun _ ↦ false) failSecond).2,
          some 0) := by
  have hnew : new (.new [97, 97, 97] 1) ⟨0, 1⟩ [97] true false = some searchAhead := rfl
  obtain ⟨s, last, hcalls, -, hiff⟩ := steps_follow_iff (literalMatches [97]) (fun _ ↦ false)
    hnew [.scanBatch (.new [97, 97, 97] 1) failSecond, .nextMatch false false]
  obtain ⟨rfl, rfl⟩ := Prod.mk.inj (Option.some.inj hcalls)
  refine ⟨hnew, _, hcalls, (hiff (.new [97, 97, 97] 1) failSecond rfl rfl).mpr ⟨.inl rfl, ?_⟩⟩
  rintro start i ⟨⟩ ⟨⟩
  rfl

/-- The same search with the last page in view. -/
def searchAaa : VlfSearchState := { searchAhead with pageStarts := [2, 1, 0] }

/-- The match of the page in view is stored first and stepped to. When the scan is complete it is
the second of the matches, and the next step goes to it once more. -/
theorem nextMatch_repeats : new (.new [97, 97, 97] 1) ⟨2, 3⟩ [97] true false = some searchAaa ∧
    ∃ s, calls (literalMatches [97]) (fun _ ↦ false) [.scanBatch (.new [97, 97, 97] 1) failSecond,
        .nextMatch false false, .scanBatch (.new [97, 97, 97] 1) failSecond] (searchAaa, none)
        = some (s, some 2) ∧ s.complete = true ∧
      ∃ m s', s.nextStored false false = some (some m, s') ∧ m.byteStart = 2 ∧
        ¬ Follows s.matches_ (some 2) false (some m) := by
  exact ⟨rfl, _, rfl, rfl, _, _, rfl, rfl, fun h ↦ Nat.lt_irrefl 2 h.least.1⟩

end VlfSearchState

end EeEditor.Vlf
