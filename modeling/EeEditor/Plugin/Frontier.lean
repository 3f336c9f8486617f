import EeEditor.Plugin.StateCache
import EeEditor.Plugin.Mirror

/-!
# The frontier of the state cache

The frontier lists the lines where work is outstanding. For a simple edit the code keeps the lines
before the restart line, the line of the last entry before the edit, and moves at most one line
with its text (`StateCache.patchupLoop_true`). `StateCache.patchup_iff` says exactly when that is
enough. For other edits the frontier ends at the restart line.
-/

namespace EeEditor.Plugin

/-! ## Sorted lists -/

section

variable {l : List ℕ} {x : ℕ}

theorem takeWhile_lt_eq_filter (hl : l.Pairwise (· < ·)) (x : ℕ) :
    l.takeWhile (· < x) = l.filter (· < x) := by
  induction l with
  | nil => rfl
  | cons y l ih =>
    obtain ⟨hy, hl⟩ := List.pairwise_cons.mp hl
    by_cases hyx : y < x
    · rw [List.takeWhile_cons_of_pos (by simpa using hyx), List.filter_cons_of_pos
        (by simpa using hyx), ih hl]
    · rw [List.takeWhile_cons_of_neg (by simpa using hyx), List.filter_cons_of_neg
        (by simpa using hyx), eq_comm, List.filter_eq_nil_iff]
      intro z hz
      have := hy z hz
      simp
      omega

/-- The number of members up to `x`. -/
theorem length_takeWhile_le (hl : l.Pairwise (· < ·)) (x : ℕ) :
    (l.takeWhile (· ≤ x)).length = match binarySearch l x with
      | .ok ix => ix + 1
      | .error ix => ix := by
  induction l with
  | nil => rfl
  | cons y l ih =>
    obtain ⟨hy, hl⟩ := List.pairwise_cons.mp hl
    have hgt : x ≤ y → l.takeWhile (· ≤ x) = [] := by
      intro hxy
      cases l with
      | nil => rfl
      | cons z l =>
        have := hy z (by simp)
        rw [List.takeWhile_cons_of_neg (by simp; omega)]
    rcases lt_trichotomy y x with hlt | rfl | hlt
    · rw [List.takeWhile_cons_of_pos (by simpa using hlt.le), List.length_cons, ih hl, binarySearch,
        binarySearch, List.takeWhile_cons_of_pos (by simpa using hlt)]
      simp only [List.length_cons, List.getElem?_cons_succ]
      split_ifs <;> rfl
    · rw [List.takeWhile_cons_of_pos (by simp), hgt le_rfl, binarySearch,
        List.takeWhile_cons_of_neg (by simp)]
      simp
    · rw [List.takeWhile_cons_of_neg (by simpa using hlt), binarySearch,
        List.takeWhile_cons_of_neg (by simp; omega)]
      simp [hlt.ne']

theorem take_length_takeWhile {β : Type} (p : β → Bool) (l : List β) :
    l.take (l.takeWhile p).length = l.takeWhile p :=
  List.prefix_iff_eq_take.mp (List.takeWhile_prefix p) |>.symm

theorem drop_length_takeWhile {β : Type} (p : β → Bool) (l : List β) :
    l.drop (l.takeWhile p).length = l.dropWhile p := by
  have h := List.take_append_drop (l.takeWhile p).length l
  rw [take_length_takeWhile] at h
  exact List.append_cancel_left (h.trans List.takeWhile_append_dropWhile.symm)

end

namespace StateCache

variable {S : Type}

/-! ## The patched frontier -/

section

variable {frontier : List ℕ} {lineNum : ℕ} {entry : Option (CacheEntry S)} {d : ℤ}

theorem patchupLoop_cons (needPush : Bool) (f : ℕ) :
    patchupLoop lineNum entry d needPush (f :: frontier)
      = if f < lineNum then f :: patchupLoop lineNum entry d needPush frontier
        else if needPush then lineNum :: (match entry with
            | some entry => if f ≥ entry.lineNum then [wrappingAdd f d] else []
            | none => []) ++ patchupLoop lineNum entry d false frontier
        else patchupLoop lineNum entry d needPush frontier :=
  patchupLoop.eq_def lineNum entry d needPush (f :: frontier)

theorem patchupLoop_false (hf : ∀ f ∈ frontier, lineNum ≤ f) :
    patchupLoop lineNum entry d false frontier = [] := by
  induction frontier with
  | nil => rfl
  | cons f frontier ih =>
    rw [patchupLoop_cons, if_neg (by have := hf f (by simp); omega), if_neg (by simp)]
    exact ih fun g hg ↦ hf g (by simp [hg])

/-- The line that is moved with its text, if any. -/
def shifted (lineNum : ℕ) (entry : Option (CacheEntry S)) (d : ℤ) (frontier : List ℕ) : List ℕ :=
  match frontier.find? (lineNum ≤ ·), entry with
  | some f, some entry => if entry.lineNum ≤ f then [wrappingAdd f d] else []
  | _, _ => []

theorem shifted_cons_of_le {f : ℕ} (hle : lineNum ≤ f) :
    shifted lineNum entry d (f :: frontier) = match entry with
      | some entry => if f ≥ entry.lineNum then [wrappingAdd f d] else []
      | none => [] := by
  unfold shifted
  rw [List.find?_cons_of_pos (by simpa using hle)]
  cases entry <;> rfl

/-- The loop keeps the lines before the restart line, and moves at most one line. -/
theorem patchupLoop_true (hf : frontier.Pairwise (· < ·)) :
    patchupLoop lineNum entry d true frontier
      = frontier.filter (· < lineNum) ++ lineNum :: shifted lineNum entry d frontier := by
  induction frontier with
  | nil => rfl
  | cons f frontier ih =>
    obtain ⟨hlt, hf⟩ := List.pairwise_cons.mp hf
    rw [patchupLoop_cons]
    by_cases hfl : f < lineNum
    · have hshift : shifted lineNum entry d (f :: frontier) = shifted lineNum entry d frontier := by
        unfold shifted
        rw [List.find?_cons_of_neg (by simpa using hfl)]
      rw [if_pos hfl, ih hf, List.filter_cons_of_pos (by simpa using hfl), hshift,
        List.cons_append]
    · have hnil : (f :: frontier).filter (· < lineNum) = [] := by
        rw [List.filter_eq_nil_iff]
        intro g hg
        rcases List.mem_cons.mp hg with rfl | hg
        · simpa using hfl
        · have := hlt g hg
          simp
          omega
      rw [if_neg hfl, if_pos rfl, patchupLoop_false, hnil, shifted_cons_of_le (not_lt.mp hfl),
        List.append_nil, List.nil_append]
      intro g hg
      have := hlt g hg
      omega

theorem mem_shifted {g : ℕ} : g ∈ shifted lineNum entry d frontier ↔
    ∃ f e, frontier.find? (lineNum ≤ ·) = some f ∧ entry = some e ∧ e.lineNum ≤ f ∧
      g = wrappingAdd f d := by
  unfold shifted
  cases frontier.find? (lineNum ≤ ·) with
  | none => simp
  | some f =>
    cases entry with
    | none => simp
    | some e =>
      by_cases he : e.lineNum ≤ f
      · simp [he]
      · simp [he]

theorem pairwise_shifted : (shifted lineNum entry d frontier).Pairwise (· < ·) := by
  unfold shifted
  split
  · split_ifs <;> simp
  · simp

/-- The first line from the restart line on is below the others. -/
theorem find?_le {f g : ℕ} (hf : frontier.Pairwise (· < ·))
    (hfind : frontier.find? (lineNum ≤ ·) = some f) (hg : g ∈ frontier) (hle : lineNum ≤ g) :
    f ≤ g := by
  induction frontier with
  | nil => simp at hg
  | cons a frontier ih =>
    obtain ⟨hlt, hf⟩ := List.pairwise_cons.mp hf
    by_cases ha : lineNum ≤ a
    · rw [List.find?_cons_of_pos (by simpa using ha), Option.some_inj] at hfind
      rcases List.mem_cons.mp hg with rfl | hg
      · exact hfind.ge
      · exact hfind ▸ (hlt g hg).le
    · rw [List.find?_cons_of_neg (by simpa using ha)] at hfind
      rcases List.mem_cons.mp hg with rfl | hg
      · exact absurd hle ha
      · exact ih hf hfind hg

theorem wrappingAdd_of_lt {f : ℕ} (h0 : 0 ≤ (f : ℤ) + d) (hlt : (f : ℤ) + d < 2 ^ 64) :
    wrappingAdd f d = ((f : ℤ) + d).toNat := by
  rw [wrappingAdd, Int.emod_eq_of_lt h0 hlt]

/-- When the patched frontier keeps what has to be kept: it is sorted, it has the lines before the
line `own` of the edit, and it has the lines after the edit, moved. -/
theorem patchup_iff {own : ℕ} {After : ℕ → Prop} (hf : frontier.Pairwise (· < ·))
    (hbound : ∀ f ∈ frontier, f < 2 ^ 64) (hown : lineNum ≤ own)
    (hentry : ∀ e, entry = some e → own < e.lineNum)
    (hafter : ∀ f ∈ frontier, After f → (own : ℤ) < f + d ∧ (f : ℤ) + d < 2 ^ 64) :
    ((patchupLoop lineNum entry d true frontier).Pairwise (· < ·) ∧
      (∀ f ∈ frontier, After f →
        ((f : ℤ) + d).toNat ∈ patchupLoop lineNum entry d true frontier) ∧
      ∀ f ∈ frontier, f < own → f ∈ patchupLoop lineNum entry d true frontier) ↔
    (∀ f ∈ frontier, f < own → f ≤ lineNum) ∧
      (∀ f ∈ frontier, After f → frontier.find? (lineNum ≤ ·) = some f ∧
        ∃ e, entry = some e ∧ e.lineNum ≤ f) ∧
      ∀ f e, frontier.find? (lineNum ≤ ·) = some f → entry = some e → e.lineNum ≤ f →
        lineNum < wrappingAdd f d := by
  rw [patchupLoop_true hf]
  have hmem : ∀ {g : ℕ}, own < g →
      (g ∈ frontier.filter (· < lineNum) ++ lineNum :: shifted lineNum entry d frontier ↔
        g ∈ shifted lineNum entry d frontier) := by
    intro g hg
    rw [List.mem_append, List.mem_cons, List.mem_filter]
    have h1 : ¬(decide (g < lineNum) = true) := by simp; omega
    have h2 : g ≠ lineNum := by omega
    tauto
  constructor
  · rintro ⟨hsorted, hmoved, hkept⟩
    refine ⟨fun f hfmem hlt ↦ ?_, fun f hfmem hf' ↦ ?_, fun f e hfind he hle ↦ ?_⟩
    · -- a line between the restart line and the edit is not moved
      by_contra hgt
      have hkept := hkept f hfmem hlt
      rw [List.mem_append, List.mem_cons, List.mem_filter, decide_eq_true_iff] at hkept
      obtain ⟨f₀, e, hfind, he, hle, -⟩ := mem_shifted.mp
        ((hkept.resolve_left fun h ↦ by omega).resolve_left fun h ↦ by omega)
      have := find?_le hf hfind hfmem (by omega)
      have := hentry e he
      omega
    · obtain ⟨hlo, hhi⟩ := hafter f hfmem hf'
      obtain ⟨f₀, e, hfind, he, hle, heq⟩ :=
        mem_shifted.mp ((hmem (by omega)).mp (hmoved f hfmem hf'))
      have hf₀ := hbound f₀ (List.mem_of_find?_eq_some hfind)
      have hfb := hbound f hfmem
      obtain rfl : f₀ = f := by
        rw [wrappingAdd] at heq
        omega
      exact ⟨hfind, e, he, hle⟩
    · have hcons := (List.pairwise_append.mp hsorted).2.1
      exact (List.pairwise_cons.mp hcons).1 _ (mem_shifted.mpr ⟨f, e, hfind, he, hle, rfl⟩)
  · rintro ⟨hbetween, hmoved, hincr⟩
    refine ⟨?_, fun f hfmem hf' ↦ ?_, fun f hfmem hlt ↦ ?_⟩
    · have hshift : ∀ g ∈ shifted lineNum entry d frontier, lineNum < g := by
        intro g hg
        obtain ⟨f, e, hfind, he, hle, rfl⟩ := mem_shifted.mp hg
        exact hincr f e hfind he hle
      rw [List.pairwise_append, List.pairwise_cons]
      refine ⟨hf.filter _, ⟨hshift, pairwise_shifted⟩, fun a ha b hb ↦ ?_⟩
      rw [List.mem_filter, decide_eq_true_iff] at ha
      rcases List.mem_cons.mp hb with rfl | hb
      · exact ha.2
      · exact ha.2.trans (hshift b hb)
    · obtain ⟨hlo, hhi⟩ := hafter f hfmem hf'
      obtain ⟨hfind, e, he, hle⟩ := hmoved f hfmem hf'
      rw [hmem (by omega)]
      exact mem_shifted.mpr ⟨f, e, hfind, he, hle, (wrappingAdd_of_lt (by omega) hhi).symm⟩
    · rw [List.mem_append, List.mem_cons, List.mem_filter, decide_eq_true_iff]
      have := hbetween f hfmem hlt
      rcases this.lt_or_eq with h | h
      · exact .inl ⟨hfmem, h⟩
      · exact .inr (.inl h)

end

/-! ## The restart line -/

/-- The entries at or before an offset. -/
def entriesUpTo (self : StateCache S) (offset : ℕ) : List (CacheEntry S) :=
  self.stateCache.takeWhile (·.offset ≤ offset)

/-- The line of the last entry at or before an offset, and the first line without one. -/
def restartLine (self : StateCache S) (offset : ℕ) : ℕ :=
  ((self.entriesUpTo offset).getLast?.map (·.lineNum)).getD 0

/-- The entries are at line starts of the document, and the frontier is sorted. -/
structure Valid (c : StateCache S) (doc : List UInt8) (rev : ℕ) : Prop where
  mirrors : c.bufCache.Mirrors doc rev
  sorted : c.stateCache.Pairwise (·.lineNum < ·.lineNum)
  select_eq : ∀ e ∈ c.stateCache, select isNewline doc e.lineNum = some e.offset
  frontier_sorted : c.frontier.Pairwise (· < ·)
  frontier_lt : ∀ f ∈ c.frontier, f < 2 ^ 64

section

variable {c : StateCache S} {doc doc' : List UInt8} {rev start end_ : ℕ}

theorem Valid.offsets_sorted (h : c.Valid doc rev) :
    (c.stateCache.map (·.offset)).Pairwise (· < ·) := by
  rw [List.pairwise_map]
  refine h.sorted.imp_of_mem fun ha hb hlt ↦ ?_
  exact (select_lt_select (h.select_eq _ ha) (h.select_eq _ hb)).mpr hlt

theorem Valid.indexAfter_eq (h : c.Valid doc rev) :
    c.indexAfter start = (c.entriesUpTo start).length := by
  have hlen := length_takeWhile_le h.offsets_sorted start
  rw [List.takeWhile_map, List.length_map] at hlen
  rw [indexAfter, findOffset]
  cases hb : binarySearch (c.stateCache.map (·.offset)) start with
  | ok ix =>
    rw [hb] at hlen
    exact hlen.symm
  | error ix =>
    rw [hb] at hlen
    exact hlen.symm

theorem getElem?_entriesUpTo {ix : ℕ} (hix : (c.entriesUpTo start).length = ix + 1) :
    c.stateCache[ix]?.map (·.lineNum) = some (c.restartLine start) := by
  have hget : c.stateCache[ix]? = (c.entriesUpTo start).getLast? := by
    rw [List.getLast?_eq_getElem?, hix, Nat.add_sub_cancel, entriesUpTo,
      ← take_length_takeWhile, List.getElem?_take_of_lt]
    rw [← entriesUpTo]
    omega
  have hne : c.entriesUpTo start ≠ [] := List.ne_nil_of_length_eq_add_one hix
  rw [hget, restartLine, List.getLast?_eq_some_getLast hne]
  rfl

theorem restartLine_eq_zero (hix : (c.entriesUpTo start).length = 0) :
    c.restartLine start = 0 := by
  rw [restartLine, List.length_eq_zero_iff.mp hix]
  rfl

/-- The restart line begins at or before the offset. -/
theorem Valid.restartLine_le (h : c.Valid doc rev) :
    c.restartLine start ≤ rank isNewline doc start := by
  rw [restartLine]
  cases hlast : (c.entriesUpTo start).getLast? with
  | none => exact Nat.zero_le _
  | some e =>
    have hmem := List.mem_of_getLast? hlast
    have hle : e.offset ≤ start := by simpa using List.mem_takeWhile_imp hmem
    exact (select_le_iff (h.select_eq e ((List.takeWhile_sublist _).subset hmem))).mp hle

/-- Patching up the frontier when the entries up to the edit are left alone. -/
theorem patchupFrontier_eq {rest : List (CacheEntry S)} {frontier : List ℕ} {buf : ChunkCache}
    {d : ℤ} :
    (StateCache.mk buf (c.entriesUpTo start ++ rest) frontier).patchupFrontier
        (c.entriesUpTo start).length d
      = some ⟨buf, c.entriesUpTo start ++ rest,
          patchupLoop (c.restartLine start) rest.head? d true frontier⟩ := by
  have hhead : (c.entriesUpTo start ++ rest)[(c.entriesUpTo start).length]? = rest.head? := by
    rw [List.getElem?_append_right le_rfl, Nat.sub_self, List.head?_eq_getElem?]
  unfold patchupFrontier
  rw [hhead]
  cases hix : (c.entriesUpTo start).length with
  | zero =>
    rw [restartLine_eq_zero hix]
    rfl
  | succ ix =>
    have hline := getElem?_entriesUpTo hix
    have hget : (c.entriesUpTo start ++ rest)[ix]? = c.stateCache[ix]? := by
      rw [List.getElem?_append_left (by omega), entriesUpTo, ← take_length_takeWhile,
        List.getElem?_take_of_lt]
      rw [← entriesUpTo]
      omega
    dsimp only
    rw [hget, hline]
    rfl

/-- What an update that is not patched leaves. -/
theorem Valid.clearToStart_eq (h : c.Valid doc rev) :
    c.clearToStart start = some ⟨c.bufCache, c.entriesUpTo start,
      c.frontier.filter (· < c.restartLine start) ++ [c.restartLine start]⟩ := by
  have hfrontier : (c.truncateFrontier (c.restartLine start)).frontier
      = c.frontier.filter (· < c.restartLine start) ++ [c.restartLine start] := by
    rw [← takeWhile_lt_eq_filter h.frontier_sorted, truncateFrontier, binarySearch]
    split_ifs with hget
    · dsimp only
      rw [List.take_add_one, take_length_takeWhile, hget]
      rfl
    · dsimp only
      rw [take_length_takeWhile]
  have htake : c.stateCache.take (c.entriesUpTo start).length = c.entriesUpTo start :=
    take_length_takeWhile _ _
  have hpair : ∀ {ix : ℕ}, (c.entriesUpTo start).length = ix + 1 →
      c.stateCache[ix]?.map (fun entry ↦ (entry.lineNum, ix + 1))
        = some (c.restartLine start, (c.entriesUpTo start).length) := by
    intro ix hix
    obtain ⟨e, he, hline⟩ := Option.map_eq_some_iff.mp (getElem?_entriesUpTo hix)
    rw [he, ← hline, hix]
    rfl
  have hfound : c.lastUpTo start
      = some (c.restartLine start, (c.entriesUpTo start).length) := by
    have hindex : c.indexAfter start = (c.entriesUpTo start).length := h.indexAfter_eq
    rw [indexAfter] at hindex
    unfold lastUpTo
    cases hb : c.findOffset start with
    | ok ix =>
      rw [hb] at hindex
      exact hpair hindex.symm
    | error ix =>
      rw [hb] at hindex
      cases ix with
      | zero =>
        rw [restartLine_eq_zero hindex.symm, ← hindex]
      | succ ix => exact hpair hindex.symm
  unfold clearToStart truncateCache
  rw [hfound]
  have hcache : (c.truncateFrontier (c.restartLine start)).stateCache = c.stateCache := by
    rw [truncateFrontier]
    split <;> rfl
  have hbuf : (c.truncateFrontier (c.restartLine start)).bufCache = c.bufCache := by
    rw [truncateFrontier]
    split <;> rfl
  simp only [Option.bind_eq_bind, Option.bind_some, hcache, hbuf, hfrontier, htake]
  rfl

end

end StateCache

end EeEditor.Plugin
