import EeEditor.Vlf.Scanned
import Mathlib.Data.List.Induction

/-!
# The aggregates of the page index

The index keeps totals beside its descriptors and answers lookups by a binary search in a table of
prefixes. The totals are those of the scanned descriptors and the search finds what a walk over the
pages from the start of the file finds, after every insert of a sequence, exactly when no insert
takes newlines or bytes away and the scanned pages are connected (`aggregates_iff`).
-/

namespace EeEditor.Vlf

/-! ## Scanned descriptors -/

/-- The newlines of the scanned descriptors. -/
def scannedNewlines (ds : List PageDescriptor) : ℕ :=
  ((ds.filter (·.scanState = .scanned)).map (·.newlineCount)).sum

/-- The bytes of the scanned descriptors. -/
def scannedLen (ds : List PageDescriptor) : ℕ :=
  ((ds.filter (·.scanState = .scanned)).map fun d ↦ d.end_ - d.start).sum

/-- A walk over the pages in order, from position `pos` with `cum` newlines before it: the first
page whose newlines reach `line`, unless a page is missing or not scanned. -/
def walk (totalBytes line pos cum : ℕ) :
    List PageDescriptor → Except LineLookup (PageDescriptor × ℕ)
  | [] => .error (if totalBytes ≤ pos then .outOfRange else .pending)
  | d :: ds =>
    if totalBytes ≤ pos then .error .outOfRange
    else if d.start ≠ pos ∨ d.scanState ≠ .scanned then .error .pending
    else if line ≤ cum + d.newlineCount then .ok (d, cum)
    else walk totalBytes line d.end_ (cum + d.newlineCount) ds

/-- The totals are those of the scanned descriptors, and a lookup finds what the walk finds. -/
structure PageIndex.Aggregates (index : PageIndex) : Prop where
  newlines : index.scannedNewlinesTotal = scannedNewlines index.descriptors
  bytes : index.scannedBytes = scannedLen index.descriptors
  find : ∀ line, index.findPageForLine line
    = some (walk index.totalBytes line 0 0 index.descriptors)

/-- Ranges of pages of a file, which are not empty and do not overlap. -/
structure PageRanges (totalBytes : ℕ) (ds : List PageDescriptor) : Prop where
  lt : ∀ d ∈ ds, d.start < d.end_
  le : ∀ d ∈ ds, d.end_ ≤ totalBytes
  apart : ∀ d ∈ ds, ∀ d' ∈ ds, d.start < d'.start → d.end_ ≤ d'.start
  same : ∀ d ∈ ds, ∀ d' ∈ ds, d.start = d'.start → d.end_ = d'.end_

/-- All bytes before `pos` lie in scanned pages. -/
def ScannedTo (ds : List PageDescriptor) (pos : ℕ) : Prop :=
  ∀ i < pos, ∃ d ∈ ds, d.scanState = .scanned ∧ d.start ≤ i ∧ i < d.end_

/-- If the first page is scanned then it starts the file, and every scanned page with newlines has
only scanned pages before it. -/
def Connected (ds : List PageDescriptor) : Prop :=
  ∀ first ∈ ds.head?, first.scanState = .scanned →
    first.start = 0 ∧ ∀ d ∈ ds, d.scanState = .scanned → 0 < d.newlineCount → ScannedTo ds d.start

/-- A scanned page stays scanned and keeps its newlines. -/
def KeepsScanned (ds : List PageDescriptor) (desc : PageDescriptor) : Prop :=
  ∀ d ∈ ds, d.start = desc.start → d.scanState = .scanned →
    desc.scanState = .scanned ∧ d.newlineCount ≤ desc.newlineCount

/-- The descriptors after some inserts. -/
def inserted (descs : List PageDescriptor) : List PageDescriptor :=
  descs.foldl (fun ds desc ↦ PageIndex.insertDescriptor desc ds) []

/-- Every insert keeps what was scanned and leaves the scanned pages connected. -/
def Steady (descs : List PageDescriptor) : Prop :=
  ∀ pre desc, pre ++ [desc] <+: descs →
    KeepsScanned (inserted pre) desc ∧ Connected (inserted (pre ++ [desc]))

/-- The index after some inserts. -/
def PageIndex.afterInserts (totalBytes : ℕ) (descs : List PageDescriptor) : PageIndex :=
  descs.foldl PageIndex.insert (.new totalBytes)

/-! ## The contiguous run -/

/-- The scanned pages that follow each other from `pos` on. -/
def contiguous (pos : ℕ) : List PageDescriptor → List PageDescriptor
  | [] => []
  | d :: ds => if d.start = pos ∧ d.scanState = .scanned then d :: contiguous d.end_ ds else []

/-- Where a run of pages ends. -/
def endOf (pos : ℕ) : List PageDescriptor → ℕ
  | [] => pos
  | d :: ds => endOf d.end_ ds

section

variable {pos cum total line : ℕ} {ds : List PageDescriptor} {d : PageDescriptor}

theorem newlines_cons (d : PageDescriptor) (ds : List PageDescriptor) :
    newlines (d :: ds) = d.newlineCount + newlines ds := rfl

theorem contiguous_of_run (h : d.start = pos ∧ d.scanState = .scanned) :
    contiguous pos (d :: ds) = d :: contiguous d.end_ ds := if_pos h

theorem contiguous_of_stop (h : ¬ (d.start = pos ∧ d.scanState = .scanned)) :
    contiguous pos (d :: ds) = [] := if_neg h

theorem scanned_of_mem_contiguous (h : d ∈ contiguous pos ds) : d.scanState = .scanned := by
  induction ds generalizing pos with
  | nil => cases h
  | cons e ds ih =>
    by_cases he : e.start = pos ∧ e.scanState = .scanned
    · rw [contiguous_of_run he] at h
      rcases List.mem_cons.mp h with rfl | h
      · exact he.2
      · exact ih h
    · rw [contiguous_of_stop he] at h
      cases h

/-- The run is followed by nothing, or by a page that does not go on with it. -/
theorem exists_rest (pos : ℕ) (ds : List PageDescriptor) :
    ∃ rest, ds = contiguous pos ds ++ rest ∧ ∀ d ∈ rest.head?,
      ¬ (d.start = endOf pos (contiguous pos ds) ∧ d.scanState = .scanned) := by
  induction ds generalizing pos with
  | nil => exact ⟨[], rfl, by simp⟩
  | cons e ds ih =>
    by_cases he : e.start = pos ∧ e.scanState = .scanned
    · rw [contiguous_of_run he]
      obtain ⟨rest, hds, hstop⟩ := ih e.end_
      exact ⟨rest, by rw [List.cons_append, ← hds], hstop⟩
    · rw [contiguous_of_stop he]
      refine ⟨e :: ds, rfl, fun d hd ↦ ?_⟩
      obtain rfl : e = d := by simpa using hd
      exact he

theorem scannedNewlines_append (ds ds' : List PageDescriptor) :
    scannedNewlines (ds ++ ds') = scannedNewlines ds + scannedNewlines ds' := by
  simp [scannedNewlines]

theorem scannedNewlines_of_scanned (h : ∀ d ∈ ds, d.scanState = .scanned) :
    scannedNewlines ds = newlines ds := by
  rw [scannedNewlines, List.filter_eq_self.mpr fun d hd ↦ by simpa using h d hd, newlines]

theorem scannedNewlines_contiguous (pos : ℕ) (ds : List PageDescriptor) :
    scannedNewlines (contiguous pos ds) = newlines (contiguous pos ds) :=
  scannedNewlines_of_scanned fun _ ↦ scanned_of_mem_contiguous

/-- No newlines are scanned exactly when no scanned page has any. -/
theorem scannedNewlines_eq_zero :
    scannedNewlines ds = 0 ↔ ∀ d ∈ ds, d.scanState = .scanned → d.newlineCount = 0 := by
  rw [scannedNewlines, List.sum_eq_zero_iff_forall_eq_nat, List.forall_mem_map]
  simp

/-! ## The walk -/

theorem walk_ok (hlt : ∀ d ∈ ds, d.start < total) {j : ℕ}
    (hd : (contiguous pos ds)[j]? = some d)
    (hlo : j = 0 ∨ cum + newlines ((contiguous pos ds).take j) < line)
    (hhi : line ≤ cum + newlines ((contiguous pos ds).take (j + 1))) :
    walk total line pos cum ds = .ok (d, cum + newlines ((contiguous pos ds).take j)) := by
  induction ds generalizing pos cum j with
  | nil => cases hd
  | cons e ds ih =>
    by_cases he : e.start = pos ∧ e.scanState = .scanned
    · have hpos : ¬ total ≤ pos := not_le.mpr (he.1 ▸ hlt e List.mem_cons_self)
      have hgo : ¬ (e.start ≠ pos ∨ e.scanState ≠ .scanned) := by simp [he]
      rw [contiguous_of_run he] at hd hlo hhi ⊢
      rw [walk, if_neg hpos, if_neg hgo]
      cases j with
      | zero =>
        obtain rfl : e = d := by simpa using hd
        rw [List.take_succ_cons, newlines_cons] at hhi
        exact if_pos hhi
      | succ j =>
        rw [List.getElem?_cons_succ] at hd
        rw [List.take_succ_cons, newlines_cons, ← Nat.add_assoc] at hlo hhi ⊢
        rw [if_neg (by omega)]
        exact ih (fun d hd ↦ hlt d (List.mem_cons_of_mem _ hd)) hd
          (.inr (hlo.resolve_left (Nat.succ_ne_zero j))) hhi
    · rw [contiguous_of_stop he] at hd
      cases hd

/-- Past the run the walk ends the file or meets a page that is missing or not scanned. -/
theorem walk_beyond (hlt : ∀ d ∈ ds, d.start < total)
    (h : contiguous pos ds = [] ∨ cum + newlines (contiguous pos ds) < line) :
    walk total line pos cum ds
      = .error (if total ≤ endOf pos (contiguous pos ds) then .outOfRange else .pending) := by
  induction ds generalizing pos cum with
  | nil => rfl
  | cons e ds ih =>
    by_cases he : e.start = pos ∧ e.scanState = .scanned
    · have hpos : ¬ total ≤ pos := not_le.mpr (he.1 ▸ hlt e List.mem_cons_self)
      have hgo : ¬ (e.start ≠ pos ∨ e.scanState ≠ .scanned) := by simp [he]
      rw [contiguous_of_run he] at h ⊢
      have h := h.resolve_left (List.cons_ne_nil _ _)
      rw [newlines_cons, ← Nat.add_assoc] at h
      rw [walk, if_neg hpos, if_neg hgo, if_neg (by omega)]
      exact ih (fun d hd ↦ hlt d (List.mem_cons_of_mem _ hd)) (.inr h)
    · have hstop : e.start ≠ pos ∨ e.scanState ≠ .scanned := by
        rwa [not_and_or] at he
      rw [contiguous_of_stop he, walk, if_pos hstop]
      change _ = Except.error (if total ≤ pos then _ else _)
      split_ifs <;> rfl

/-! ## What the run covers -/

/-- The scanned bytes reach the end of the file exactly when the run does. -/
theorem le_scannedLen_iff (hchain : ds.Pairwise (·.end_ ≤ ·.start))
    (hlt : ∀ d ∈ ds, d.start < d.end_) (hle : ∀ d ∈ ds, d.end_ ≤ total)
    (hpos : ∀ d ∈ ds, pos ≤ d.start) (hpt : pos ≤ total) :
    pos + scannedLen ds ≤ total ∧
      (total ≤ pos + scannedLen ds ↔ total ≤ endOf pos (contiguous pos ds)) := by
  induction ds generalizing pos with
  | nil => exact ⟨hpt, Iff.rfl⟩
  | cons e ds ih =>
    obtain ⟨he, hchain⟩ := List.pairwise_cons.mp hchain
    have hlt' := hlt e List.mem_cons_self
    have hle' := hle e List.mem_cons_self
    have hpos' := hpos e List.mem_cons_self
    obtain ⟨hbound, hiff⟩ := ih hchain
      (fun d hd ↦ hlt d (List.mem_cons_of_mem _ hd)) (fun d hd ↦ hle d (List.mem_cons_of_mem _ hd))
      he hle'
    have hlen : scannedLen (e :: ds)
        = (if e.scanState = .scanned then e.end_ - e.start else 0) + scannedLen ds := by
      by_cases hs : e.scanState = .scanned <;> simp [scannedLen, hs]
    by_cases hrun : e.start = pos ∧ e.scanState = .scanned
    · rw [contiguous_of_run hrun, hlen, if_pos hrun.2]
      change _ ∧ (_ ↔ total ≤ endOf e.end_ (contiguous e.end_ ds))
      rw [← hiff]
      obtain ⟨hstart, -⟩ := hrun
      omega
    · rw [contiguous_of_stop hrun, hlen]
      change _ ∧ (_ ↔ total ≤ pos)
      split_ifs with hs
      · have hne : e.start ≠ pos := fun heq ↦ hrun ⟨heq, hs⟩
        omega
      · omega

theorem endOf_mem (h : contiguous pos ds ≠ []) :
    ∃ d ∈ contiguous pos ds, endOf pos (contiguous pos ds) = d.end_ := by
  induction ds generalizing pos with
  | nil => exact absurd rfl h
  | cons e ds ih =>
    by_cases he : e.start = pos ∧ e.scanState = .scanned
    · rw [contiguous_of_run he]
      by_cases hnil : contiguous e.end_ ds = []
      · exact ⟨e, List.mem_cons_self, by rw [hnil]; rfl⟩
      · obtain ⟨d, hd, hend⟩ := ih hnil
        exact ⟨d, List.mem_cons_of_mem _ hd, hend⟩
    · exact absurd (contiguous_of_stop he) h

theorem le_endOf (hlt : ∀ d ∈ ds, d.start < d.end_) : pos ≤ endOf pos (contiguous pos ds) := by
  induction ds generalizing pos with
  | nil => exact le_rfl
  | cons e ds ih =>
    by_cases he : e.start = pos ∧ e.scanState = .scanned
    · rw [contiguous_of_run he]
      have := hlt e List.mem_cons_self
      have : e.end_ ≤ endOf e.end_ (contiguous e.end_ ds) :=
        ih fun d hd ↦ hlt d (List.mem_cons_of_mem _ hd)
      change pos ≤ endOf e.end_ (contiguous e.end_ ds)
      omega
    · rw [contiguous_of_stop he]
      exact le_rfl

theorem end_le_endOf (hlt : ∀ d ∈ ds, d.start < d.end_) (h : d ∈ contiguous pos ds) :
    d.end_ ≤ endOf pos (contiguous pos ds) := by
  induction ds generalizing pos with
  | nil => cases h
  | cons e ds ih =>
    by_cases he : e.start = pos ∧ e.scanState = .scanned
    · rw [contiguous_of_run he] at h ⊢
      rcases List.mem_cons.mp h with rfl | h
      · exact le_endOf fun d hd ↦ hlt d (List.mem_cons_of_mem _ hd)
      · exact ih (fun d hd ↦ hlt d (List.mem_cons_of_mem _ hd)) h
    · rw [contiguous_of_stop he] at h
      cases h

/-- The run covers all bytes up to its end, and its pages end there. -/
theorem run_covers (hlt : ∀ d ∈ ds, d.start < d.end_) {i : ℕ} (hlo : pos ≤ i)
    (hhi : i < endOf pos (contiguous pos ds)) :
    ∃ d ∈ contiguous pos ds, d.start ≤ i ∧ i < d.end_ := by
  induction ds generalizing pos with
  | nil => exact absurd hhi (not_lt.mpr hlo)
  | cons e ds ih =>
    by_cases he : e.start = pos ∧ e.scanState = .scanned
    · rw [contiguous_of_run he] at hhi ⊢
      rcases Nat.lt_or_ge i e.end_ with h | h
      · exact ⟨e, List.mem_cons_self, he.1 ▸ hlo, h⟩
      · obtain ⟨d, hd, hi⟩ := ih (fun d hd ↦ hlt d (List.mem_cons_of_mem _ hd)) h hhi
        exact ⟨d, List.mem_cons_of_mem _ hd, hi⟩
    · rw [contiguous_of_stop he] at hhi
      exact absurd hhi (not_lt.mpr hlo)

theorem mem_of_mem_contiguous (h : d ∈ contiguous pos ds) : d ∈ ds := by
  obtain ⟨rest, hds, -⟩ := exists_rest pos ds
  rw [hds]
  exact List.mem_append_left _ h

/-- A page behind scanned bytes only belongs to the run. -/
theorem mem_contiguous_of_scannedTo (hchain : ds.Pairwise (·.end_ ≤ ·.start))
    (hlt : ∀ d ∈ ds, d.start < d.end_) (hd : d ∈ ds) (hs : d.scanState = .scanned)
    (hto : ScannedTo ds d.start) : d ∈ contiguous 0 ds := by
  obtain ⟨rest, hds, hstop⟩ := exists_rest 0 ds
  rw [hds, List.mem_append] at hd
  refine hd.resolve_right fun hrest ↦ ?_
  obtain ⟨h, tail, rfl⟩ : ∃ h tail, rest = h :: tail := List.exists_cons_of_ne_nil (by
    rintro rfl
    cases hrest)
  have hpair := hds ▸ hchain
  obtain ⟨-, htail, hcross⟩ := List.pairwise_append.mp hpair
  have hhead := (List.pairwise_cons.mp htail).1
  have hhlt : h.start < h.end_ := hlt h (by rw [hds]; simp)
  -- the run ends before the page that stops it
  have hend : endOf 0 (contiguous 0 ds) ≤ h.start := by
    by_cases hnil : contiguous 0 ds = []
    · rw [hnil]
      exact Nat.zero_le _
    · obtain ⟨e, he, hend⟩ := endOf_mem hnil
      rw [hend]
      exact hcross e he h List.mem_cons_self
  have hfirst : ∀ e ∈ h :: tail, e.scanState = .scanned → endOf 0 (contiguous 0 ds) < e.start := by
    intro e he hes
    have hne := hstop h rfl
    rcases List.mem_cons.mp he with rfl | he
    · exact hend.lt_of_ne fun heq ↦ hne ⟨heq.symm, hes⟩
    · have := hhead e he
      omega
  obtain ⟨e, he, hes, hlo, hhi⟩ := hto (endOf 0 (contiguous 0 ds)) (hfirst d hrest hs)
  rw [hds, List.mem_append] at he
  rcases he with he | he
  · have hle := end_le_endOf hlt he
    omega
  · have := hfirst e he hes
    omega

/-- A page of the run has only scanned pages before it. -/
theorem scannedTo_of_mem_contiguous (hlt : ∀ d ∈ ds, d.start < d.end_)
    (hd : d ∈ contiguous 0 ds) : ScannedTo ds d.start := by
  intro i hi
  have hend := end_le_endOf hlt hd
  have hdlt := hlt d (mem_of_mem_contiguous hd)
  obtain ⟨e, he, hlo, hhi⟩ := run_covers hlt (Nat.zero_le i) (by omega)
  exact ⟨e, mem_of_mem_contiguous he, scanned_of_mem_contiguous he, hlo, hhi⟩

/-- The scanned pages are connected when the newlines are all in the run. -/
theorem connected_iff (hchain : ds.Pairwise (·.end_ ≤ ·.start)) (hlt : ∀ d ∈ ds, d.start < d.end_) :
    Connected ds ↔ ∀ first ∈ ds.head?, first.scanState = .scanned →
      contiguous 0 ds ≠ [] ∧ scannedNewlines ds ≤ newlines (contiguous 0 ds) := by
  obtain ⟨rest, hds, -⟩ := exists_rest 0 ds
  have hsum : scannedNewlines ds = newlines (contiguous 0 ds) + scannedNewlines rest := by
    conv_lhs => rw [hds]
    rw [scannedNewlines_append, scannedNewlines_contiguous]
  refine forall_congr' fun first ↦ forall_congr' fun hfirst ↦ forall_congr' fun hs ↦ ?_
  obtain ⟨tail, htail⟩ : ∃ tail, ds = first :: tail := by
    cases ds with
    | nil => cases hfirst
    | cons e ds => exact ⟨ds, by rw [Option.some.inj hfirst]⟩
  constructor
  · rintro ⟨h0, hall⟩
    have hne : contiguous 0 ds ≠ [] := by
      rw [htail, contiguous_of_run ⟨h0, hs⟩]
      exact List.cons_ne_nil _ _
    have hrest : scannedNewlines rest = 0 := by
      rw [scannedNewlines_eq_zero]
      intro d hd hds'
      by_contra hcount
      have hmem : d ∈ ds := by
        rw [hds]
        exact List.mem_append_right _ hd
      have hrun := mem_contiguous_of_scannedTo hchain hlt hmem hds'
        (hall d hmem hds' (Nat.pos_of_ne_zero hcount))
      -- a page of the run is not in the rest
      have hpair := (List.pairwise_append.mp (hds ▸ hchain)).2.2 d hrun d hd
      have := hlt d hmem
      omega
    exact ⟨hne, by omega⟩
  · rintro ⟨hne, hle⟩
    have h0 : first.start = 0 := by
      by_contra hstart
      rw [htail, contiguous_of_stop fun h ↦ hstart h.1] at hne
      exact hne rfl
    refine ⟨h0, fun d hd hds' hcount ↦ ?_⟩
    have hrest : scannedNewlines rest = 0 := by omega
    rw [hds, List.mem_append] at hd
    refine scannedTo_of_mem_contiguous hlt (hd.resolve_right fun hd ↦ ?_)
    have := scannedNewlines_eq_zero.mp hrest d hd hds'
    omega

end

/-! ## Lookups -/

namespace PageIndex

variable {index : PageIndex} {total line : ℕ}

/-- The table lists the run, and behind it only pages that add nothing. -/
structure Table (index : PageIndex) : Prop where
  entries : ∃ extra, index.linesPrefix = prefixFrom 0 (contiguous 0 index.descriptors) ++ extra ∧
    (∀ e ∈ extra, e.2 = newlines (contiguous 0 index.descriptors)) ∧
    (contiguous 0 index.descriptors = [] → extra = [])
  total_eq : contiguous 0 index.descriptors ≠ [] →
    index.scannedNewlinesTotal = newlines (contiguous 0 index.descriptors)

/-- An index whose pages do not overlap, whose totals are right and whose table fits. -/
structure Tidy (total : ℕ) (index : PageIndex) : Prop where
  sorted : index.descriptors.Pairwise (·.start < ·.start)
  ranges : PageRanges total index.descriptors
  totalBytes_eq : index.totalBytes = total
  newlines_eq : index.scannedNewlinesTotal = scannedNewlines index.descriptors
  bytes_eq : index.scannedBytes = scannedLen index.descriptors
  connected : Connected index.descriptors
  table : index.Table

theorem chain_of_ranges {ds : List PageDescriptor} (hsorted : ds.Pairwise (·.start < ·.start))
    (h : PageRanges total ds) : ds.Pairwise (·.end_ ≤ ·.start) :=
  hsorted.imp_of_mem fun ha hb hlt ↦ h.apart _ ha _ hb hlt

theorem Table.pageEnd_eq (h : index.Table) (hne : contiguous 0 index.descriptors ≠ []) (i : ℕ) :
    index.pageEnd i = newlines ((contiguous 0 index.descriptors).take (i + 1)) := by
  have hscanned : ∀ d ∈ contiguous 0 index.descriptors, d.scanState = .scanned :=
    fun d ↦ scanned_of_mem_contiguous
  obtain ⟨extra, hentries, hextra, -⟩ := h.entries
  have hlen := length_prefixFrom hscanned 0
  rw [pageEnd, hentries]
  rcases Nat.lt_or_ge (i + 1) (contiguous 0 index.descriptors).length with hlt | hge
  · rw [List.getElem?_append_left (hlen.symm ▸ hlt), getElem?_prefixFrom hscanned,
      List.getElem?_eq_getElem hlt]
    exact Nat.zero_add _
  · rw [List.getElem?_append_right (hlen.symm ▸ hge), List.take_of_length_le hge]
    cases hget : extra[i + 1 - (prefixFrom 0 (contiguous 0 index.descriptors)).length]? with
    | none => exact h.total_eq hne
    | some e => exact hextra e (List.mem_of_getElem? hget)

theorem find?_start_of_sorted {ds : List PageDescriptor} {d : PageDescriptor}
    (h : ds.Pairwise (·.start < ·.start)) (hd : d ∈ ds) :
    ds.find? (·.start = d.start) = some d := by
  induction ds with
  | nil => cases hd
  | cons e ds ih =>
    obtain ⟨he, hds⟩ := List.pairwise_cons.mp h
    rcases List.mem_cons.mp hd with rfl | hd
    · simp
    · rw [List.find?_cons_of_neg (by simpa using (he d hd).ne), ih hds hd]

/-- A line that the total reaches is never beyond a table with entries. -/
theorem findPageForLine_ne_error {index : PageIndex} (hne : index.linesPrefix ≠ []) {line : ℕ}
    (hline : line ≤ index.scannedNewlinesTotal) (lookup : LineLookup) :
    index.findPageForLine line ≠ some (.error lookup) := by
  have hlen : index.linesPrefix.length ≠ 0 := fun h ↦ hne (List.eq_nil_of_length_eq_zero h)
  rw [findPageForLine, if_neg hlen]
  obtain ⟨hbefore, -⟩ := lowerBound_spec (fun i ↦ decide (index.pageEnd i < line))
    (n := index.linesPrefix.length) index.linesPrefix.length 0 index.linesPrefix.length
    (Nat.sub_le _ _) (Nat.zero_le _) le_rfl (.inl rfl) (.inl rfl)
  generalize lowerBound (fun i ↦ decide (index.pageEnd i < line))
    index.linesPrefix.length 0 index.linesPrefix.length = lo at hbefore ⊢
  dsimp only
  cases hentry : index.linesPrefix[lo]? with
  | some entry =>
    dsimp only
    cases index.descriptors.find? (·.start = entry.1) with
    | none => simp
    | some page => simp
  | none =>
    -- the last entry ends at the total, which reaches the line
    have hge := List.getElem?_eq_none_iff.mp hentry
    have hbelow := hbefore.resolve_left (by omega)
    have hnext : index.linesPrefix[lo - 1 + 1]? = none := by
      rwa [Nat.sub_add_cancel (by omega)]
    rw [decide_eq_true_iff, pageEnd, hnext] at hbelow
    dsimp only at hbelow
    omega

/-- A lookup in an index that fits finds what the walk finds. -/
theorem Tidy.find_eq (h : Tidy total index) (line : ℕ) :
    index.findPageForLine line = some (walk index.totalBytes line 0 0 index.descriptors) := by
  have hchain := chain_of_ranges h.sorted h.ranges
  have hstart : ∀ d ∈ index.descriptors, d.start < index.totalBytes := fun d hd ↦ by
    rw [h.totalBytes_eq]
    exact lt_of_lt_of_le (h.ranges.lt d hd) (h.ranges.le d hd)
  have hcomplete : index.isComplete
      = decide (index.totalBytes ≤ endOf 0 (contiguous 0 index.descriptors)) := by
    have hiff := (le_scannedLen_iff hchain h.ranges.lt h.ranges.le (fun d _ ↦ Nat.zero_le _)
      (Nat.zero_le total)).2
    rw [Nat.zero_add] at hiff
    rw [isComplete, h.bytes_eq, h.totalBytes_eq]
    exact decide_eq_decide.mpr hiff
  have hbeyond : (if index.isComplete then LineLookup.outOfRange else .pending)
      = if index.totalBytes ≤ endOf 0 (contiguous 0 index.descriptors) then .outOfRange
        else .pending := by
    rw [hcomplete]
    simp only [decide_eq_true_eq]
  obtain ⟨extra, hentries, hextra, hnil⟩ := h.table.entries
  have hscanned : ∀ d ∈ contiguous 0 index.descriptors, d.scanState = .scanned :=
    fun d ↦ scanned_of_mem_contiguous
  have hlen := length_prefixFrom hscanned 0
  rw [findPageForLine]
  by_cases hrun : contiguous 0 index.descriptors = []
  · have hempty : index.linesPrefix = [] := by rw [hentries, hrun, hnil hrun]; rfl
    rw [hempty, List.length_nil, if_pos rfl, walk_beyond hstart (.inl hrun), hbeyond]
  · have hne : index.linesPrefix.length ≠ 0 := by
      rw [hentries, List.length_append, hlen]
      have := List.length_pos_iff.mpr hrun
      omega
    rw [if_neg hne]
    obtain ⟨hbefore, hat⟩ := lowerBound_spec (fun i ↦ decide (index.pageEnd i < line))
      (n := index.linesPrefix.length) index.linesPrefix.length 0 index.linesPrefix.length
      (Nat.sub_le _ _) (Nat.zero_le _) le_rfl (.inl rfl) (.inl rfl)
    generalize lowerBound (fun i ↦ decide (index.pageEnd i < line))
      index.linesPrefix.length 0 index.linesPrefix.length = lo at hbefore hat ⊢
    simp only [h.table.pageEnd_eq hrun, decide_eq_true_iff, decide_eq_false_iff_not, not_lt]
      at hbefore hat
    dsimp only
    rcases Nat.lt_or_ge lo (contiguous 0 index.descriptors).length with hlt | hge
    · -- the search ends in the run, at the first page whose newlines reach the line
      have hd := List.getElem?_eq_getElem hlt
      generalize (contiguous 0 index.descriptors)[lo] = d at hd
      have hentry : index.linesPrefix[lo]?
          = some (d.start, newlines ((contiguous 0 index.descriptors).take lo)) := by
        rw [hentries, List.getElem?_append_left (hlen.symm ▸ hlt), getElem?_prefixFrom hscanned, hd,
          Option.map_some, Nat.zero_add]
      have hlo : lo = 0 ∨ 0 + newlines ((contiguous 0 index.descriptors).take lo) < line := by
        rcases hbefore with h0 | hbefore
        · exact .inl h0
        · cases lo with
          | zero => exact .inl rfl
          | succ lo =>
            rw [Nat.add_sub_cancel] at hbefore
            exact .inr (by rwa [Nat.zero_add])
      have hhi := hat.resolve_left fun hn ↦ by
        rw [hentries, List.length_append, hlen] at hn
        omega
      rw [hentry, walk_ok hstart hd hlo (by rwa [Nat.zero_add]), Nat.zero_add]
      dsimp only
      rw [find?_start_of_sorted h.sorted (mem_of_mem_contiguous (List.mem_of_getElem? hd)),
        Option.map_some]
    · -- the search passes the run, so it passes the whole table
      have hpos := List.length_pos_iff.mpr hrun
      have hpast : newlines (contiguous 0 index.descriptors) < line := by
        have hbefore := hbefore.resolve_left (by omega)
        rwa [Nat.sub_add_cancel (by omega), List.take_of_length_le hge] at hbefore
      have hn : lo = index.linesPrefix.length := hat.resolve_right fun hle ↦ by
        rw [List.take_of_length_le (by omega)] at hle
        omega
      rw [List.getElem?_eq_none hn.ge, walk_beyond hstart (.inr (by rwa [Nat.zero_add])), hbeyond]
      dsimp only
      split_ifs with hmore hend
      · -- the run reaches the end of the file, so no page is missing in the table
        obtain ⟨rest, hds, -⟩ := exists_rest 0 index.descriptors
        cases rest with
        | nil =>
          rw [List.append_nil] at hds
          rw [← hn, hds] at hmore
          omega
        | cons d rest =>
          obtain ⟨last, hlast, hlastend⟩ := endOf_mem hrun
          have hcross := (List.pairwise_append.mp (hds ▸ hchain)).2.2 last hlast d
            List.mem_cons_self
          have := hstart d (by rw [hds]; simp)
          omega
      · rfl
      · rfl
      · rfl

/-! ## Inserts -/

section

variable {ds : List PageDescriptor} {d desc : PageDescriptor}

/-- A total over descriptors loses what is replaced and gains what is inserted. -/
theorem sum_insertDescriptor (g : PageDescriptor → ℕ) (h : ds.Pairwise (·.start < ·.start)) :
    ((insertDescriptor desc ds).map g).sum
        + ((ds.find? (·.start = desc.start)).map g).getD 0
      = (ds.map g).sum + g desc := by
  induction ds with
  | nil => simp [insertDescriptor]
  | cons e ds ih =>
    obtain ⟨he, hds⟩ := List.pairwise_cons.mp h
    rw [insertDescriptor]
    split_ifs with hlt heq
    · have hnone : (e :: ds).find? (·.start = desc.start) = none := by
        rw [List.find?_eq_none]
        intro d hd
        rw [decide_eq_true_iff]
        rcases List.mem_cons.mp hd with rfl | hd
        · exact hlt.ne'
        · exact (hlt.trans (he d hd)).ne'
      rw [hnone, List.map_cons, List.sum_cons, Option.map_none, Option.getD_none, Nat.add_zero,
        Nat.add_comm]
    · rw [List.find?_cons_of_pos (by simpa using heq.symm), List.map_cons, List.sum_cons,
        List.map_cons, List.sum_cons, Option.map_some, Option.getD_some]
      omega
    · rw [List.find?_cons_of_neg (by simpa using Ne.symm heq), List.map_cons, List.sum_cons,
        List.map_cons, List.sum_cons]
      have := ih hds
      omega

/-- What a descriptor adds to a total over the scanned ones. -/
def scannedPart (g : PageDescriptor → ℕ) (d : PageDescriptor) : ℕ :=
  if d.scanState = .scanned then g d else 0

theorem sum_scannedPart (g : PageDescriptor → ℕ) (ds : List PageDescriptor) :
    ((ds.filter (·.scanState = .scanned)).map g).sum = (ds.map (scannedPart g)).sum := by
  induction ds with
  | nil => rfl
  | cons d ds ih =>
    by_cases hs : d.scanState = .scanned
    · rw [List.filter_cons_of_pos (by simpa using hs), List.map_cons, List.sum_cons, ih,
        List.map_cons, List.sum_cons, scannedPart, if_pos hs]
    · rw [List.filter_cons_of_neg (by simpa using hs), ih, List.map_cons, List.sum_cons,
        scannedPart, if_neg hs, Nat.zero_add]

/-- Either a scanned page is replaced or none is. -/
theorem replaced_cases (desc : PageDescriptor) (h : ds.Pairwise (·.start < ·.start)) :
    (∃ old ∈ ds, old.start = desc.start ∧ old.scanState = .scanned ∧
      ds.find? (·.start = desc.start) = some old) ∨
    ((∀ d ∈ ds, d.start = desc.start → d.scanState ≠ .scanned) ∧
      (ds.find? (·.start = desc.start)).any (·.scanState = .scanned) = false ∧
      ∀ g, ((ds.find? (·.start = desc.start)).map (scannedPart g)).getD 0 = 0) := by
  cases hfind : ds.find? (·.start = desc.start) with
  | none =>
    refine .inr ⟨fun d hd hstart ↦ ?_, rfl, fun g ↦ rfl⟩
    exact absurd hstart (by simpa using List.find?_eq_none.mp hfind d hd)
  | some old =>
    have hmem := List.mem_of_find?_eq_some hfind
    have hstart : old.start = desc.start := by simpa using List.find?_some hfind
    by_cases hs : old.scanState = .scanned
    · exact .inl ⟨old, hmem, hstart, hs, rfl⟩
    · refine .inr ⟨fun d hd hd' ↦ ?_, by simp [hs], fun g ↦ by simp [scannedPart, hs]⟩
      have hsame := find?_start_of_sorted h hd
      rw [hd', hfind] at hsame
      exact Option.some.inj hsame ▸ hs

theorem insert_total (index : PageIndex) (desc : PageDescriptor) :
    (index.insert desc).scannedNewlinesTotal =
      let old := index.descriptors.find? (·.start = desc.start)
      let oldCount := (old.map (·.newlineCount)).getD 0
      if desc.scanState = .scanned then index.scannedNewlinesTotal
        + if old.any (·.scanState = .scanned) then desc.newlineCount - oldCount
          else desc.newlineCount
      else if old.any (·.scanState = .scanned) then index.scannedNewlinesTotal - oldCount
      else index.scannedNewlinesTotal := by
  rw [insert]
  dsimp only
  split_ifs <;> rfl

theorem insert_bytes (index : PageIndex) (desc : PageDescriptor) :
    (index.insert desc).scannedBytes =
      let old := index.descriptors.find? (·.start = desc.start)
      if desc.scanState = .scanned ∧ old.any (·.scanState = .scanned) = false then
        index.scannedBytes + (desc.end_ - desc.start)
      else index.scannedBytes := by
  rw [insert]
  dsimp only
  split_ifs <;> simp_all

theorem insert_linesPrefix (index : PageIndex) (desc : PageDescriptor) :
    (index.insert desc).linesPrefix =
      let old := index.descriptors.find? (·.start = desc.start)
      if old.any (·.scanState = .scanned) = true ∨ desc.scanState = .scanned then
        prefixFrom 0 (insertDescriptor desc index.descriptors)
      else index.linesPrefix := by
  rw [insert]
  dsimp only
  split_ifs <;> simp_all

theorem insert_totalBytes (index : PageIndex) (desc : PageDescriptor) :
    (index.insert desc).totalBytes = index.totalBytes := by
  rw [insert]
  dsimp only
  split_ifs <;> rfl

/-- The old descriptor of a page counts in the totals for as long as it is scanned. -/
theorem sum_scanned_insertDescriptor (desc : PageDescriptor) (g : PageDescriptor → ℕ)
    (h : ds.Pairwise (·.start < ·.start)) :
    (((insertDescriptor desc ds).filter (·.scanState = .scanned)).map g).sum
        + ((ds.find? (·.start = desc.start)).map (scannedPart g)).getD 0
      = ((ds.filter (·.scanState = .scanned)).map g).sum + scannedPart g desc := by
  rw [sum_scannedPart, sum_scannedPart]
  exact sum_insertDescriptor _ h

/-- A page that is not scanned leaves the run as it is. -/
theorem contiguous_insertDescriptor {pos : ℕ} (h : ds.Pairwise (·.start < ·.start))
    (hdesc : desc.scanState ≠ .scanned)
    (hold : ∀ d ∈ ds, d.start = desc.start → d.scanState ≠ .scanned)
    (hapart : ∀ d ∈ ds, d.start < desc.start → d.end_ ≤ desc.start) (hpos : pos ≤ desc.start) :
    contiguous pos (insertDescriptor desc ds) = contiguous pos ds := by
  induction ds generalizing pos with
  | nil => exact contiguous_of_stop fun h ↦ hdesc h.2
  | cons e ds ih =>
    obtain ⟨he, hds⟩ := List.pairwise_cons.mp h
    rw [insertDescriptor]
    split_ifs with hlt heq
    · rw [contiguous_of_stop fun h ↦ hdesc h.2, contiguous_of_stop fun h ↦ ?_]
      omega
    · rw [contiguous_of_stop fun h ↦ hdesc h.2,
        contiguous_of_stop fun h ↦ hold e List.mem_cons_self heq.symm h.2]
    · have hlt' : e.start < desc.start := by omega
      by_cases hrun : e.start = pos ∧ e.scanState = .scanned
      · rw [contiguous_of_run hrun, contiguous_of_run hrun,
          ih hds (fun d hd ↦ hold d (List.mem_cons_of_mem _ hd))
            (fun d hd ↦ hapart d (List.mem_cons_of_mem _ hd))
            (hapart e List.mem_cons_self hlt')]
      · rw [contiguous_of_stop hrun, contiguous_of_stop hrun]

theorem ranges_insertDescriptor {total : ℕ} (hsorted : ds.Pairwise (·.start < ·.start))
    (h : PageRanges total (desc :: ds)) : PageRanges total (insertDescriptor desc ds) := by
  have hmem : ∀ d ∈ PageIndex.insertDescriptor desc ds, d ∈ desc :: ds := fun d hd ↦ by
    rcases (mem_insertDescriptor_iff hsorted).mp hd with rfl | ⟨hd, -⟩
    · exact List.mem_cons_self
    · exact List.mem_cons_of_mem _ hd
  exact ⟨fun d hd ↦ h.lt d (hmem d hd), fun d hd ↦ h.le d (hmem d hd),
    fun d hd d' hd' ↦ h.apart d (hmem d hd) d' (hmem d' hd'),
    fun d hd d' hd' ↦ h.same d (hmem d hd) d' (hmem d' hd')⟩

/-- The table over the pages from the first one on: the run, and then pages without newlines. -/
theorem prefixFrom_append (cum : ℕ) (hds : ∀ d ∈ ds, d.scanState = .scanned)
    (rest : List PageDescriptor) :
    prefixFrom cum (ds ++ rest) = prefixFrom cum ds ++ prefixFrom (cum + newlines ds) rest := by
  induction ds generalizing cum with
  | nil => rfl
  | cons d ds ih =>
    have hd := hds d List.mem_cons_self
    rw [List.cons_append, prefixFrom, if_pos hd, prefixFrom, if_pos hd,
      ih _ fun d hd ↦ hds d (List.mem_cons_of_mem _ hd), newlines_cons, Nat.add_assoc]
    rfl

theorem snd_of_mem_prefixFrom {cum : ℕ} (h : scannedNewlines ds = 0) {e : ℕ × ℕ}
    (he : e ∈ prefixFrom cum ds) : e.2 = cum := by
  induction ds generalizing cum with
  | nil => cases he
  | cons d ds ih =>
    rw [scannedNewlines_eq_zero] at h
    rw [prefixFrom] at he
    split_ifs at he with hs
    · rw [h d List.mem_cons_self hs] at he
      rcases List.mem_cons.mp he with rfl | he
      · rfl
      · exact ih (scannedNewlines_eq_zero.mpr fun d hd ↦ h d (List.mem_cons_of_mem _ hd)) he
    · cases he

end

/-- A table built anew fits when the scanned pages are connected. -/
theorem table_of_rebuild {index : PageIndex}
    (hchain : index.descriptors.Pairwise (·.end_ ≤ ·.start))
    (hlt : ∀ d ∈ index.descriptors, d.start < d.end_)
    (hpref : index.linesPrefix = prefixFrom 0 index.descriptors)
    (htotal : index.scannedNewlinesTotal = scannedNewlines index.descriptors)
    (hconn : Connected index.descriptors) : index.Table := by
  obtain ⟨rest, hds, -⟩ := exists_rest 0 index.descriptors
  have hsum : scannedNewlines index.descriptors
      = newlines (contiguous 0 index.descriptors) + scannedNewlines rest := by
    conv_lhs => rw [hds]
    rw [scannedNewlines_append, scannedNewlines_contiguous]
  rw [connected_iff hchain hlt] at hconn
  by_cases hrun : contiguous 0 index.descriptors = []
  · have hempty : index.linesPrefix = [] := by
      rw [hpref]
      cases hdesc : index.descriptors with
      | nil => rfl
      | cons first tail =>
        have hs : first.scanState ≠ .scanned := fun hs ↦
          (hconn first (by rw [hdesc]; rfl) hs).1 hrun
        rw [prefixFrom, if_neg hs]
    exact ⟨⟨[], by rw [hempty, hrun]; rfl, by simp, fun _ ↦ rfl⟩, fun h ↦ absurd hrun h⟩
  · obtain ⟨first, hfirst, hs⟩ : ∃ first ∈ index.descriptors.head?,
        first.scanState = .scanned := by
      cases hdesc : index.descriptors with
      | nil =>
        rw [hdesc] at hrun
        exact absurd rfl hrun
      | cons first tail =>
        refine ⟨first, rfl, ?_⟩
        by_contra hs
        rw [hdesc, contiguous_of_stop fun h ↦ hs h.2] at hrun
        exact hrun rfl
    have hle := (hconn first hfirst hs).2
    refine ⟨⟨prefixFrom (newlines (contiguous 0 index.descriptors)) rest, ?_,
      fun e he ↦ snd_of_mem_prefixFrom (by omega) he, fun h ↦ absurd h hrun⟩, fun _ ↦ by omega⟩
    rw [hpref]
    conv_lhs => rw [hds]
    rw [prefixFrom_append _ fun d ↦ scanned_of_mem_contiguous, Nat.zero_add]

namespace Tidy

variable {index : PageIndex} {desc : PageDescriptor} {total : ℕ}

theorem aggregates (h : Tidy total index) : index.Aggregates :=
  ⟨h.newlines_eq, h.bytes_eq, h.find_eq⟩

theorem new (total : ℕ) : Tidy total (.new total) where
  sorted := .nil
  ranges := ⟨by simp [PageIndex.new], by simp [PageIndex.new], by simp [PageIndex.new],
    by simp [PageIndex.new]⟩
  totalBytes_eq := rfl
  newlines_eq := rfl
  bytes_eq := rfl
  connected := by simp [Connected, PageIndex.new]
  table := ⟨⟨[], rfl, by simp, fun _ ↦ rfl⟩, fun h ↦ absurd rfl h⟩

/-- The total of newlines after an insert that keeps what was scanned. -/
theorem insert_newlines_eq (h : Tidy total index) (hkeeps : KeepsScanned index.descriptors desc) :
    (index.insert desc).scannedNewlinesTotal
      = scannedNewlines (insertDescriptor desc index.descriptors) := by
  have hsum := sum_scanned_insertDescriptor desc (·.newlineCount) h.sorted
  change scannedNewlines (insertDescriptor desc index.descriptors) + _
    = scannedNewlines index.descriptors + _ at hsum
  rw [insert_total, h.newlines_eq]
  dsimp only
  rcases replaced_cases desc h.sorted with ⟨old, hold, hstart, hs, hfind⟩ | ⟨-, hany, hzero⟩
  · obtain ⟨hdesc, hle⟩ := hkeeps old hold hstart hs
    rw [hfind] at hsum ⊢
    simp only [Option.map_some, Option.getD_some, scannedPart, hs, hdesc, if_true,
      Option.any_some, decide_true] at hsum ⊢
    omega
  · rw [hzero] at hsum
    rw [hany]
    simp only [Bool.false_eq_true, if_false]
    rw [scannedPart] at hsum
    split_ifs at hsum ⊢ <;> omega

theorem insert_bytes_eq (h : Tidy total index)
    (hranges : PageRanges total (desc :: index.descriptors))
    (hkeeps : KeepsScanned index.descriptors desc) :
    (index.insert desc).scannedBytes
      = scannedLen (insertDescriptor desc index.descriptors) := by
  have hsum := sum_scanned_insertDescriptor desc (fun d ↦ d.end_ - d.start) h.sorted
  change scannedLen (insertDescriptor desc index.descriptors) + _
    = scannedLen index.descriptors + _ at hsum
  rw [insert_bytes, h.bytes_eq]
  dsimp only
  rcases replaced_cases desc h.sorted with ⟨old, hold, hstart, hs, hfind⟩ | ⟨-, hany, hzero⟩
  · obtain ⟨hdesc, hle⟩ := hkeeps old hold hstart hs
    have hend := hranges.same old (List.mem_cons_of_mem _ hold) desc List.mem_cons_self hstart
    rw [hfind] at hsum ⊢
    simp only [Option.map_some, Option.getD_some, scannedPart, hs, hdesc, if_true,
      Option.any_some, decide_true] at hsum ⊢
    simp only [Bool.true_eq_false, and_false, if_false]
    omega
  · rw [hzero] at hsum
    rw [hany]
    simp only [and_true]
    rw [scannedPart] at hsum
    split_ifs at hsum ⊢ <;> omega

/-- A page that is not scanned, put in beside the scanned ones, leaves them connected. -/
theorem connected_insert (h : Tidy total index) (hkeeps : KeepsScanned index.descriptors desc)
    (hdesc : desc.scanState ≠ .scanned) :
    Connected (insertDescriptor desc index.descriptors) := by
  have hmem : ∀ d, d.scanState = .scanned →
      (d ∈ insertDescriptor desc index.descriptors ↔ d ∈ index.descriptors) := by
    intro d hs
    rw [mem_insertDescriptor_iff h.sorted]
    constructor
    · rintro (rfl | ⟨hd, -⟩)
      · exact absurd hs hdesc
      · exact hd
    · exact fun hd ↦ .inr ⟨hd, fun hstart ↦ hdesc (hkeeps d hd hstart hs).1⟩
  have hto : ∀ pos, ScannedTo index.descriptors pos →
      ScannedTo (insertDescriptor desc index.descriptors) pos := by
    intro pos hpos i hi
    obtain ⟨d, hd, hs, hin⟩ := hpos i hi
    exact ⟨d, (hmem d hs).mpr hd, hs, hin⟩
  intro first hfirst hs
  have hold : first ∈ index.descriptors := (hmem first hs).mp (List.mem_of_head? hfirst)
  -- the first page was the first one before
  have hhead : first ∈ index.descriptors.head? := by
    cases hds : index.descriptors with
    | nil =>
      rw [hds] at hold
      cases hold
    | cons e ds =>
      have hsorted := hds ▸ h.sorted
      rw [hds] at hold
      rcases List.mem_cons.mp hold with rfl | hmem'
      · rfl
      · exfalso
        have hlt := (List.pairwise_cons.mp hsorted).1 first hmem'
        have hnew : (insertDescriptor desc index.descriptors).Pairwise (·.start < ·.start) :=
          sorted_insertDescriptor h.sorted
        rw [hds, insertDescriptor] at hnew hfirst
        split_ifs at hnew hfirst with hlt' heq
        · exact hdesc (Option.some.inj hfirst ▸ hs)
        · exact hdesc (Option.some.inj hfirst ▸ hs)
        · have heq' : e = first := Option.some.inj hfirst
          rw [heq'] at hlt
          exact absurd hlt (lt_irrefl _)
  obtain ⟨h0, hall⟩ := h.connected first hhead hs
  exact ⟨h0, fun d hd hs' hcount ↦ hto _ (hall d ((hmem d hs').mp hd) hs' hcount)⟩

/-- An insert that keeps what was scanned and leaves the scanned pages connected. -/
theorem insert (h : Tidy total index) (hranges : PageRanges total (desc :: index.descriptors))
    (hkeeps : KeepsScanned index.descriptors desc)
    (hconn : Connected (insertDescriptor desc index.descriptors)) :
    Tidy total (index.insert desc) := by
  have hdescs := insert_descriptors index desc
  have hsorted : (index.insert desc).descriptors.Pairwise (·.start < ·.start) := by
    rw [hdescs]
    exact sorted_insertDescriptor h.sorted
  have hranges' : PageRanges total (index.insert desc).descriptors := by
    rw [hdescs]
    exact ranges_insertDescriptor h.sorted hranges
  have hnewlines : (index.insert desc).scannedNewlinesTotal
      = scannedNewlines (index.insert desc).descriptors := by
    rw [hdescs]
    exact h.insert_newlines_eq hkeeps
  refine ⟨hsorted, hranges', (insert_totalBytes index desc).trans h.totalBytes_eq, hnewlines, ?_,
    hdescs ▸ hconn, ?_⟩
  · rw [hdescs]
    exact h.insert_bytes_eq hranges hkeeps
  · by_cases hdesc : desc.scanState = .scanned
    · refine table_of_rebuild (chain_of_ranges hsorted hranges') hranges'.lt ?_ hnewlines
        (hdescs ▸ hconn)
      rw [insert_linesPrefix, hdescs]
      exact if_pos (.inr hdesc)
    · -- nothing that is scanned changes, and the table stays
      have hold : ∀ d ∈ index.descriptors, d.start = desc.start → d.scanState ≠ .scanned :=
        fun d hd hstart hs ↦ hdesc (hkeeps d hd hstart hs).1
      have hany : (index.descriptors.find? (·.start = desc.start)).any (·.scanState = .scanned)
          = false := by
        rcases replaced_cases desc h.sorted with ⟨old, hmem, hstart, hs, -⟩ | ⟨-, hany, -⟩
        · exact absurd hs (hold old hmem hstart)
        · exact hany
      have hrun : contiguous 0 (index.insert desc).descriptors
        = contiguous 0 index.descriptors := by
        rw [hdescs]
        exact contiguous_insertDescriptor h.sorted hdesc hold
          (fun d hd ↦ hranges.apart d (List.mem_cons_of_mem _ hd) desc List.mem_cons_self)
          (Nat.zero_le _)
      have hpref : (index.insert desc).linesPrefix = index.linesPrefix := by
        rw [insert_linesPrefix]
        dsimp only
        rw [hany]
        simp [hdesc]
      have htotal : (index.insert desc).scannedNewlinesTotal = index.scannedNewlinesTotal := by
        rw [insert_total]
        dsimp only
        rw [hany]
        simp [hdesc]
      have htable := h.table
      refine ⟨?_, ?_⟩
      · rw [hrun, hpref]
        exact htable.entries
      · rw [hrun, htotal]
        exact htable.total_eq

/-- Any other insert leaves totals that are wrong or a lookup that goes astray. -/
theorem insert_iff (h : Tidy total index) (hranges : PageRanges total (desc :: index.descriptors)) :
    (index.insert desc).Aggregates ↔
      KeepsScanned index.descriptors desc ∧
        Connected (insertDescriptor desc index.descriptors) := by
  refine ⟨fun hagg ↦ ?_, fun ⟨hkeeps, hconn⟩ ↦ (h.insert hranges hkeeps hconn).aggregates⟩
  have hkeeps : KeepsScanned index.descriptors desc := by
    intro d hd hstart hs
    have hfind := find?_start_of_sorted h.sorted hd
    rw [hstart] at hfind
    have hlt := h.ranges.lt d hd
    have hbytes := sum_scanned_insertDescriptor desc (fun d ↦ d.end_ - d.start) h.sorted
    have hnewlines := sum_scanned_insertDescriptor desc (·.newlineCount) h.sorted
    have haggb := hagg.bytes
    have haggn := hagg.newlines
    rw [insert_bytes, insert_descriptors, hfind, h.bytes_eq] at haggb
    rw [insert_total, insert_descriptors, hfind, h.newlines_eq] at haggn
    change scannedLen (insertDescriptor desc index.descriptors) + _
      = scannedLen index.descriptors + _ at hbytes
    change scannedNewlines (insertDescriptor desc index.descriptors) + _
      = scannedNewlines index.descriptors + _ at hnewlines
    rw [hfind] at hbytes hnewlines
    simp only [Option.map_some, Option.getD_some, scannedPart, hs, if_true, Option.any_some,
      decide_true, Bool.true_eq_false, and_false, if_false] at hbytes hnewlines haggb haggn
    split_ifs at hbytes hnewlines haggn with hdesc
    · exact ⟨hdesc, by omega⟩
    · omega
  refine ⟨hkeeps, ?_⟩
  by_cases hdesc : desc.scanState = .scanned
  · have hsorted : (insertDescriptor desc index.descriptors).Pairwise (·.start < ·.start) :=
      sorted_insertDescriptor h.sorted
    have hranges' := ranges_insertDescriptor h.sorted hranges
    rw [connected_iff (chain_of_ranges hsorted hranges') hranges'.lt]
    intro first hfirst hs
    have hpref : (index.insert desc).linesPrefix
        = prefixFrom 0 (insertDescriptor desc index.descriptors) := by
      rw [insert_linesPrefix]
      exact if_pos (.inr hdesc)
    have hne : (index.insert desc).linesPrefix ≠ [] := by
      rw [hpref]
      cases hds : insertDescriptor desc index.descriptors with
      | nil =>
        rw [hds] at hfirst
        cases hfirst
      | cons e ds =>
        obtain rfl : e = first := by
          rw [hds] at hfirst
          exact Option.some.inj hfirst
        rw [prefixFrom, if_pos hs]
        exact List.cons_ne_nil _ _
    -- the walk has to find a page for the last newline
    have hstart : ∀ d ∈ (index.insert desc).descriptors,
        d.start < (index.insert desc).totalBytes := fun d hd ↦ by
      rw [insert_descriptors] at hd
      rw [insert_totalBytes, h.totalBytes_eq]
      exact lt_of_lt_of_le (hranges'.lt d hd) (hranges'.le d hd)
    have hfind := hagg.find (index.insert desc).scannedNewlinesTotal
    by_contra hcon
    rw [walk_beyond hstart ?_] at hfind
    · exact findPageForLine_ne_error hne le_rfl _ hfind
    · rw [insert_descriptors, h.insert_newlines_eq hkeeps, Nat.zero_add]
      rw [not_and_or, not_not, not_le] at hcon
      exact hcon
  · exact h.connected_insert hkeeps hdesc

end Tidy

/-! ## Runs -/

variable {total : ℕ} {descs : List PageDescriptor}

theorem afterInserts_descriptors (total : ℕ) (descs : List PageDescriptor) :
    (afterInserts total descs).descriptors = inserted descs := by
  induction descs using List.reverseRecOn with
  | nil => rfl
  | append_singleton descs desc ih =>
    rw [afterInserts, List.foldl_concat, insert_descriptors, ← afterInserts, ih, inserted, inserted,
      List.foldl_concat]

theorem mem_of_mem_inserted {d : PageDescriptor} (h : d ∈ inserted descs) : d ∈ descs := by
  induction descs using List.reverseRecOn with
  | nil => cases h
  | append_singleton descs desc ih =>
    rw [inserted, List.foldl_concat] at h
    rw [List.mem_append, List.mem_singleton]
    exact (mem_insertDescriptor h).symm.imp_left ih

/-- The inserts before the last one, and the last one. -/
theorem steady_concat {desc : PageDescriptor} : Steady (descs ++ [desc]) ↔
    Steady descs ∧ KeepsScanned (inserted descs) desc ∧ Connected (inserted (descs ++ [desc])) := by
  constructor
  · exact fun hs ↦ ⟨fun pre d hpre ↦ hs pre d (hpre.trans (List.prefix_append _ _)),
      hs descs desc (List.prefix_refl _)⟩
  · rintro ⟨hs, hlast⟩ pre d hpre
    rcases List.prefix_concat_iff.mp hpre with heq | hpre
    · obtain ⟨rfl, hd⟩ := List.append_inj' heq rfl
      rw [List.singleton_inj] at hd
      exact hd ▸ hlast
    · exact hs pre d hpre

/-- After every insert of a sequence the totals are those of the scanned descriptors and lookups
find what the walk finds, if and only if every insert keeps what was scanned and leaves the scanned
pages connected. -/
theorem aggregates_iff (h : PageRanges total descs) :
    (∀ pre, pre <+: descs → (afterInserts total pre).Aggregates) ↔ Steady descs := by
  suffices hboth : ((∀ pre, pre <+: descs → (afterInserts total pre).Aggregates) ↔ Steady descs) ∧
      (Steady descs → Tidy total (afterInserts total descs)) from hboth.1
  induction descs using List.reverseRecOn with
  | nil =>
    refine ⟨iff_of_true (fun pre hpre ↦ ?_) fun pre desc hpre ↦ ?_, fun _ ↦ .new total⟩
    · rw [List.prefix_nil.mp hpre]
      exact (Tidy.new total).aggregates
    · exact absurd (List.prefix_nil.mp hpre) (by simp)
  | append_singleton descs desc ih =>
    have hsub : ∀ d ∈ descs, d ∈ descs ++ [desc] := fun d ↦ List.mem_append_left _
    obtain ⟨ih, htidy⟩ := ih ⟨fun d hd ↦ h.lt d (hsub d hd), fun d hd ↦ h.le d (hsub d hd),
      fun d hd d' hd' ↦ h.apart d (hsub d hd) d' (hsub d' hd'),
      fun d hd d' hd' ↦ h.same d (hsub d hd) d' (hsub d' hd')⟩
    have hranges : PageRanges total (desc :: (afterInserts total descs).descriptors) := by
      have hmem : ∀ d ∈ desc :: (afterInserts total descs).descriptors, d ∈ descs ++ [desc] := by
        intro d hd
        rw [afterInserts_descriptors] at hd
        rcases List.mem_cons.mp hd with rfl | hd
        · simp
        · exact hsub d (mem_of_mem_inserted hd)
      exact ⟨fun d hd ↦ h.lt d (hmem d hd), fun d hd ↦ h.le d (hmem d hd),
        fun d hd d' hd' ↦ h.apart d (hmem d hd) d' (hmem d' hd'),
        fun d hd d' hd' ↦ h.same d (hmem d hd) d' (hmem d' hd')⟩
    have hafter : afterInserts total (descs ++ [desc]) = (afterInserts total descs).insert
      desc := by
      rw [afterInserts, List.foldl_concat, ← afterInserts]
    have hinserted : inserted (descs ++ [desc]) = insertDescriptor desc (inserted descs) := by
      rw [inserted, List.foldl_concat, ← inserted]
    have hprefixes : (∀ pre, pre <+: descs ++ [desc] → (afterInserts total pre).Aggregates) ↔
        (∀ pre, pre <+: descs → (afterInserts total pre).Aggregates) ∧
          (afterInserts total (descs ++ [desc])).Aggregates := by
      constructor
      · exact fun hall ↦ ⟨fun pre hpre ↦ hall pre (hpre.trans (List.prefix_append _ _)),
          hall _ (List.prefix_refl _)⟩
      · rintro ⟨hall, hlast⟩ pre hpre
        rcases List.prefix_concat_iff.mp hpre with rfl | hpre
        · exact hlast
        · exact hall pre hpre
    rw [steady_concat, hprefixes, ih, hafter, hinserted, ← afterInserts_descriptors total descs]
    exact ⟨and_congr_right fun hs ↦ (htidy hs).insert_iff hranges,
      fun hs ↦ (htidy hs.1).insert hranges hs.2.1 hs.2.2⟩

/-- A scan with fewer newlines leaves the total as it was, and so does a placeholder with the
bytes. A lookup skips a page that is missing. -/
theorem not_aggregates :
    ((afterInserts 2 [⟨0, 2, 1, false, false, .scanned⟩,
        ⟨0, 2, 0, false, false, .scanned⟩]).scannedNewlinesTotal = 1 ∧
      scannedNewlines (inserted [⟨0, 2, 1, false, false, .scanned⟩,
        ⟨0, 2, 0, false, false, .scanned⟩]) = 0) ∧
    ((afterInserts 2 [⟨0, 2, 1, false, false, .scanned⟩,
        ⟨0, 2, 0, false, false, .notScanned⟩]).scannedBytes = 2 ∧
      scannedLen (inserted [⟨0, 2, 1, false, false, .scanned⟩,
        ⟨0, 2, 0, false, false, .notScanned⟩]) = 0) ∧
    (afterInserts 6 [⟨0, 2, 1, false, false, .scanned⟩,
        ⟨4, 6, 1, false, false, .scanned⟩]).findPageForLine 2
      = some (.ok (⟨4, 6, 1, false, false, .scanned⟩, 1)) ∧
    walk 6 2 0 0 (inserted [⟨0, 2, 1, false, false, .scanned⟩,
        ⟨4, 6, 1, false, false, .scanned⟩]) = .error .pending :=
  ⟨by decide, by decide, rfl, rfl⟩

/-- A page is scanned ahead of the first one, which a placeholder stands for. -/
theorem aggregates_iff_placeholder :
    (afterInserts 4 ([] ++ [⟨0, 2, 0, false, false, .notScanned⟩]
      ++ [⟨2, 4, 2, false, false, .scanned⟩])).Aggregates := by
  have hranges : PageRanges 4 ([] ++ [⟨0, 2, 0, false, false, .notScanned⟩]
      ++ [⟨2, 4, 2, false, false, .scanned⟩]) := ⟨by decide, by decide, by decide, by decide⟩
  refine (aggregates_iff hranges).mpr ?_ _ (List.prefix_refl _)
  rw [steady_concat, steady_concat]
  refine ⟨⟨fun pre desc hpre ↦ ?_, ?_, ?_⟩, ?_, ?_⟩
  · exact absurd (List.prefix_nil.mp hpre) (by simp)
  all_goals simp [KeepsScanned, Connected, inserted, insertDescriptor]

end PageIndex

end EeEditor.Vlf
