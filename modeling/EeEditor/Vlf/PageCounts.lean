import EeEditor.Vlf.Scanned
import EeEditor.Vlf.Store
import EeEditor.Vlf.Terminators

/-!
# Line counts of the pages

Every page counts the terminators that end in it, but a page that begins with the second half of a
pair skips it when the page before is already in the index, which left the first half out. So the
counts add up to those of the file exactly when no page skips (`PagesInv.newlines_add`), and a page
skips unless it was scanned ahead of the page before it (`Store.newlines_run_iff`).

## Drivers of a page scan

The model of the drivers in `xi-core-lib/src/vlf/store/scan.rs`: a sequential scan, a scan that
starts at the viewport, and the background scanner with its channel. Reads succeed here. The
iteration bounds count the pages, which are at least a byte long.
-/

namespace EeEditor.Vlf

/-- A file whose reads all succeed. -/
def allReads : Reader := fun _ _ ↦ true

namespace Store

/-- The loop of `scan_all`. -/
def scanAllFrom : ℕ → ℕ → Store → Store
  | 0, _, self => self
  | fuel + 1, pos, self =>
    if pos < self.file.length then
      scanAllFrom fuel (pos + self.pageSize) (self.scanPageAt allReads pos)
    else self

/-- Scan every page in the file sequentially. -/
def scanAll (self : Store) : Store := scanAllFrom self.file.length 0 self

/-- The loop over the pages of the viewport, with the number of cancel checks made. It gives no
number when the scan is cancelled. -/
def scanViewport (cancelCheck : ℕ → Bool) (vpLast : ℕ) : ℕ → ℕ → ℕ → Store → Store × Option ℕ
  | 0, checks, _, self => (self, some checks)
  | fuel + 1, checks, pos, self =>
    if pos ≤ vpLast then
      if cancelCheck checks then (self, none)
      else scanViewport cancelCheck vpLast fuel (checks + 1) (pos + self.pageSize)
        (self.scanPageAt allReads pos)
    else (self, some checks)

/-- The loop that expands from the viewport, a page forward and a page backward each time. -/
def scanOutward (cancelCheck : ℕ → Bool) : ℕ → ℕ → ℕ → Option ℕ → Store → Store
  | 0, _, _, _, self => self
  | fuel + 1, checks, forward, backward, self =>
    if forward < self.file.length then
      if cancelCheck checks then self
      else
        let self := self.scanPageAt allReads forward
        match backward with
        | none => scanOutward cancelCheck fuel (checks + 1) (forward + self.pageSize) none self
        | some bw =>
          if cancelCheck (checks + 1) then self
          else scanOutward cancelCheck fuel (checks + 2) (forward + self.pageSize)
            (checkedSub bw self.pageSize) (self.scanPageAt allReads bw)
    else
      match backward with
      | none => self
      | some bw =>
        if cancelCheck checks then self
        else scanOutward cancelCheck fuel (checks + 1) forward (checkedSub bw self.pageSize)
          (self.scanPageAt allReads bw)

/-- Scan the pages of the viewport, then outward until the whole file is covered. `cancelCheck i`
is the answer of check number `i`. -/
def scanViewportFirst (self : Store) (viewportStart viewportEnd : ℕ) (cancelCheck : ℕ → Bool) :
    Store :=
  let fileSize := self.file.length
  if fileSize = 0 then self
  else
    let pageSize := self.pageSize
    let vpFirst := viewportStart / pageSize * pageSize
    let vpLast := (max (min viewportEnd fileSize) 1 - 1) / pageSize * pageSize
    match self.scanViewport cancelCheck vpLast (fileSize + 1) 0 vpFirst with
    | (self, none) => self
    | (self, some checks) =>
      self.scanOutward cancelCheck (fileSize + viewportStart + 2) checks (vpLast + pageSize)
        (checkedSub vpFirst pageSize)

/-- Put the descriptors that the background scanner has sent into the index. -/
def drainIncoming (self : Store) (received : List PageDescriptor) : Store :=
  { self with index := received.foldl (·.insert ·) self.index }

end Store

structure BackgroundScanner where
  file : List UInt8
  pageSize : ℕ

namespace BackgroundScanner

/-- The loop of the scanner from `pos`, with the flag of the page before. -/
def runFrom (self : BackgroundScanner) : ℕ → ℕ → Bool → List PageDescriptor
  | 0, _, _ => []
  | fuel + 1, pos, prevEndsWithCr =>
    let fileSize := self.file.length
    if pos < fileSize then
      let pageEnd := min (pos + self.pageSize) fileSize
      let bytes := (self.file.drop pos).take (pageEnd - pos)
      let endsWithCrBeforeLf :=
        if bytes.getLast? == some 13 && pageEnd < fileSize then
          ((self.file.drop pageEnd).take 1).head? == some 10
        else false
      let startsWithLfOfCrlf := bytes.head? == some 10 && pos > 0 && prevEndsWithCr
      { start := pos
        end_ := pageEnd
        newlineCount := analyseBytes bytes startsWithLfOfCrlf endsWithCrBeforeLf
        startsWithLfOfCrlf := startsWithLfOfCrlf
        endsWithCrBeforeLf := endsWithCrBeforeLf
        scanState := .scanned } ::
        self.runFrom fuel (pos + self.pageSize) endsWithCrBeforeLf
    else []

/-- The descriptors that the scanner sends, in order. -/
def run (self : BackgroundScanner) : List PageDescriptor :=
  self.runFrom self.file.length 0 false

end BackgroundScanner

end EeEditor.Vlf

namespace EeEditor.Vlf

variable {file : List UInt8} {p : ℕ}

/-- The boundary at the start of page `k` splits a carriage return from its line feed. -/
def splitsPair (file : List UInt8) (p k : ℕ) : Bool :=
  0 < k && file[k * p - 1]? == some 13 && file[k * p]? == some 10

/-- The descriptor of page `k`, where `starts` is whether the page skips its first byte. -/
def pageAt (file : List UInt8) (p k : ℕ) (starts : Bool) : PageDescriptor :=
  let start := k * p
  let end_ := min (start + p) file.length
  let ends := splitsPair file p (k + 1)
  ⟨start, end_, analyseBytes ((file.drop start).take (end_ - start)) starts ends, starts, ends,
    .scanned⟩

/-- The page that contains a position. -/
theorem PageIndex.pageAtByte_of_mem {index : PageIndex} {d : PageDescriptor} {offset : ℕ}
    (hsorted : index.descriptors.Pairwise (·.start < ·.start)) (hd : d ∈ index.descriptors)
    (hlo : d.start ≤ offset) (hhi : offset < d.end_)
    (hnext : ∀ d' ∈ index.descriptors, d.start < d'.start → offset < d'.start) :
    index.pageAtByte offset = some d := by
  obtain ⟨pre, post, hds⟩ := List.append_of_mem hd
  have hpost : post.filter (·.start ≤ offset) = [] := by
    rw [List.filter_eq_nil_iff]
    intro d' hd'
    rw [hds, List.pairwise_append, List.pairwise_cons] at hsorted
    have hlt := hnext d' (by simp [hds, hd']) (hsorted.2.1.1 d' hd')
    simpa using hlt
  rw [PageIndex.pageAtByte, hds, List.filter_append, List.filter_cons_of_pos (by simpa using hlo),
    hpost, List.getLast?_concat, Option.filter_some, if_pos (by simpa using hhi)]

section

variable {k : ℕ} {starts : Bool}

/-- The last byte of a page and the byte after it. -/
theorem splitsPair_succ (file : List UInt8) (k : ℕ) (hp : 0 < p) :
    (splitsPair file p (k + 1) = true ↔
      ((file.drop (k * p)).take (min (k * p + p) file.length - k * p)).getLast? = some 13 ∧
        file[min (k * p + p) file.length]? = some 10) := by
  have hsucc : (k + 1) * p = k * p + p := Nat.succ_mul k p
  rw [splitsPair, hsucc]
  rcases Nat.lt_or_ge (k * p + p) file.length with hlt | hge
  · have hlast : ((file.drop (k * p)).take (min (k * p + p) file.length - k * p)).getLast?
        = file[k * p + p - 1]? := by
      rw [min_eq_left hlt.le, List.getLast?_take, if_neg (by omega), List.getElem?_drop,
        List.getElem?_eq_getElem (by omega), Option.some_or]
      rw [List.getElem?_eq_getElem (by omega)]
      congr 2
      omega
    rw [hlast, min_eq_left hlt.le]
    simp
  · have hnone : file[min (k * p + p) file.length]? = none := by
      rw [min_eq_right hge]
      exact List.getElem?_eq_none le_rfl
    have hnone' : file[k * p + p]? = none := List.getElem?_eq_none hge
    rw [hnone, hnone']
    simp

theorem head?_page (hp : 0 < p) (hk : k * p < file.length) :
    ((file.drop (k * p)).take (min (k * p + p) file.length - k * p)).head? = file[k * p]? := by
  rw [List.head?_take, if_neg (by omega), List.head?_drop]

/-- The flag of a page that ends with the first half of a split pair. -/
theorem endsFlag_eq (file : List UInt8) (k : ℕ) (hp : 0 < p) :
    (if ((file.drop (k * p)).take (min (k * p + p) file.length - k * p)).getLast? == some 13
        && min (k * p + p) file.length < file.length then
      ((file.drop (min (k * p + p) file.length)).take 1).head? == some 10
    else false) = splitsPair file p (k + 1) := by
  have hpeek : ((file.drop (min (k * p + p) file.length)).take 1).head?
      = file[min (k * p + p) file.length]? := by
    rw [List.head?_take, if_neg one_ne_zero, List.head?_drop]
  rw [Bool.eq_iff_iff, splitsPair_succ file k hp, hpeek]
  split_ifs with h
  · rw [Bool.and_eq_true, beq_iff_eq] at h
    rw [beq_iff_eq]
    exact (and_iff_right h.1).symm
  · refine iff_of_false not_false fun ⟨hlast, hnext⟩ ↦ h ?_
    rw [Bool.and_eq_true, beq_iff_eq, decide_eq_true_iff]
    exact ⟨hlast, (List.getElem?_eq_some_iff.mp hnext).1⟩

/-- The flag of a page that begins with the second half of a split pair, where `prev` is what is
known of the page before. -/
theorem startsFlag_eq (hp : 0 < p) (hk : k * p < file.length) (prev : Bool) :
    (((file.drop (k * p)).take (min (k * p + p) file.length - k * p)).head? == some 10
      && k * p > 0 && (splitsPair file p k && prev)) = (splitsPair file p k && prev) := by
  rw [head?_page hp hk]
  cases hsplit : splitsPair file p k with
  | false => simp
  | true =>
    rw [splitsPair, Bool.and_eq_true, Bool.and_eq_true, decide_eq_true_iff] at hsplit
    have hpos : k * p > 0 := Nat.mul_pos hsplit.1.1 hp
    simp [beq_iff_eq.mp hsplit.2, hpos]

/-- A page counts the terminators that end in it, less the line feed that it skips. -/
theorem endsBefore_page (hp : 0 < p) (hk : k * p < file.length)
    (hstarts : starts = true → splitsPair file p k = true) :
    endsBefore file (k * p) + ((pageAt file p k starts).newlineCount + starts.toNat)
      = endsBefore file (min ((k + 1) * p) file.length) := by
  have hhead : starts = true → ((file.drop (k * p)).take
      (min (k * p + p) file.length - k * p)).head? = some 10 := by
    intro hs
    have hsplit := hstarts hs
    rw [splitsPair, Bool.and_eq_true, beq_iff_eq] at hsplit
    rw [head?_page hp hk, hsplit.2]
  rw [pageAt, analyseBytes_add _ _ _ hhead, Nat.succ_mul,
    ← endsBefore_add (i := k * p) (j := min (k * p + p) file.length) (by omega)
      (min_le_right _ _)]
  congr 1
  -- what follows the page matters only after a carriage return, where the flag tells it
  apply lineEnds_congr
  intro hlast
  have hiff := splitsPair_succ file k hp
  cases hends : splitsPair file p (k + 1) with
  | true => simp [seamByte, (hiff.mp hends).2]
  | false =>
    have hne : file[min (k * p + p) file.length]? ≠ some 10 := fun h10 ↦ by
      rw [hiff.mpr ⟨hlast, h10⟩] at hends
      cases hends
    simp [seamByte, hne]

end

/-! ## The pages of a complete index -/

/-- The pages from page `a` on, each of them in the list, count the terminators from there on, less
one for each page that skips a line feed. -/
theorem endsBefore_add_newlines (hp : 0 < p) {ds : List PageDescriptor} {a : ℕ}
    (hsorted : ds.Pairwise (·.start < ·.start))
    (hpages : ∀ d ∈ ds, ∃ k starts, a ≤ k ∧ k * p < file.length ∧ d = pageAt file p k starts ∧
      (starts = true → splitsPair file p k = true))
    (hall : ∀ k, a ≤ k → k * p < file.length → ∃ d ∈ ds, d.start = k * p) :
    endsBefore file (min (a * p) file.length) + (newlines ds + ds.countP (·.startsWithLfOfCrlf))
      = lineTerminators file := by
  induction ds generalizing a with
  | nil =>
    have hge : file.length ≤ a * p := by
      by_contra hlt
      obtain ⟨d, hd, -⟩ := hall a le_rfl (by omega)
      cases hd
    rw [min_eq_right hge, endsBefore_length]
    rfl
  | cons d ds ih =>
    obtain ⟨hd, hsorted⟩ := List.pairwise_cons.mp hsorted
    obtain ⟨k, starts, hak, hk, hdk, hstarts⟩ := hpages d (by simp)
    have hdstart : d.start = k * p := by rw [hdk]; rfl
    -- the first page of the list is the first page there is
    obtain rfl : k = a := by
      have ha : a * p < file.length := lt_of_le_of_lt (Nat.mul_le_mul_right p hak) hk
      obtain ⟨d', hd', hstart'⟩ := hall a le_rfl ha
      rcases List.mem_cons.mp hd' with rfl | hd'
      · exact Nat.eq_of_mul_eq_mul_right hp (hdstart.symm.trans hstart')
      · have hlt := hd d' hd'
        rw [hdstart, hstart'] at hlt
        exact absurd (Nat.mul_le_mul_right p hak) (by omega)
    have hgt : ∀ d' ∈ ds, ∀ k', d'.start = k' * p → k + 1 ≤ k' := by
      intro d' hd' k' hstart'
      have hlt := hd d' hd'
      rw [hdstart, hstart'] at hlt
      exact Nat.lt_of_mul_lt_mul_right hlt
    have hrest := ih (a := k + 1) hsorted (fun d' hd' ↦ by
      obtain ⟨k', starts', -, hk', rfl, hs'⟩ := hpages d' (by simp [hd'])
      exact ⟨k', starts', hgt _ hd' k' rfl, hk', rfl, hs'⟩) fun k' hle hk' ↦ by
        obtain ⟨d', hd', hstart'⟩ := hall k' (by omega) hk'
        rcases List.mem_cons.mp hd' with rfl | hd'
        · have := Nat.eq_of_mul_eq_mul_right hp (hdstart.symm.trans hstart')
          omega
        · exact ⟨d', hd', hstart'⟩
    have hpage := endsBefore_page hp hk hstarts
    have hcount : (d :: ds).countP (·.startsWithLfOfCrlf)
        = ds.countP (·.startsWithLfOfCrlf) + starts.toNat := by
      rw [List.countP_cons, hdk]
      cases starts <;> rfl
    have hsum : newlines (d :: ds) = d.newlineCount + newlines ds := rfl
    rw [min_eq_left hk.le, hcount, hsum, ← hrest, ← hpage, hdk]
    omega

/-! ## Runs -/

/-- A page put into the index, by a scan of the store or from the background scanner. -/
inductive ScanEvent where
  | scan (page : ℕ)
  | receive (page : ℕ)
deriving DecidableEq

namespace ScanEvent

def page : ScanEvent → ℕ
  | scan k => k
  | receive k => k

/-- The scanner's descriptors may be received at any time. -/
def apply (self : Store) : ScanEvent → Store
  | scan k => self.scanPageAt allReads (k * self.pageSize)
  | receive k => self.drainIncoming (BackgroundScanner.run ⟨self.file, self.pageSize⟩)[k]?.toList

/-- The last time that page `k` was put into the index it was scanned, and the page before it was
not in the index yet. -/
def ScannedAhead (es : List ScanEvent) (k : ℕ) : Prop :=
  ∃ before after, es = before ++ scan k :: after ∧ (∀ e ∈ before, e.page ≠ k - 1) ∧
    ∀ e ∈ after, e.page ≠ k

variable {es : List ScanEvent} {e : ScanEvent} {k : ℕ}

theorem scannedAhead_concat_of_ne (he : e.page ≠ k) :
    ScannedAhead (es ++ [e]) k ↔ ScannedAhead es k := by
  constructor
  · rintro ⟨before, after, heq, hbefore, hafter⟩
    rcases List.eq_nil_or_concat after with rfl | ⟨after, e', rfl⟩
    · obtain ⟨-, rfl⟩ := List.append_inj' heq rfl |>.imp_right List.singleton_inj.mp
      exact absurd rfl he
    · rw [List.concat_eq_append, ← List.cons_append, ← List.append_assoc] at heq
      obtain ⟨rfl, -⟩ := List.append_inj' heq rfl
      exact ⟨before, after, rfl, hbefore, fun e he' ↦ hafter e (by simp [he'])⟩
  · rintro ⟨before, after, rfl, hbefore, hafter⟩
    refine ⟨before, after ++ [e], by simp, hbefore, fun e' he' ↦ ?_⟩
    rcases List.mem_append.mp he' with h | h
    · exact hafter e' h
    · rw [List.mem_singleton.mp h]
      exact he

theorem scannedAhead_concat_self (he : e.page = k) :
    ScannedAhead (es ++ [e]) k ↔ e = scan k ∧ ∀ e' ∈ es, e'.page ≠ k - 1 := by
  constructor
  · rintro ⟨before, after, heq, hbefore, hafter⟩
    rcases List.eq_nil_or_concat after with rfl | ⟨after, e', rfl⟩
    · obtain ⟨rfl, rfl⟩ := List.append_inj' heq rfl |>.imp_right List.singleton_inj.mp
      exact ⟨rfl, hbefore⟩
    · rw [List.concat_eq_append, ← List.cons_append, ← List.append_assoc] at heq
      obtain ⟨-, h⟩ := List.append_inj' heq rfl
      rw [List.singleton_inj] at h
      exact absurd (h ▸ he) (hafter e' (by simp))
  · rintro ⟨rfl, hes⟩
    exact ⟨es, [], rfl, hes, by simp⟩

end ScanEvent

/-- The descriptors that the background scanner sends: every page skips a split pair. -/
theorem BackgroundScanner.getElem?_runFrom (hp : 0 < p) (fuel a i : ℕ)
    (hfuel : file.length ≤ fuel + a * p) :
    (runFrom ⟨file, p⟩ fuel (a * p) (splitsPair file p a))[i]? =
      if (a + i) * p < file.length then some (pageAt file p (a + i) (splitsPair file p (a + i)))
      else none := by
  induction fuel generalizing a i with
  | zero =>
    have hge : a * p ≤ (a + i) * p := Nat.mul_le_mul_right p (Nat.le_add_right a i)
    rw [if_neg (by omega)]
    rfl
  | succ fuel ih =>
    rw [runFrom]
    dsimp only
    by_cases ha : a * p < file.length
    · have hstarts := startsFlag_eq hp ha true
      rw [Bool.and_true] at hstarts
      rw [if_pos ha, endsFlag_eq file a hp, hstarts]
      cases i with
      | zero =>
        rw [Nat.add_zero]
        exact (if_pos ha).symm
      | succ i =>
        have hsucc : a + (i + 1) = a + 1 + i := by omega
        rw [List.getElem?_cons_succ, hsucc, ← Nat.succ_mul]
        exact ih (a + 1) i (by rw [Nat.succ_mul]; omega)
    · have hge : a * p ≤ (a + i) * p := Nat.mul_le_mul_right p (Nat.le_add_right a i)
      rw [if_neg ha, if_neg (by omega)]
      rfl

theorem BackgroundScanner.getElem?_run (hp : 0 < p) (k : ℕ) :
    (run ⟨file, p⟩)[k]? =
      if k * p < file.length then some (pageAt file p k (splitsPair file p k)) else none := by
  have h := getElem?_runFrom hp file.length 0 k (Nat.le_add_right file.length (0 * p))
  rw [Nat.zero_mul, Nat.zero_add] at h
  exact h

/-- The index after some events: which pages it holds, and which of them skip a line feed. -/
structure PagesInv (es : List ScanEvent) (file : List UInt8) (p : ℕ) (s : Store) : Prop where
  file_eq : s.file = file
  pageSize_eq : s.pageSize = p
  sorted : s.index.descriptors.Pairwise (·.start < ·.start)
  pages : ∀ d ∈ s.index.descriptors, ∃ k starts, k * p < file.length ∧
    d = pageAt file p k starts ∧ (∃ e ∈ es, e.page = k) ∧
    (starts = true ↔ splitsPair file p k = true ∧ ¬ ScanEvent.ScannedAhead es k)
  all : ∀ k, k * p < file.length → (∃ e ∈ es, e.page = k) →
    ∃ d ∈ s.index.descriptors, d.start = k * p

namespace PagesInv

variable {es : List ScanEvent} {e : ScanEvent} {s : Store} {k : ℕ}

theorem new (file : List UInt8) (p : ℕ) : PagesInv [] file p (.new file p) :=
  ⟨rfl, rfl, .nil, by simp [Store.new, PageIndex.new], by simp⟩

/-- An event for a page beyond the end of the file. -/
theorem skip (h : PagesInv es file p s) (hk : file.length ≤ e.page * p) :
    PagesInv (es ++ [e]) file p s where
  file_eq := h.file_eq
  pageSize_eq := h.pageSize_eq
  sorted := h.sorted
  pages := by
    intro d hd
    obtain ⟨k, starts, hlt, hdk, ⟨e', he', hpage⟩, hstarts⟩ := h.pages d hd
    have hne : e.page ≠ k := fun heq ↦ by
      rw [heq] at hk
      omega
    exact ⟨k, starts, hlt, hdk, ⟨e', by simp [he'], hpage⟩,
      by rw [hstarts, ScanEvent.scannedAhead_concat_of_ne hne]⟩
  all := by
    rintro k hlt ⟨e', he', hpage⟩
    rcases List.mem_append.mp he' with he' | he'
    · exact h.all k hlt ⟨e', he', hpage⟩
    · rw [List.mem_singleton.mp he'] at hpage
      rw [hpage] at hk
      omega

/-- An event that puts a page into the index. -/
theorem put (hp : 0 < p) (h : PagesInv es file p s) (hk : e.page * p < file.length)
    {starts : Bool} (hstarts : starts = true ↔ splitsPair file p e.page = true ∧
      ¬ ScanEvent.ScannedAhead (es ++ [e]) e.page) :
    PagesInv (es ++ [e]) file p
      { s with index := s.index.insert (pageAt file p e.page starts) } where
  file_eq := h.file_eq
  pageSize_eq := h.pageSize_eq
  sorted := by
    change (PageIndex.insert _ _).descriptors.Pairwise _
    rw [PageIndex.insert_descriptors]
    exact sorted_insertDescriptor h.sorted
  pages := by
    intro d hd
    change d ∈ (PageIndex.insert _ _).descriptors at hd
    rw [PageIndex.insert_descriptors, mem_insertDescriptor_iff h.sorted] at hd
    rcases hd with rfl | ⟨hd, hne⟩
    · exact ⟨e.page, starts, hk, rfl, ⟨e, by simp, rfl⟩, hstarts⟩
    · obtain ⟨k, starts', hlt, rfl, ⟨e', he', hpage⟩, hstarts'⟩ := h.pages d hd
      have hne' : e.page ≠ k := fun heq ↦ hne (by rw [heq]; rfl)
      exact ⟨k, starts', hlt, rfl, ⟨e', by simp [he'], hpage⟩,
        by rw [hstarts', ScanEvent.scannedAhead_concat_of_ne hne']⟩
  all := by
    rintro k hlt ⟨e', he', hpage⟩
    change ∃ d ∈ (PageIndex.insert _ _).descriptors, _
    rw [PageIndex.insert_descriptors]
    simp only [mem_insertDescriptor_iff h.sorted]
    by_cases heq : e.page = k
    · exact ⟨_, .inl rfl, by rw [heq]; rfl⟩
    · rcases List.mem_append.mp he' with he' | he'
      · obtain ⟨d, hd, hstart⟩ := h.all k hlt ⟨e', he', hpage⟩
        refine ⟨d, .inr ⟨hd, fun hsame ↦ heq ?_⟩, hstart⟩
        exact Nat.eq_of_mul_eq_mul_right hp (hsame.symm.trans hstart)
      · rw [List.mem_singleton.mp he'] at hpage
        exact absurd hpage heq

/-- What a scan finds of the page before. -/
theorem prev_flag (hp : 0 < p) (h : PagesInv es file p s) (hk0 : 0 < k)
    (hk : k * p < file.length) :
    (s.index.pageAtByte (k * p - 1)).any (·.endsWithCrBeforeLf)
      = (splitsPair file p k && es.any (·.page = k - 1)) := by
  obtain ⟨k, rfl⟩ := Nat.exists_eq_succ_of_ne_zero hk0.ne'
  rw [Nat.succ_mul] at hk ⊢
  rw [Nat.succ_sub_one]
  cases hpage : s.index.pageAtByte (k * p + p - 1) with
  | none =>
    have hany : es.any (·.page = k) = false := by
      rw [List.any_eq_false]
      intro e he hpage'
      obtain ⟨d, hd, hstart⟩ := h.all k (by omega) ⟨e, he, by simpa using hpage'⟩
      have hsome : s.index.pageAtByte (k * p + p - 1) = some d :=
        PageIndex.pageAtByte_of_mem h.sorted hd (by omega) (by
          obtain ⟨k', starts, -, rfl, -⟩ := h.pages d hd
          have hkk : k' * p = k * p := hstart
          simp only [pageAt, hkk]
          omega)
        fun d' hd' hlt ↦ by
          obtain ⟨k', starts, -, rfl, -⟩ := h.pages d' hd'
          rw [hstart] at hlt
          have hle : k + 1 ≤ k' := Nat.lt_of_mul_lt_mul_right hlt
          have hmul : (k + 1) * p ≤ k' * p := Nat.mul_le_mul_right p hle
          rw [Nat.succ_mul] at hmul
          change k * p + p - 1 < k' * p
          omega
      rw [hpage] at hsome
      cases hsome
    rw [hany, Bool.and_false]
    rfl
  | some d =>
    obtain ⟨hd, hlo, hhi⟩ := IndexInv.pageAtByte_eq_some hpage
    obtain ⟨k', starts, hlt, rfl, ⟨e, he, hek⟩, -⟩ := h.pages d hd
    simp only [pageAt] at hlo hhi
    have hk' : k' = k := by
      have hle : k' ≤ k := by
        have : k' * p < (k + 1) * p := by rw [Nat.succ_mul]; omega
        exact Nat.lt_succ_iff.mp (Nat.lt_of_mul_lt_mul_right this)
      have hge : k ≤ k' := by
        have : k * p < (k' + 1) * p := by rw [Nat.succ_mul]; omega
        exact Nat.lt_succ_iff.mp (Nat.lt_of_mul_lt_mul_right this)
      exact le_antisymm hle hge
    subst hk'
    have hany : es.any (·.page = k') = true :=
      List.any_eq_true.mpr ⟨e, he, by simpa using hek⟩
    rw [hany, Bool.and_true]
    rfl

end PagesInv

/-- A scan puts a page into the index. -/
theorem Store.scanPageAt_eq {s : Store} {k : ℕ} {prev : Bool} (hp : 0 < s.pageSize)
    (hk : k * s.pageSize < s.file.length)
    (hprev : 0 < k → (s.index.pageAtByte (k * s.pageSize - 1)).any (·.endsWithCrBeforeLf)
      = (splitsPair s.file s.pageSize k && prev)) :
    s.scanPageAt allReads (k * s.pageSize) = { s with
      index := s.index.insert
        (pageAt s.file s.pageSize k (splitsPair s.file s.pageSize k && prev)) } := by
  have hread : ∀ start end_, end_ ≤ s.file.length → s.readAt allReads start end_
      = some ((s.file.drop start).take (end_ - start)) := fun start end_ hle ↦ by
    rw [readAt, if_pos (by simp [hle, allReads])]
  have hends := endsFlag_eq s.file k hp
  have hstarts : (if ((s.file.drop (k * s.pageSize)).take
        (min (k * s.pageSize + s.pageSize) s.file.length - k * s.pageSize)).head? == some 10
          && k * s.pageSize > 0 then
        (s.index.pageAtByte (k * s.pageSize - 1)).any (·.endsWithCrBeforeLf)
      else false) = (splitsPair s.file s.pageSize k && prev) := by
    rw [← startsFlag_eq hp hk prev]
    split_ifs with h
    · rw [h, Bool.true_and]
      rw [Bool.and_eq_true, decide_eq_true_iff] at h
      exact hprev (Nat.pos_of_mul_pos_right h.2)
    · rw [Bool.not_eq_true] at h
      rw [h, Bool.false_and]
  rw [scanPageAt]
  dsimp only
  rw [if_neg (not_le.mpr hk), hread _ _ (min_le_right _ _)]
  dsimp only
  rw [hstarts, pageAt, ← hends]
  cases hpeek : ((s.file.drop (k * s.pageSize)).take
      (min (k * s.pageSize + s.pageSize) s.file.length - k * s.pageSize)).getLast? == some 13
        && min (k * s.pageSize + s.pageSize) s.file.length < s.file.length with
  | true =>
    rw [Bool.and_eq_true, decide_eq_true_iff] at hpeek
    have hone : min (k * s.pageSize + s.pageSize) s.file.length + 1
        - min (k * s.pageSize + s.pageSize) s.file.length = 1 := Nat.add_sub_cancel_left _ _
    rw [if_pos rfl, if_pos rfl, hread _ (min (k * s.pageSize + s.pageSize) s.file.length + 1)
      hpeek.2, hone]
  | false => rfl

namespace PagesInv

variable {es : List ScanEvent} {s : Store}

theorem apply (hp : 0 < p) (h : PagesInv es file p s) (e : ScanEvent) :
    PagesInv (es ++ [e]) file p (e.apply s) := by
  obtain rfl := h.file_eq
  obtain rfl := h.pageSize_eq
  cases e with
  | scan k =>
    rw [ScanEvent.apply]
    rcases Nat.lt_or_ge (k * s.pageSize) s.file.length with hk | hk
    · rw [Store.scanPageAt_eq hp hk fun hk0 ↦ h.prev_flag hp hk0 hk]
      refine h.put hp (e := .scan k) hk ?_
      have hpage : (ScanEvent.scan k).page = k := rfl
      rw [ScanEvent.scannedAhead_concat_self rfl]
      simp [hpage]
    · have hskip := h.skip (e := .scan k) hk
      rw [Store.scanPageAt, if_pos hk]
      exact hskip
  | receive k =>
    rw [ScanEvent.apply, BackgroundScanner.getElem?_run hp]
    split_ifs with hk
    · refine h.put hp (e := .receive k) hk ?_
      rw [ScanEvent.scannedAhead_concat_self rfl]
      simp [ScanEvent.page]
    · exact h.skip (e := .receive k) (not_lt.mp hk)

theorem foldl (hp : 0 < p) (h : PagesInv es file p s) (es' : List ScanEvent) :
    PagesInv (es ++ es') file p (es'.foldl ScanEvent.apply s) := by
  induction es' generalizing es s with
  | nil => rwa [List.append_nil]
  | cons e es' ih =>
    rw [List.append_cons]
    exact ih (h.apply hp e)

/-- The counts of the pages, with one for each page that skips a line feed. -/
theorem newlines_add (hp : 0 < p) (h : PagesInv es file p s)
    (hall : ∀ k, k * p < file.length → ∃ e ∈ es, e.page = k) :
    newlines s.index.descriptors + s.index.descriptors.countP (·.startsWithLfOfCrlf)
      = lineTerminators file := by
  rw [← endsBefore_add_newlines (a := 0) hp h.sorted (fun d hd ↦ by
    obtain ⟨k, starts, hk, hdk, -, hstarts⟩ := h.pages d hd
    exact ⟨k, starts, Nat.zero_le k, hk, hdk, fun hs ↦ (hstarts.mp hs).1⟩)
    fun k _ hk ↦ h.all k hk (hall k hk)]
  simp [endsBefore, lineEnds]

end PagesInv

/-- Once every page is in the index, its counts add up to the terminators of the file exactly when
every page that begins with the second half of a split pair was last scanned ahead of the page
before it. -/
theorem Store.newlines_run_iff (hp : 0 < p) (es : List ScanEvent)
    (hall : ∀ k, k * p < file.length → ∃ e ∈ es, e.page = k) :
    newlines (es.foldl ScanEvent.apply (.new file p)).index.descriptors = lineTerminators file ↔
      ∀ k, splitsPair file p k = true → ScanEvent.ScannedAhead es k := by
  have h := (PagesInv.new file p).foldl hp es
  rw [List.nil_append] at h
  have hadd := h.newlines_add hp hall
  constructor
  · intro heq k hk
    have hcount : List.countP (·.startsWithLfOfCrlf)
        (es.foldl ScanEvent.apply (.new file p)).index.descriptors = 0 := by omega
    rw [List.countP_eq_zero] at hcount
    by_contra hahead
    have hlt : k * p < file.length := by
      rw [splitsPair, Bool.and_eq_true, beq_iff_eq] at hk
      exact (List.getElem?_eq_some_iff.mp hk.2).1
    obtain ⟨d, hd, hstart⟩ := h.all k hlt (hall k hlt)
    obtain ⟨k', starts, -, rfl, -, hstarts⟩ := h.pages d hd
    obtain rfl : k' = k := Nat.eq_of_mul_eq_mul_right hp hstart
    exact hcount _ hd (hstarts.mpr ⟨hk, hahead⟩)
  · intro hahead
    have hcount : List.countP (·.startsWithLfOfCrlf)
        (es.foldl ScanEvent.apply (.new file p)).index.descriptors = 0 := by
      rw [List.countP_eq_zero]
      intro d hd hflag
      obtain ⟨k, starts, -, rfl, -, hstarts⟩ := h.pages d hd
      obtain ⟨hsplit, hnot⟩ := hstarts.mp hflag
      exact hnot (hahead k hsplit)
    omega

/-! ## The drivers -/

namespace ScanEvent

variable {es : List ScanEvent} {s : Store} {k : ℕ}

theorem apply_file (e : ScanEvent) :
    (e.apply s).file = s.file ∧ (e.apply s).pageSize = s.pageSize := by
  cases e with
  | scan k =>
    rw [apply, Store.scanPageAt]
    dsimp only
    split_ifs
    · exact ⟨rfl, rfl⟩
    · split
      · exact ⟨rfl, rfl⟩
      · exact ⟨rfl, rfl⟩
  | receive k => exact ⟨rfl, rfl⟩

/-- Pages in order are not scanned ahead. -/
theorem not_scannedAhead_of_pairwise (h : es.Pairwise (·.page < ·.page))
    (hmem : ∃ e ∈ es, e.page = k - 1) (hk : 0 < k) : ¬ ScannedAhead es k := by
  rintro ⟨before, after, rfl, hbefore, -⟩
  obtain ⟨e, he, hpage⟩ := hmem
  rcases List.mem_append.mp he with he | he
  · exact hbefore e he hpage
  · rcases List.mem_cons.mp he with rfl | he
    · have hself : k = k - 1 := hpage
      omega
    · have hlt : k < e.page := (List.pairwise_cons.mp (List.pairwise_append.mp h).2.1).1 e he
      omega

end ScanEvent

namespace Store

variable {s : Store}

theorem scanAllFrom_of_ge {fuel pos : ℕ} (h : s.file.length ≤ pos) :
    scanAllFrom fuel pos s = s := by
  cases fuel with
  | zero => rfl
  | succ fuel => rw [scanAllFrom, if_neg (not_lt.mpr h)]

/-- Scans of pages beyond the end do nothing, so their number does not matter. -/
theorem scanAllFrom_eq (fuel a : ℕ) : scanAllFrom fuel (a * s.pageSize) s
    = ((List.range' a fuel).map ScanEvent.scan).foldl ScanEvent.apply s := by
  induction fuel generalizing a s with
  | zero => rfl
  | succ fuel ih =>
    have hfile := (ScanEvent.scan a).apply_file (s := s)
    have ih := ih (s := (ScanEvent.scan a).apply s) (a + 1)
    rw [hfile.2, Nat.succ_mul] at ih
    rw [scanAllFrom, List.range'_succ, List.map_cons, List.foldl_cons, ← ih]
    split_ifs with h
    · rfl
    · have hnop : (ScanEvent.scan a).apply s = s := by
        rw [ScanEvent.apply, scanPageAt, if_pos (not_lt.mp h)]
      rw [hnop, scanAllFrom_of_ge (by omega)]

theorem scanAll_eq : s.scanAll
    = ((List.range s.file.length).map ScanEvent.scan).foldl ScanEvent.apply s := by
  rw [scanAll, List.range_eq_range', ← scanAllFrom_eq, Nat.zero_mul]

theorem drainIncoming_append (l l' : List PageDescriptor) :
    s.drainIncoming (l ++ l') = (s.drainIncoming l).drainIncoming l' := by
  simp [drainIncoming]

/-- Receiving some of the scanner's descriptors in order. -/
theorem drainIncoming_take (n : ℕ) :
    s.drainIncoming ((BackgroundScanner.run ⟨s.file, s.pageSize⟩).take n)
      = ((List.range n).map ScanEvent.receive).foldl ScanEvent.apply s := by
  induction n with
  | zero => rfl
  | succ n ih =>
    have hfile : ∀ es : List ScanEvent, (es.foldl ScanEvent.apply s).file = s.file ∧
        (es.foldl ScanEvent.apply s).pageSize = s.pageSize := by
      intro es
      induction es using List.reverseRecOn with
      | nil => exact ⟨rfl, rfl⟩
      | append_singleton es e ih =>
        rw [List.foldl_append, List.foldl_cons, List.foldl_nil, e.apply_file.1, e.apply_file.2]
        exact ih
    rw [List.take_add_one, drainIncoming_append, ih, List.range_succ, List.map_append,
      List.foldl_append, List.map_singleton, List.foldl_cons, List.foldl_nil, ScanEvent.apply,
      (hfile _).1, (hfile _).2]

/-- Some scans of pages. -/
def Scans (s s' : Store) (es : List ScanEvent) : Prop :=
  s' = es.foldl ScanEvent.apply s ∧ ∀ e ∈ es, e = ScanEvent.scan e.page

theorem Scans.nil : Scans s s [] := ⟨rfl, by simp⟩

theorem Scans.cons {s' : Store} {es : List ScanEvent} (k : ℕ)
    (h : Scans (s.scanPageAt allReads (k * s.pageSize)) s' es) : Scans s s' (.scan k :: es) := by
  refine ⟨h.1, fun e he ↦ ?_⟩
  rcases List.mem_cons.mp he with rfl | he
  · rfl
  · exact h.2 e he

theorem checkedSub_mul (g : ℕ) (hp : 0 < p) :
    checkedSub (g * p) p = if g = 0 then none else some ((g - 1) * p) := by
  cases g with
  | zero => rw [checkedSub, if_neg (by omega), if_pos rfl]
  | succ g =>
    rw [checkedSub, Nat.succ_mul, if_pos (Nat.le_add_left _ _), Nat.add_sub_cancel,
      if_neg (by omega),
      Nat.add_sub_cancel]

/-- The loop over the viewport scans its pages, all of them unless it is cancelled. -/
theorem scanViewport_scans (cancelCheck : ℕ → Bool) (last fuel checks a : ℕ) (hp : 0 < s.pageSize)
    (hfuel : last + 1 ≤ fuel + a * s.pageSize) :
    ∃ es, Scans s (s.scanViewport cancelCheck last fuel checks (a * s.pageSize)).1 es ∧
      ((∀ i, cancelCheck i = false) →
        (s.scanViewport cancelCheck last fuel checks (a * s.pageSize)).2 ≠ none ∧
        ∀ k, a ≤ k → k * s.pageSize ≤ last → ScanEvent.scan k ∈ es) := by
  induction fuel generalizing s checks a with
  | zero =>
    refine ⟨[], .nil, fun _ ↦ ⟨Option.some_ne_none _, fun k hak hk ↦ ?_⟩⟩
    have hle : a * s.pageSize ≤ k * s.pageSize := Nat.mul_le_mul_right _ hak
    omega
  | succ fuel ih =>
    rw [scanViewport]
    split_ifs with hpos hcancel
    · exact ⟨[], .nil, fun h ↦ absurd hcancel (by simp [h])⟩
    · have hfile := (ScanEvent.scan a).apply_file (s := s)
      have ih := ih (s := s.scanPageAt allReads (a * s.pageSize)) (checks + 1) (a + 1)
      rw [show (s.scanPageAt allReads (a * s.pageSize)).pageSize = s.pageSize from hfile.2,
        Nat.succ_mul] at ih
      obtain ⟨es, hes, hall⟩ := ih hp (by omega)
      refine ⟨.scan a :: es, hes.cons, fun h ↦ ⟨(hall h).1, fun k hak hk ↦ ?_⟩⟩
      rcases hak.eq_or_lt with rfl | hlt
      · exact List.mem_cons_self
      · exact List.mem_cons_of_mem _ ((hall h).2 k hlt hk)
    · refine ⟨[], .nil, fun _ ↦ ⟨Option.some_ne_none _, fun k hak hk ↦ ?_⟩⟩
      have hle : a * s.pageSize ≤ k * s.pageSize := Nat.mul_le_mul_right _ hak
      omega

/-- The outward loop scans the pages from `f` on and those before `g`, all of them unless it is
cancelled. -/
theorem scanOutward_scans (cancelCheck : ℕ → Bool) (fuel checks f g : ℕ) (hp : 0 < s.pageSize)
    (hfuel : s.file.length < fuel + f * s.pageSize) (hg : g < fuel) :
    ∃ es, Scans s (s.scanOutward cancelCheck fuel checks (f * s.pageSize)
        (checkedSub (g * s.pageSize) s.pageSize)) es ∧
      ((∀ i, cancelCheck i = false) →
        ∀ k, k * s.pageSize < s.file.length → f ≤ k ∨ k < g → ScanEvent.scan k ∈ es) := by
  induction fuel generalizing s checks f g with
  | zero => omega
  | succ fuel ih =>
    have hfile : ∀ k, (s.scanPageAt allReads (k * s.pageSize)).file = s.file ∧
        (s.scanPageAt allReads (k * s.pageSize)).pageSize = s.pageSize :=
      fun k ↦ (ScanEvent.scan k).apply_file
    have hlen := fun k ↦ (hfile k).1
    have hsize := fun k ↦ (hfile k).2
    rw [scanOutward.eq_def, checkedSub_mul g hp]
    dsimp only
    cases g with
    | zero =>
      rw [if_pos rfl]
      dsimp only
      split_ifs with hpos hcancel
      · exact ⟨[], .nil, fun h ↦ absurd hcancel (by simp [h])⟩
      · have ih := ih (s := s.scanPageAt allReads (f * s.pageSize)) (checks + 1) (f + 1) 0
        rw [hlen, hsize, checkedSub_mul 0 hp, if_pos rfl, Nat.succ_mul] at ih
        rw [hsize]
        obtain ⟨es, hes, hall⟩ := ih hp (by omega) (by omega)
        refine ⟨.scan f :: es, hes.cons, fun h k hk hor ↦ ?_⟩
        rcases hor with hfk | hlt
        · rcases hfk.eq_or_lt with rfl | hlt
          · exact List.mem_cons_self
          · exact List.mem_cons_of_mem _ (hall h k hk (.inl hlt))
        · omega
      · refine ⟨[], .nil, fun h k hk hor ↦ ?_⟩
        have hle : f ≤ k → f * s.pageSize ≤ k * s.pageSize := Nat.mul_le_mul_right _
        omega
    | succ g =>
      rw [if_neg (Nat.succ_ne_zero g), Nat.add_sub_cancel]
      dsimp only
      split_ifs with hpos hcancel hcancel' hcancel
      · exact ⟨[], .nil, fun h ↦ absurd hcancel (by simp [h])⟩
      · exact ⟨[.scan f], Scans.nil.cons, fun h ↦ absurd hcancel' (by simp [h])⟩
      · have ih := ih (s := (s.scanPageAt allReads (f * s.pageSize)).scanPageAt allReads
          (g * (s.scanPageAt allReads (f * s.pageSize)).pageSize)) (checks + 2) (f + 1) g
        have hfile' := (ScanEvent.scan g).apply_file (s := s.scanPageAt allReads (f * s.pageSize))
        rw [ScanEvent.apply] at hfile'
        rw [hfile'.1, hfile'.2, hlen, hsize, Nat.succ_mul] at ih
        obtain ⟨es, hes, hall⟩ := ih hp (by omega) (by omega)
        rw [hsize]
        refine ⟨.scan f :: .scan g :: es, Scans.cons f (Scans.cons g ?_), fun h k hk hor ↦ ?_⟩
        · rw [hsize]
          exact hes
        · rw [List.mem_cons, List.mem_cons]
          rcases hor with hfk | hlt
          · rcases hfk.eq_or_lt with rfl | hlt
            · exact .inl rfl
            · exact .inr (.inr (hall h k hk (.inl hlt)))
          · rcases (Nat.lt_succ_iff.mp hlt).eq_or_lt with rfl | hlt
            · exact .inr (.inl rfl)
            · exact .inr (.inr (hall h k hk (.inr hlt)))
      · exact ⟨[], .nil, fun h ↦ absurd hcancel (by simp [h])⟩
      · have ih := ih (s := s.scanPageAt allReads (g * s.pageSize)) (checks + 1) f g
        rw [hlen, hsize] at ih
        obtain ⟨es, hes, hall⟩ := ih hp (by omega) (by omega)
        refine ⟨.scan g :: es, hes.cons, fun h k hk hor ↦ ?_⟩
        rcases hor with hfk | hlt
        · have hle : f * s.pageSize ≤ k * s.pageSize := Nat.mul_le_mul_right _ hfk
          omega
        · rcases (Nat.lt_succ_iff.mp hlt).eq_or_lt with rfl | hlt
          · exact List.mem_cons_self
          · exact List.mem_cons_of_mem _ (hall h k hk (.inr hlt))

theorem Scans.append {s' s'' : Store} {es es' : List ScanEvent} (h : Scans s s' es)
    (h' : Scans s' s'' es') : Scans s s'' (es ++ es') := by
  refine ⟨by rw [List.foldl_append, ← h.1, h'.1], fun e he ↦ ?_⟩
  exact (List.mem_append.mp he).elim (h.2 e) (h'.2 e)

theorem Scans.file_eq {s' : Store} {es : List ScanEvent} (h : Scans s s' es) :
    s'.file = s.file ∧ s'.pageSize = s.pageSize := by
  rw [h.1]
  clear h
  induction es generalizing s with
  | nil => exact ⟨rfl, rfl⟩
  | cons e es ih =>
    have hfile := e.apply_file (s := s)
    rw [List.foldl_cons, ← hfile.1, ← hfile.2]
    exact ih

/-- A scan from the viewport outward scans pages, all of them unless it is cancelled. -/
theorem scanViewportFirst_scans (s : Store) (viewportStart viewportEnd : ℕ)
    (cancelCheck : ℕ → Bool) (hp : 0 < s.pageSize) :
    ∃ es, Scans s (s.scanViewportFirst viewportStart viewportEnd cancelCheck) es ∧
      ((∀ i, cancelCheck i = false) →
        ∀ k, k * s.pageSize < s.file.length → ScanEvent.scan k ∈ es) := by
  rw [scanViewportFirst]
  dsimp only
  split_ifs with hempty
  · exact ⟨[], .nil, fun _ k hk ↦ by omega⟩
  · have hend : (max (min viewportEnd s.file.length) 1 - 1) / s.pageSize * s.pageSize
        ≤ s.file.length := by
      have := Nat.div_mul_le_self (max (min viewportEnd s.file.length) 1 - 1) s.pageSize
      omega
    obtain ⟨es, hes, hall⟩ := s.scanViewport_scans cancelCheck
      ((max (min viewportEnd s.file.length) 1 - 1) / s.pageSize * s.pageSize)
      (s.file.length + 1) 0 (viewportStart / s.pageSize) hp (by omega)
    generalize s.scanViewport cancelCheck
      ((max (min viewportEnd s.file.length) 1 - 1) / s.pageSize * s.pageSize)
      (s.file.length + 1) 0 (viewportStart / s.pageSize * s.pageSize) = result at hes hall ⊢
    obtain ⟨s', checks⟩ := result
    cases checks with
    | none => exact ⟨es, hes, fun h ↦ absurd rfl (hall h).1⟩
    | some checks =>
      obtain ⟨hfile, hsize⟩ := hes.file_eq
      have hstart : viewportStart / s.pageSize ≤ viewportStart := Nat.div_le_self _ _
      have hout := scanOutward_scans (s := s') cancelCheck (s.file.length + viewportStart + 2)
        checks ((max (min viewportEnd s.file.length) 1 - 1) / s.pageSize + 1)
        (viewportStart / s.pageSize)
      rw [hfile, hsize, Nat.succ_mul] at hout
      obtain ⟨es', hes', hall'⟩ := hout hp (by omega) (by omega)
      refine ⟨es ++ es', hes.append hes', fun h k hk ↦ ?_⟩
      rw [List.mem_append]
      -- a page lies in the viewport, after it or before it
      rcases Nat.lt_or_ge k (viewportStart / s.pageSize) with hlt | hge
      · exact .inr (hall' h k hk (.inr hlt))
      · rcases Nat.lt_or_ge ((max (min viewportEnd s.file.length) 1 - 1) / s.pageSize) k
          with hlt | hle
        · exact .inr (hall' h k hk (.inl hlt))
        · exact .inl ((hall h).2 k hge (Nat.mul_le_mul_right _ hle))

/-- Scans of pages add the terminators up exactly when no page that begins with the second half of
a split pair was scanned, for the last time, after the page before it. A sequential scan and the
background scanner do so only in files where no pair is split. -/
theorem newlines_scans_iff (file : List UInt8) (hp : 0 < p) :
    (∀ es : List ScanEvent, (∀ k, k * p < file.length → ∃ e ∈ es, e.page = k) →
      (newlines (es.foldl ScanEvent.apply (.new file p)).index.descriptors = lineTerminators file ↔
        ∀ k, splitsPair file p k = true → ScanEvent.ScannedAhead es k)) ∧
    (newlines (Store.new file p).scanAll.index.descriptors = lineTerminators file ↔
      ∀ k, splitsPair file p k = false) ∧
    (newlines ((Store.new file p).drainIncoming
        (BackgroundScanner.run ⟨file, p⟩)).index.descriptors = lineTerminators file ↔
      ∀ k, splitsPair file p k = false) ∧
    ∀ viewportStart viewportEnd cancelCheck, ∃ es : List ScanEvent,
      (Store.new file p).scanViewportFirst viewportStart viewportEnd cancelCheck
        = es.foldl ScanEvent.apply (.new file p) ∧
      ((∀ i, cancelCheck i = false) → ∀ k, k * p < file.length → ∃ e ∈ es, e.page = k) := by
  have hcover : ∀ k, k * p < file.length → k < file.length := fun k hk ↦
    lt_of_le_of_lt (Nat.le_mul_of_pos_right k hp) hk
  have hnever : ∀ es : List ScanEvent, (∀ k, 0 < k → (∃ e ∈ es, e.page = k - 1) →
      ¬ ScanEvent.ScannedAhead es k) → (∀ k, k * p < file.length → ∃ e ∈ es, e.page = k) →
      ((∀ k, splitsPair file p k = true → ScanEvent.ScannedAhead es k) ↔
        ∀ k, splitsPair file p k = false) := by
    intro es hnot hall
    refine ⟨fun h k ↦ ?_, fun h k hk ↦ absurd hk (by simp [h])⟩
    by_contra hk
    rw [Bool.not_eq_false] at hk
    have hsplit := hk
    rw [splitsPair, Bool.and_eq_true, Bool.and_eq_true, decide_eq_true_iff] at hsplit
    have hlt := (List.getElem?_eq_some_iff.mp (beq_iff_eq.mp hsplit.2)).1
    have hprev : (k - 1) * p < file.length :=
      lt_of_le_of_lt (Nat.mul_le_mul_right p (Nat.sub_le k 1)) hlt
    exact hnot k hsplit.1.1 (hall (k - 1) hprev) (h k hk)
  refine ⟨newlines_run_iff hp, ?_, ?_, fun viewportStart viewportEnd cancelCheck ↦ ?_⟩
  · have hall : ∀ k, k * p < file.length →
        ∃ e ∈ (List.range file.length).map ScanEvent.scan, e.page = k :=
      fun k hk ↦ ⟨.scan k, by simpa using hcover k hk, rfl⟩
    have hes : (Store.new file p).scanAll
        = ((List.range file.length).map ScanEvent.scan).foldl ScanEvent.apply (.new file p) :=
      scanAll_eq
    rw [hes, newlines_run_iff hp _ hall]
    refine hnever _ (fun k hk hmem ↦ ?_) hall
    refine ScanEvent.not_scannedAhead_of_pairwise ?_ hmem hk
    exact List.pairwise_map.mpr List.pairwise_lt_range
  · have hall : ∀ k, k * p < file.length →
        ∃ e ∈ (List.range file.length).map ScanEvent.receive, e.page = k :=
      fun k hk ↦ ⟨.receive k, by simpa using hcover k hk, rfl⟩
    have hes : (Store.new file p).drainIncoming (BackgroundScanner.run ⟨file, p⟩)
        = ((List.range file.length).map ScanEvent.receive).foldl ScanEvent.apply
          (.new file p) := by
      rw [← drainIncoming_take, List.take_of_length_le]
      · rfl
      · have hlast : ¬ file.length * p < file.length :=
          not_lt.mpr (Nat.le_mul_of_pos_right _ hp)
        exact List.getElem?_eq_none_iff.mp
          ((BackgroundScanner.getElem?_run hp _).trans (if_neg hlast))
    rw [hes, newlines_run_iff hp _ hall]
    refine hnever _ (fun k hk hmem ↦ ?_) hall
    rintro ⟨before, after, heq, -⟩
    have hscan : ScanEvent.scan k ∈ (List.range file.length).map ScanEvent.receive := by
      rw [heq]
      simp
    simp at hscan
  · obtain ⟨es, hes, hall⟩ := (Store.new file p).scanViewportFirst_scans viewportStart viewportEnd
      cancelCheck hp
    exact ⟨es, hes.1, fun h k hk ↦ ⟨_, hall h k hk, rfl⟩⟩

/-- A sequential scan counts a split pair on neither page. -/
theorem scanAll_misses_split_pair :
    newlines (Store.new [97, 13, 10, 98] 2).scanAll.index.descriptors = 0 ∧
      lineTerminators [97, 13, 10, 98] = 1 := by
  decide

/-- Scanned from the second page on, a split pair counts once. -/
theorem newlines_scans_iff_ahead :
    newlines ([.scan 1, .scan 0].foldl ScanEvent.apply
      (Store.new [97, 13, 10, 98] 2)).index.descriptors = 1 := by
  refine ((newlines_scans_iff [97, 13, 10, 98] (p := 2) (by decide)).1 [.scan 1, .scan 0]
    (fun k hk ↦ ?_)).mpr fun k hk ↦ ?_
  · have hk2 : k < 2 := by
      change k * 2 < 4 at hk
      omega
    exact ⟨.scan k, by simp; omega, rfl⟩
  · have hlt : k < 2 := by
      by_contra hge
      rw [splitsPair, List.getElem?_eq_none (i := k * 2) (by change 4 ≤ k * 2; omega)] at hk
      simp at hk
    obtain rfl : k = 1 := by
      rcases Nat.lt_or_ge k 1 with h | h
      · obtain rfl : k = 0 := by omega
        exact absurd hk (by decide)
      · omega
    exact ⟨[], [.scan 0], rfl, by simp, by simp [ScanEvent.page]⟩

end Store

end EeEditor.Vlf
