import EeEditor.Vlf.Scanned

/-!
# Exact line answers

`line_to_byte` and `byte_to_line` are answered from the table of the page index, which is right
exactly when no newline lies in an unscanned page before the page of the answer, or from the cursor
of the last lookup, which is right when that lookup was. A run whose lookups all meet this
condition (`Store.LineSafe`, `Store.ByteSafe`) gives only true answers.
-/

namespace EeEditor.Vlf

variable {file : List UInt8} {p : ℕ}

namespace Store

/-- A lookup of a line that does not need newlines of unscanned pages: it is answered from the
cursor, or no newline lies in an unscanned page before the page that the table finds. -/
def LineSafe (s : Store) (reads : Reader) (line : ℕ) : Prop :=
  line = 0 ∨ s.cursorAnswer reads line ≠ none ∨
    ∀ page before, s.index.findPageForLine line = some (.ok (page, before)) →
      Covered s.file s.index.descriptors page.start

/-- A lookup of a position that does not need newlines of unscanned pages. -/
def ByteSafe (s : Store) (offset : ℕ) : Prop :=
  ∀ page, s.index.pageAtByte offset = some page →
    Covered s.file s.index.descriptors page.start

variable {s s' : Store} {reads : Reader} {line offset : ℕ}

theorem eq_of_readAt {start end_ : ℕ} {bytes : List UInt8}
    (h : s.readAt reads start end_ = some bytes) :
    bytes = (s.file.drop start).take (end_ - start) := by
  rw [readAt] at h
  split_ifs at h
  exact (Option.some.inj h).symm

/-- Counting forward from a position finds the next line starts. -/
theorem select_of_countForwardFrom (h : IndexInv s.file s.pageSize s.index) {fuel pos r found : ℕ}
    (hfound : s.countForwardFrom reads fuel pos (r + 1) = some found) :
    select isNewline s.file (rank isNewline s.file pos + (r + 1)) = some found := by
  induction fuel generalizing pos r with
  | zero => cases hfound
  | succ fuel ih =>
    rw [countForwardFrom] at hfound
    split_ifs at hfound with hpos
    obtain ⟨page, hpage, hfound⟩ := Option.bind_eq_some_iff.mp hfound
    obtain ⟨hmem, hlo, hhi⟩ := IndexInv.pageAtByte_eq_some hpage
    rw [if_neg (not_not.mpr (h.scanned page hmem))] at hfound
    obtain ⟨bytes, hread, hfound⟩ := Option.bind_eq_some_iff.mp hfound
    have hend := (h.bounds hmem).2.1
    have hbytes : bytes.drop (pos - page.start)
        = (s.file.drop pos).take (page.end_ - pos) := by
      rw [eq_of_readAt hread, List.drop_take, List.drop_drop, Nat.add_sub_cancel' hlo]
      congr 1
      omega
    dsimp only at hfound
    rw [hbytes, nthNewline_succ] at hfound
    cases hsel : select isNewline ((s.file.drop pos).take (page.end_ - pos)) (r + 1) with
    | some k =>
      rw [hsel] at hfound
      have hk := ((select_slice (by omega)).mp hsel).2
      obtain rfl : pos + k = found := by
        have := Option.some.inj hfound
        omega
      exact hk
    | none =>
      rw [hsel] at hfound
      have hlt := select_eq_none_iff.mp hsel
      rw [countP_take_drop hhi.le] at hlt hfound
      have hmono : rank isNewline s.file pos ≤ rank isNewline s.file page.end_ := rank_mono hhi.le
      obtain ⟨r', hr'⟩ := Nat.exists_eq_add_of_lt hlt
      dsimp only at hfound
      rw [show r + 1 - (rank isNewline s.file page.end_ - rank isNewline s.file pos) = r' + 1
        by omega] at hfound
      rw [← ih hfound]
      congr 1
      omega

/-- The cursor is at the start of its line. -/
def CursorTrue (s : Store) : Prop :=
  ∀ line byte, s.baseLineCursor = some (line, byte) → select isNewline s.file line = some byte

theorem select_of_cursorAnswer (h : IndexInv s.file s.pageSize s.index) (hcursor : s.CursorTrue)
    {byte : ℕ} (hbyte : s.cursorAnswer reads line = some byte) :
    select isNewline s.file line = some byte := by
  rw [cursorAnswer] at hbyte
  split at hbyte
  · cases hbyte
  · next cursorLine cursorByte hc =>
    have hsel := hcursor _ _ hc
    dsimp only at hbyte
    split_ifs at hbyte with heq hahead
    · exact heq ▸ Option.some.inj hbyte ▸ hsel
    · obtain ⟨r, hr⟩ := Nat.exists_eq_succ_of_ne_zero hahead.1.ne'
      rw [hr] at hbyte
      have hfound := select_of_countForwardFrom h hbyte
      rw [rank_select hsel] at hfound
      rwa [show cursorLine + (r + 1) = line by omega] at hfound

/-- An answer from the table is right exactly when the newlines before its page are scanned. -/
theorem tableAnswer_iff (h : IndexInv s.file s.pageSize s.index) {i r byte : ℕ}
    {d : PageDescriptor} (hd : s.index.descriptors[i]? = some d) {bytes : List UInt8}
    (hread : s.readAt reads d.start d.end_ = some bytes)
    (hnth : nthNewline (r + 1) 0 bytes = .ok byte)
    (hline : line = newlines (s.index.descriptors.take i) + (r + 1)) :
    select isNewline s.file line = some (d.start + byte) ↔
      Covered s.file s.index.descriptors d.start := by
  obtain ⟨hse, hend, -⟩ := h.bounds (List.mem_of_getElem? hd)
  obtain ⟨hle, hiff⟩ := h.newlines_take_eq_iff hd
  rw [← hiff]
  -- the position is right for the line that the file has there
  have htrue : select isNewline s.file (rank isNewline s.file d.start + (r + 1))
      = some (d.start + byte) := by
    rw [nthNewline_succ, eq_of_readAt hread] at hnth
    cases hsel : select isNewline ((s.file.drop d.start).take (d.end_ - d.start)) (r + 1) with
    | none =>
      rw [hsel] at hnth
      cases hnth
    | some k =>
      rw [hsel] at hnth
      have hk := ((select_slice (by omega)).mp hsel).2
      obtain rfl : k = byte := by
        have := Except.ok.inj hnth
        omega
      exact hk
  constructor
  · intro hsel
    have hrank := (rank_select hsel).symm.trans (rank_select htrue)
    omega
  · intro heq
    rw [hline, heq]
    exact htrue

/-- What a lookup of a line can give: nothing exact or the first line, an answer from the cursor, or
an answer from the table. -/
def Outcome (s : Store) (reads : Reader) (line : ℕ) (lookup : LineLookup)
    (cursor : Option (ℕ × ℕ)) : Prop :=
  (cursor = s.baseLineCursor ∧ ∀ b, lookup = .exact b → line = 0 ∧ b = 0) ∨
  ∃ b, lookup = .exact b ∧ cursor = some (line, b) ∧
    (s.cursorAnswer reads line = some b ∨ s.cursorAnswer reads line = none ∧
      ∃ i d bytes r byte, s.index.descriptors[i]? = some d ∧
        s.readAt reads d.start d.end_ = some bytes ∧ nthNewline (r + 1) 0 bytes = .ok byte ∧
        line = newlines (s.index.descriptors.take i) + (r + 1) ∧ b = d.start + byte ∧
        s.index.findPageForLine line
          = some (.ok (d, newlines (s.index.descriptors.take i))))

theorem lineToByte_cases (h : IndexInv s.file s.pageSize s.index) (reads : Reader) (line : ℕ) :
    ∃ lookup cursor, s.lineToByte reads line
        = some (lookup, { s with baseLineCursor := cursor }) ∧
      s.Outcome reads line lookup cursor := by
  have hkeep : ∀ lookup : LineLookup, (∀ b, lookup ≠ .exact b) → ∃ lookup' cursor,
      some (lookup, s) = some (lookup', { s with baseLineCursor := cursor }) ∧
      s.Outcome reads line lookup' cursor :=
    fun lookup hne ↦ ⟨lookup, s.baseLineCursor, rfl, .inl ⟨rfl, fun b hb ↦ absurd hb (hne b)⟩⟩
  rw [lineToByte]
  by_cases h0 : line = 0 ∧ s.file.length > 0
  · rw [if_pos h0]
    refine ⟨_, s.baseLineCursor, rfl, .inl ⟨rfl, fun b hb ↦ ⟨h0.1, ?_⟩⟩⟩
    cases hb
    rfl
  · rw [if_neg h0]
    cases hcur : s.cursorAnswer reads line with
    | some b => exact ⟨_, _, rfl, .inr ⟨b, rfl, rfl, .inl hcur⟩⟩
    | none =>
      rcases h.findPageForLine_eq line with ⟨lookup, hfind, hne⟩ | ⟨i, d, hd, hfind, hlo, hhi⟩
      · rw [hfind]
        cases lookup with
        | exact b => exact absurd rfl (hne b)
        | pending =>
          refine hkeep _ fun b ↦ ?_
          split_ifs <;> simp
        | approximate => exact hkeep _ (by simp)
        | outOfRange => exact hkeep _ (by simp)
      · simp only [hfind, Option.bind_eq_bind, Option.bind_some]
        split_ifs with hwithin
        · -- line 0 of an empty file has no page
          obtain ⟨k, -, hlt⟩ := h.pages d (List.mem_of_getElem? hd)
          rcases hlo with rfl | hlo
          · refine absurd ⟨?_, by omega⟩ h0
            rw [List.take_zero] at hwithin
            exact hwithin
          · omega
        · cases hread : s.readAt reads d.start d.end_ with
          | none => exact hkeep _ (by simp)
          | some bytes =>
            obtain ⟨r, hr⟩ := Nat.exists_eq_succ_of_ne_zero hwithin
            dsimp only
            rw [hr]
            cases hnth : nthNewline (r + 1) 0 bytes with
            | error left => exact hkeep _ (by simp)
            | ok byte =>
              exact ⟨_, _, rfl, .inr ⟨_, rfl, rfl,
                .inr ⟨hcur, i, d, bytes, r, byte, hd, hread, hnth,
                by omega, rfl, hfind⟩⟩⟩

/-- A lookup of a line is right exactly when it is safe. -/
theorem lineToByte_iff (h : IndexInv s.file s.pageSize s.index) (hcursor : s.CursorTrue) {b : ℕ}
    (hb : s.lineToByte reads line = some (.exact b, s')) :
    select isNewline s.file line = some b ↔ s.LineSafe reads line := by
  obtain ⟨lookup, cursor, heq, hcases⟩ := lineToByte_cases h reads line
  rw [heq, Option.some_inj, Prod.mk.injEq] at hb
  rcases hcases with ⟨-, hzero⟩ | ⟨b', hlookup, -, hanswer⟩
  · obtain ⟨rfl, rfl⟩ := hzero b hb.1
    exact iff_of_true select_zero (.inl rfl)
  · obtain rfl : b' = b := by
      rw [hlookup] at hb
      exact LineLookup.exact.inj hb.1
    rcases hanswer with hcur | ⟨hcur, i, d, bytes, r, byte, hd, hread, hnth, hline, rfl, hfind⟩
    · exact iff_of_true (select_of_cursorAnswer h hcursor hcur) (.inr (.inl (by simp [hcur])))
    · rw [tableAnswer_iff h hd hread hnth hline, LineSafe, hcur, hfind]
      constructor
      · intro hcov
        refine .inr (.inr fun page before hpage ↦ ?_)
        obtain ⟨rfl, -⟩ := Prod.mk.inj (Except.ok.inj (Option.some.inj hpage))
        exact hcov
      · rintro (h0 | hne | hcov)
        · omega
        · exact absurd rfl hne
        · exact hcov d _ rfl

/-- A lookup of a position is right exactly when it is safe. -/
theorem byteToLine_iff (h : IndexInv s.file s.pageSize s.index)
    (hline : s.byteToLine reads offset = some line) :
    line = rank isNewline s.file offset ↔ s.ByteSafe offset := by
  rw [byteToLine] at hline
  split_ifs at hline
  obtain ⟨d, hpage, hline⟩ := Option.bind_eq_some_iff.mp hline
  obtain ⟨acc, hacc, hline⟩ := Option.bind_eq_some_iff.mp hline
  obtain ⟨bytes, hread, hline⟩ := Option.bind_eq_some_iff.mp hline
  obtain ⟨hmem, hlo, hhi⟩ := IndexInv.pageAtByte_eq_some hpage
  obtain ⟨i, hd⟩ := List.mem_iff_getElem?.mp hmem
  rw [h.cumLinesBefore_eq hd, Option.some_inj] at hacc
  have hbytes := eq_of_readAt hread
  have hend := (h.bounds hmem).2.1
  have hlen : bytes.length = d.end_ - d.start := by
    rw [hbytes, List.length_take, List.length_drop]
    omega
  have hcount : (bytes.take (min (offset - d.start) bytes.length)).countP isNewline
      = rank isNewline s.file offset - rank isNewline s.file d.start := by
    rw [min_eq_left (by omega), hbytes, List.take_take, min_eq_left (by omega),
      countP_take_drop hlo]
  have hmono : rank isNewline s.file d.start ≤ rank isNewline s.file offset := rank_mono hlo
  have hline := Option.some.inj hline
  rw [hcount] at hline
  have hiff := (h.newlines_take_eq_iff hd).2
  have hsafe : s.ByteSafe offset ↔ Covered s.file s.index.descriptors d.start := by
    constructor
    · exact fun hall ↦ hall d hpage
    · intro hcov page hpage'
      obtain rfl := Option.some.inj (hpage.symm.trans hpage')
      exact hcov
  rw [hsafe, ← hiff]
  omega

/-! ## Runs -/

/-- The stores that scans of pages and safe lookups lead to, in any order. -/
inductive Reachable (file : List UInt8) (p : ℕ) : Store → Prop
  | new : Reachable file p (.new file p)
  | scan {s : Store} (hs : Reachable file p s) (reads : Reader) (k : ℕ) :
    Reachable file p (s.scanPageAt reads (k * p))
  | lineToByte {s s' : Store} {reads : Reader} {line : ℕ} {lookup : LineLookup}
    (hs : Reachable file p s) (hsafe : s.LineSafe reads line)
    (hlookup : s.lineToByte reads line = some (lookup, s')) : Reachable file p s'

theorem Reachable.inv (hcr : (13 : UInt8) ∉ file) (h : Reachable file p s) :
    s.file = file ∧ s.pageSize = p ∧ IndexInv s.file s.pageSize s.index ∧ s.CursorTrue := by
  induction h with
  | new =>
    refine ⟨rfl, rfl, ⟨.nil, by simp [Store.new, PageIndex.new], rfl, rfl⟩, fun _ _ hc ↦ ?_⟩
    cases hc
  | scan hs reads k ih =>
    obtain ⟨rfl, rfl, hinv, hcursor⟩ := ih
    obtain ⟨hinv', index, heq⟩ := hinv.scanPageAt hcr reads k
    rw [heq] at hinv' ⊢
    exact ⟨rfl, rfl, hinv', hcursor⟩
  | lineToByte hs hsafe hlookup ih =>
    obtain ⟨rfl, rfl, hinv, hcursor⟩ := ih
    have hsel := fun b s' (hb : _ = some (LineLookup.exact b, s')) ↦
      (lineToByte_iff hinv hcursor hb).mpr hsafe
    obtain ⟨lookup, cursor, heq, hcases⟩ := lineToByte_cases hinv _ _
    rw [heq, Option.some_inj, Prod.mk.injEq] at hlookup
    obtain ⟨rfl, rfl⟩ := hlookup
    refine ⟨rfl, rfl, hinv, ?_⟩
    rcases hcases with ⟨rfl, -⟩ | ⟨b, rfl, rfl, -⟩
    · exact hcursor
    · intro line byte hc
      obtain ⟨rfl, rfl⟩ := Prod.mk.inj (Option.some.inj hc)
      exact hsel _ _ heq

/-- In a run whose lookups are all safe, an exact answer is the true one if and only if its lookup
is safe too. -/
theorem Reachable.answers_iff (hcr : (13 : UInt8) ∉ file) (h : Reachable file p s) :
    (∀ reads line, s.lineToByte reads line ≠ none ∧
      ∀ b s', s.lineToByte reads line = some (.exact b, s') →
        (select isNewline file line = some b ↔ s.LineSafe reads line)) ∧
    ∀ reads offset line, s.byteToLine reads offset = some line →
      (line = rank isNewline file offset ↔ s.ByteSafe offset) := by
  obtain ⟨rfl, rfl, hinv, hcursor⟩ := h.inv hcr
  refine ⟨fun reads line ↦ ⟨?_, fun b s' hb ↦ lineToByte_iff hinv hcursor hb⟩,
    fun reads offset line hline ↦ byteToLine_iff hinv hline⟩
  obtain ⟨lookup, cursor, heq, -⟩ := lineToByte_cases hinv reads line
  rw [heq]
  exact Option.some_ne_none _

/-- After a scan that leaves a gap, lookups miss the newlines of the gap. -/
theorem lookups_miss_gap :
    let s := (Store.new [10, 10, 97, 10, 98] 2).scanPageAt (fun _ _ ↦ true) 2
    Reachable [10, 10, 97, 10, 98] 2 s ∧
      s.byteToLine (fun _ _ ↦ true) 3 = some 0 ∧ rank isNewline [10, 10, 97, 10, 98] 3 = 2 ∧
      (∃ x ∈ s.lineToByte (fun _ _ ↦ true) 1, x.1 = .exact 4) ∧
      select isNewline [10, 10, 97, 10, 98] 1 = some 1 :=
  ⟨.scan .new _ 1, by decide, by decide, by decide, by decide⟩

/-- After a scan from the beginning, the answers are true. -/
theorem Reachable.answers_iff_prefix :
    let s := (Store.new [97, 10, 98, 10, 99] 2).scanPageAt (fun _ _ ↦ true) 0
    (∃ x ∈ s.lineToByte (fun _ _ ↦ true) 1, x.1 = .exact 2) ∧
      select isNewline [97, 10, 98, 10, 99] 1 = some 2 := by
  have hnew : Reachable [97, 10, 98, 10, 99] 2 (.new [97, 10, 98, 10, 99] 2) := .new
  have h := (hnew.scan (fun _ _ ↦ true) 0).answers_iff (by decide)
  refine ⟨by decide, ((h.1 (fun _ _ ↦ true) 1).2 2
    { (Store.new [97, 10, 98, 10, 99] 2).scanPageAt (fun _ _ ↦ true) 0 with
      baseLineCursor := some (1, 2) } (by decide)).mpr
    (.inr (.inr fun page before hpage i hi _ ↦ ?_))⟩
  obtain ⟨rfl, -⟩ := Prod.mk.inj (Except.ok.inj (Option.some.inj hpage))
  exact absurd hi (Nat.not_lt_zero i)

end Store

end EeEditor.Vlf
