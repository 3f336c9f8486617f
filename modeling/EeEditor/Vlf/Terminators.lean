import EeEditor.Vlf.Store
import Mathlib.Data.List.Induction

/-!
# Line terminators of a text and of its parts

A line ends with a line feed, with a carriage return, or with both. A terminator counts where it
ends, so the terminators of a text add up over its parts once each part knows the byte after it
(`lineEnds_append`). This is what `analyse_bytes` counts, less a leading line feed that it takes for
the second half of a pair (`analyseBytes_add`).
-/

namespace EeEditor.Vlf

/-- The line terminators of a text: a carriage return with a line feed once, each alone once. -/
def lineTerminators : List UInt8 → ℕ
  | [] => 0
  | [b] => if b = 10 ∨ b = 13 then 1 else 0
  | b :: c :: rest =>
    if b = 13 ∧ c = 10 then 1 + lineTerminators rest
    else if b = 10 ∨ b = 13 then 1 + lineTerminators (c :: rest)
    else lineTerminators (c :: rest)

/-- The terminators that end in a part of a text, where `next` is the byte after the part. -/
def lineEnds (next : Option UInt8) : List UInt8 → ℕ
  | [] => 0
  | b :: rest =>
    (if b = 10 ∨ b = 13 ∧ rest.head?.or next ≠ some 10 then 1 else 0) + lineEnds next rest

theorem lineEnds_append (next : Option UInt8) (l l' : List UInt8) :
    lineEnds next (l ++ l') = lineEnds (l'.head?.or next) l + lineEnds next l' := by
  induction l with
  | nil => simp [lineEnds]
  | cons b l ih =>
    have hnext : (l ++ l').head?.or next = l.head?.or (l'.head?.or next) := by
      cases l <;> simp
    rw [List.cons_append, lineEnds, lineEnds, hnext, ih, Nat.add_assoc]

theorem lineTerminators_eq (l : List UInt8) : lineTerminators l = lineEnds none l := by
  induction l using lineTerminators.induct with
  | case1 => rfl
  | case2 b hb => simp [lineTerminators, lineEnds, hb]
  | case3 b hb => simp [lineTerminators, lineEnds, hb]
  | case4 b c rest h ih =>
    obtain ⟨rfl, rfl⟩ := h
    simp [lineTerminators, lineEnds, ih]
  | case5 b c rest h hb ih =>
    rw [lineTerminators, if_neg h, if_pos hb, lineEnds, ← ih]
    have hend : b = 10 ∨ b = 13 ∧ (c :: rest).head?.or none ≠ some 10 := by
      refine hb.imp_right fun hb ↦ ⟨hb, fun hc ↦ h ⟨hb, ?_⟩⟩
      simpa using hc
    rw [if_pos hend]
  | case6 b c rest h hb ih =>
    rw [lineTerminators, if_neg h, if_neg hb, lineEnds, ← ih,
      if_neg fun hend ↦ hb (hend.imp_right And.left), Nat.zero_add]

/-- The byte after a part matters only if the part ends with a carriage return. -/
theorem lineEnds_congr {next next' : Option UInt8} {l : List UInt8}
    (h : l.getLast? = some 13 → (next = some 10 ↔ next' = some 10)) :
    lineEnds next l = lineEnds next' l := by
  induction l with
  | nil => rfl
  | cons b l ih =>
    cases l with
    | nil =>
      rw [lineEnds, lineEnds]
      by_cases hb : b = 13
      · subst hb
        simp [lineEnds, h rfl]
      · simp [lineEnds, hb]
    | cons c l =>
      have ih := ih (by simpa [List.getLast?_cons_cons] using h)
      rw [lineEnds, lineEnds.eq_2 next', ih]
      rfl

/-- The byte that a page takes to follow it. -/
def seamByte (endsWithCrBeforeLf : Bool) : Option UInt8 :=
  if endsWithCrBeforeLf then some 10 else none

theorem countLineEnds_eq_lineEnds (ends : Bool) (bytes : List UInt8) :
    countLineEnds ends false bytes = lineEnds (seamByte ends) bytes ∧
      (bytes.head? ≠ some 10 → countLineEnds ends true bytes = lineEnds (seamByte ends) bytes) := by
  induction bytes using List.twoStepInduction with
  | nil => exact ⟨rfl, fun _ ↦ rfl⟩
  | singleton b =>
    by_cases h10 : b = 10
    · subst h10
      simp [countLineEnds, lineEnds]
    · by_cases h13 : b = 13
      · subst h13
        cases ends <;> simp [countLineEnds, lineEnds, seamByte]
      · simp [countLineEnds, lineEnds, h10, h13]
  | cons_cons b c bytes ih ih' =>
    by_cases h10 : b = 10
    · subst h10
      refine ⟨?_, fun h ↦ absurd rfl h⟩
      rw [countLineEnds, if_pos rfl, (ih' c).1, lineEnds.eq_2 _ 10]
      simp
    · by_cases h13 : b = 13
      · subst h13
        have hpair : ∀ prevIsCr, countLineEnds ends prevIsCr (13 :: c :: bytes)
            = lineEnds (seamByte ends) (13 :: c :: bytes) := by
          intro prevIsCr
          rw [countLineEnds, if_neg (by decide), if_pos rfl]
          by_cases hc : c = 10
          · subst hc
            simp [lineEnds, ih.1]
          · rw [lineEnds.eq_2 _ 13, ← (ih' c).2 (by simpa using hc)]
            simp [hc]
        exact ⟨hpair false, fun _ ↦ hpair true⟩
      · have hskip : ∀ prevIsCr, countLineEnds ends prevIsCr (b :: c :: bytes)
            = lineEnds (seamByte ends) (b :: c :: bytes) := by
          intro prevIsCr
          rw [countLineEnds, if_neg h10, if_neg h13, lineEnds, (ih' c).1]
          simp [h10, h13]
        exact ⟨hskip false, fun _ ↦ hskip true⟩

/-- `analyse_bytes` counts the terminators that end in the page, less a line feed that it skips. -/
theorem analyseBytes_add (bytes : List UInt8) (starts ends : Bool)
    (hstarts : starts = true → bytes.head? = some 10) :
    analyseBytes bytes starts ends + starts.toNat = lineEnds (seamByte ends) bytes := by
  cases starts with
  | false => simp [analyseBytes, (countLineEnds_eq_lineEnds ends bytes).1]
  | true =>
    obtain ⟨rest, rfl⟩ := List.head?_eq_some_iff.mp (hstarts rfl)
    simp [analyseBytes, lineEnds, (countLineEnds_eq_lineEnds ends rest).1, Nat.add_comm]

/-! ## Texts without lone carriage returns -/

/-- A line feed follows every carriage return. -/
def NoLoneCr (l : List UInt8) : Prop := ∀ i : ℕ, l[i]? = some 13 → l[i + 1]? = some 10

theorem NoLoneCr.of_not_mem {l : List UInt8} (h : (13 : UInt8) ∉ l) : NoLoneCr l :=
  fun _ hi ↦ absurd (List.mem_of_getElem? hi) h

theorem NoLoneCr.getLast?_ne {l : List UInt8} (h : NoLoneCr l) : l.getLast? ≠ some 13 := by
  intro hlast
  rw [List.getLast?_eq_getElem?] at hlast
  have hlt := (List.getElem?_eq_some_iff.mp hlast).1
  have hnext := h _ hlast
  rw [Nat.sub_add_cancel (by omega), List.getElem?_eq_none le_rfl] at hnext
  cases hnext

/-- A part whose carriage returns are all followed by line feeds has as many terminators as line
feeds. -/
theorem lineEnds_eq_countP {next : Option UInt8} {l : List UInt8}
    (h : ∀ i : ℕ, l[i]? = some 13 → l[i + 1]?.or next = some 10) :
    lineEnds next l = l.countP isNewline := by
  induction l with
  | nil => rfl
  | cons b l ih =>
    have hpair : b = 13 → l.head?.or next = some 10 := fun hb ↦ by
      rw [List.head?_eq_getElem?]
      simpa using h 0 (by simp [hb])
    rw [lineEnds, ih fun i hi ↦ by simpa using h (i + 1) (by simpa using hi), List.countP_cons,
      isNewline]
    by_cases h13 : b = 13
    · simp [h13, hpair h13]
    · by_cases h10 : b = 10
      · simp [h10, Nat.add_comm]
      · simp [h10, h13]

theorem NoLoneCr.lineEnds_eq {l : List UInt8} (h : NoLoneCr l) (next : Option UInt8) :
    lineEnds next l = l.countP isNewline :=
  lineEnds_eq_countP fun i hi ↦ by rw [h i hi, Option.some_or]

theorem NoLoneCr.analyseBytes_eq {bytes : List UInt8} (h : NoLoneCr bytes) (ends : Bool) :
    analyseBytes bytes false ends = bytes.countP isNewline := by
  have hadd := analyseBytes_add bytes false ends nofun
  rw [h.lineEnds_eq] at hadd
  exact hadd

/-! ## Positions -/

/-- The terminators that end before a position. -/
def endsBefore (file : List UInt8) (i : ℕ) : ℕ := lineEnds file[i]? (file.take i)

theorem endsBefore_length (file : List UInt8) :
    endsBefore file file.length = lineTerminators file := by
  rw [endsBefore, List.take_length, List.getElem?_eq_none le_rfl, lineTerminators_eq]

/-- Between two positions there end the terminators of the part between them. -/
theorem endsBefore_add {file : List UInt8} {i j : ℕ} (h : i ≤ j) (hj : j ≤ file.length) :
    endsBefore file i + lineEnds file[j]? ((file.drop i).take (j - i)) = endsBefore file j := by
  have hsplit : file.take j = file.take i ++ (file.drop i).take (j - i) := by
    conv_lhs => rw [← List.take_append_drop i (file.take j)]
    rw [List.take_take, min_eq_left h, List.drop_take]
  have hnext : (((file.drop i).take (j - i)).head?).or file[j]? = file[i]? := by
    rcases h.lt_or_eq with hlt | rfl
    · rw [List.head?_take, if_neg (by omega), List.head?_drop, List.getElem?_eq_getElem (by omega)]
      rfl
    · simp
  rw [endsBefore, endsBefore, hsplit, lineEnds_append, hnext]

end EeEditor.Vlf
