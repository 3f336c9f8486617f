import EeEditor.Tree.Boundaries
import EeEditor.Tree.Text

/-!
# The metrics of a rope are lawful

The character boundaries of a text are where its characters end, so they are found leaf by leaf; a
line boundary is told by the byte before it.
-/

namespace EeEditor.BTree

variable {s t : Text} {c : Char} {o q : ℕ}

/-! ## Character boundaries -/

theorem utf8Size_pos (c : Char) : 0 < (String.utf8EncodeChar c).length := by
  obtain ⟨b, rest, hc, -⟩ := utf8EncodeChar_eq_cons c
  rw [hc]
  exact Nat.succ_pos _

/-- A byte within a character is not a boundary. -/
theorem isCharBoundary_inside (ho : 0 < o) (hlt : o < (String.utf8EncodeChar c).length) :
    isCharBoundary (bytes (c :: s)) o = false := by
  obtain ⟨b, rest, hc, -, hrest, -⟩ := utf8EncodeChar_eq_cons c
  rw [hc, List.length_cons] at hlt
  obtain ⟨o, rfl⟩ := Nat.exists_eq_add_of_lt ho
  rw [Nat.zero_add] at *
  have hlt' : o < rest.length := by omega
  have hget : (bytes (c :: s))[o + 1]? = some rest[o] := by
    rw [bytes_cons, hc, List.cons_append, List.getElem?_cons_succ,
      List.getElem?_append_left (by omega), List.getElem?_eq_getElem]
  rw [isCharBoundary, hget]
  simp [hrest _ (List.getElem_mem hlt')]

/-- Past a character the boundaries are those of the rest. -/
theorem isCharBoundary_after (o : ℕ) :
    isCharBoundary (bytes (c :: s)) ((String.utf8EncodeChar c).length + o)
      = isCharBoundary (bytes s) o := by
  have hget : (bytes (c :: s))[(String.utf8EncodeChar c).length + o]? = (bytes s)[o]? := by
    rw [bytes_cons, List.getElem?_append_right (Nat.le_add_right _ _), Nat.add_sub_cancel_left]
  have hpos := utf8Size_pos c
  rw [Bool.eq_iff_iff, isCharBoundary_iff, isCharBoundary_iff, hget, bytes_cons, List.length_append]
  constructor
  · rintro (h | h | h)
    · omega
    · exact .inr (.inl (by omega))
    · exact .inr (.inr h)
  · rintro (rfl | h | h)
    · cases s with
      | nil => exact .inr (.inl rfl)
      | cons c' s =>
        obtain ⟨b, rest, hc, hb, -⟩ := utf8EncodeChar_eq_cons c'
        exact .inr (.inr ⟨b, by simp [hc], hb⟩)
    · exact .inr (.inl (by omega))
    · exact .inr (.inr h)

theorem isCharBoundary_cons : isCharBoundary (bytes (c :: s)) o = true ↔
    o = 0 ∨ ∃ o', o = (String.utf8EncodeChar c).length + o' ∧
    isCharBoundary (bytes s) o' = true := by
  rcases Nat.lt_or_ge o (String.utf8EncodeChar c).length with hlt | hge
  · rcases Nat.eq_zero_or_pos o with rfl | hpos
    · exact iff_of_true isCharBoundary_zero (.inl rfl)
    · rw [isCharBoundary_inside hpos hlt]
      refine iff_of_false Bool.false_ne_true ?_
      rintro (rfl | ⟨o', rfl, -⟩) <;> omega
  · obtain ⟨o', rfl⟩ := Nat.exists_eq_add_of_le hge
    have := utf8Size_pos c
    rw [isCharBoundary_after]
    constructor
    · exact fun h ↦ .inr ⟨o', rfl, h⟩
    · rintro (h | ⟨o'', h, h'⟩)
      · omega
      · obtain rfl : o' = o'' := by omega
        exact h'

theorem isCharBoundary_bytes_nil : isCharBoundary (bytes []) o = (o == 0) := by
  rw [Bool.eq_iff_iff, isCharBoundary_iff]
  simp

theorem isCharBoundary_append : isCharBoundary (bytes (s ++ t)) o
    = if o ≤ (bytes s).length then isCharBoundary (bytes s) o
      else isCharBoundary (bytes t) (o - (bytes s).length) := by
  induction s generalizing o with
  | nil =>
    split
    · obtain rfl : o = 0 := by simpa using ‹o ≤ (bytes []).length›
      rw [isCharBoundary_zero, isCharBoundary_zero]
    · simp
  | cons c s ih =>
    rw [List.cons_append]
    rcases Nat.lt_or_ge o (String.utf8EncodeChar c).length with hlt | hge
    · have hle : o ≤ (bytes (c :: s)).length := by
        rw [bytes_cons, List.length_append]
        omega
      rw [if_pos hle]
      rcases Nat.eq_zero_or_pos o with rfl | hpos
      · rw [isCharBoundary_zero, isCharBoundary_zero]
      · rw [isCharBoundary_inside hpos hlt, isCharBoundary_inside hpos hlt]
    · obtain ⟨o, rfl⟩ := Nat.exists_eq_add_of_le hge
      rw [isCharBoundary_after, isCharBoundary_after, ih]
      simp only [bytes_cons, List.length_append, Nat.add_le_add_iff_left, Nat.add_sub_add_left]

theorem isCharBoundary_le (h : isCharBoundary (bytes s) o = true) : o ≤ (bytes s).length := by
  rw [isCharBoundary_iff] at h
  rcases h with rfl | rfl | ⟨b, hb, -⟩
  · exact Nat.zero_le _
  · exact Nat.le_refl _
  · exact (List.getElem?_eq_some_iff.mp hb).1.le

/-- The first byte of a character tells its length. -/
theorem lenUtf8FromFirstByte_eq (c : Char) :
    ∃ b rest, String.utf8EncodeChar c = b :: rest ∧
      lenUtf8FromFirstByte b = (String.utf8EncodeChar c).length := by
  fun_cases String.utf8EncodeChar c with
  | case1 v h =>
    refine ⟨_, _, rfl, if_pos ?_⟩
    simp [UInt8.lt_iff_toNat_lt]
    omega
  | case2 v h1 h2 =>
    refine ⟨_, _, rfl, ?_⟩
    rw [lenUtf8FromFirstByte, if_neg, if_pos]
    · rfl
    all_goals
      simp [UInt8.lt_iff_toNat_lt]
      omega
  | case3 v h1 h2 h3 =>
    refine ⟨_, _, rfl, ?_⟩
    rw [lenUtf8FromFirstByte, if_neg, if_neg, if_pos]
    · rfl
    all_goals
      simp [UInt8.lt_iff_toNat_lt]
      omega
  | case4 v h1 h2 h3 =>
    refine ⟨_, _, rfl, ?_⟩
    rw [lenUtf8FromFirstByte, if_neg, if_neg, if_neg]
    · rfl
    all_goals
      simp [UInt8.lt_iff_toNat_lt]
      omega

/-- The boundaries of a text. -/
def charBoundaries (s : Text) : Set ℕ := {q | isCharBoundary (bytes s) q = true}

theorem mem_charBoundaries : q ∈ charBoundaries s ↔ isCharBoundary (bytes s) q = true := Iff.rfl

/-- After a boundary comes the end of the character there. -/
theorem charsNext_boundary (ho : o < (bytes s).length)
    (hb : isCharBoundary (bytes s) o = true) : IsNext (charBoundaries s) o (charsNext s o) := by
  induction s generalizing o with
  | nil => exact absurd ho (Nat.not_lt_zero o)
  | cons c s ih =>
    have hpos := utf8Size_pos c
    rcases isCharBoundary_cons.mp hb with rfl | ⟨o, rfl, hb'⟩
    · obtain ⟨b, rest, hc, hlen⟩ := lenUtf8FromFirstByte_eq c
      have hnext : charsNext (c :: s) 0 = some ((String.utf8EncodeChar c).length + 0) := by
        rw [charsNext, bytes_cons, ← hlen, hc]
        simp
      rw [hnext]
      refine ⟨⟨?_, hpos⟩, fun q hq ↦ ?_⟩
      · rw [mem_charBoundaries, isCharBoundary_after]
        exact isCharBoundary_zero
      · rcases isCharBoundary_cons.mp hq.1 with rfl | ⟨q, rfl, -⟩
        · exact absurd hq.2 (Nat.lt_irrefl 0)
        · omega
    · have hlt : o < (bytes s).length := by
        rw [bytes_cons, List.length_append] at ho
        omega
      have hshift : charsNext (c :: s) ((String.utf8EncodeChar c).length + o)
          = (charsNext s o).map fun q ↦ (String.utf8EncodeChar c).length + q := by
        rw [charsNext, charsNext, bytes_cons, List.getElem?_append_right (Nat.le_add_right _ _),
          Nat.add_sub_cancel_left, Option.map_map]
        congr 1
        funext b
        exact Nat.add_assoc _ _ _
      have hrest := ih hlt hb'
      rw [hshift]
      cases hq : charsNext s o with
      | none =>
        rw [charsNext, Option.map_eq_none_iff, List.getElem?_eq_none_iff] at hq
        omega
      | some q =>
        rw [hq] at hrest
        refine ⟨⟨?_, Nat.add_lt_add_left hrest.1.2 _⟩, fun y hy ↦ ?_⟩
        · rw [mem_charBoundaries, isCharBoundary_after]
          exact hrest.1.1
        · rcases isCharBoundary_cons.mp hy.1 with rfl | ⟨y, rfl, hy'⟩
          · exact absurd hy.2 (Nat.not_lt_zero _)
          · exact Nat.add_le_add_left (hrest.2 ⟨hy', Nat.lt_of_add_lt_add_left hy.2⟩) _

/-- Within a character the byte is taken for the first of two. -/
theorem charsNext_inside (hle : o < (bytes s).length) (hb : isCharBoundary (bytes s) o = false) :
    charsNext s o = some (o + 2) := by
  obtain ⟨b, hget⟩ : ∃ b, (bytes s)[o]? = some b := ⟨_, List.getElem?_eq_getElem hle⟩
  rw [charsNext, hget, Option.map_some]
  rw [isCharBoundary, hget] at hb
  simp only [Bool.or_eq_false_iff, Bool.not_eq_false', isContinuation, Bool.and_eq_true,
    decide_eq_true_iff] at hb
  rw [lenUtf8FromFirstByte, if_neg, if_pos]
  · exact UInt8.lt_trans hb.2.2 (by decide)
  · exact UInt8.not_lt.mpr hb.2.1

/-- The loop goes down to the boundary before. -/
theorem prevCharBoundary_spec (ho : 0 < o) :
    IsPrev (charBoundaries s) o (some (prevCharBoundary s o)) := by
  induction o with
  | zero => exact absurd ho (Nat.lt_irrefl 0)
  | succ o ih =>
    rw [prevCharBoundary]
    split
    · rename_i hb
      exact ⟨⟨hb, Nat.lt_succ_self o⟩, fun q hq ↦ Nat.le_of_lt_succ hq.2⟩
    · rename_i hb
      have hpos : 0 < o := by
        rw [Nat.pos_iff_ne_zero]
        rintro rfl
        exact hb isCharBoundary_zero
      refine (ih hpos).of_gap (Nat.le_succ o) fun q hq hlt ↦ ?_
      refine Nat.lt_of_le_of_ne (Nat.le_of_lt_succ hlt) ?_
      rintro rfl
      exact hb hq

/-- A metric of whole characters, whatever it measures. -/
theorem charMetric_lawful (measure : Text → ℕ) (toBaseUnits fromBaseUnits : Text → ℕ → Option ℕ) :
    (charMetric measure toBaseUnits fromBaseUnits).Lawful where
  isBoundary_append := isCharBoundary_append
  isBoundary_empty := by
    intro o
    exact isCharBoundary_bytes_nil.trans (Bool.and_true _).symm
  isBoundary_zero := isCharBoundary_zero
  isBoundary_len _ _ := isCharBoundary_length
  le_len := isCharBoundary_le
  prev := by
    intro l o ho _
    change IsPrev (charBoundaries l) o (charsPrev l o)
    rw [charsPrev, if_neg ho.ne']
    exact prevCharBoundary_spec ho
  next_zero := by
    intro l
    change IsNext (charBoundaries l) 0 (charsNext l 0)
    rcases Nat.eq_zero_or_pos (bytes l).length with hzero | hpos
    · rw [charsNext, List.getElem?_eq_none (by omega)]
      exact fun q hq ↦ (isCharBoundary_le hq).trans hzero.le
    · exact charsNext_boundary hpos isCharBoundary_zero
  next_none := by
    intro l o _ hnone
    have hend : (bytes l).length ≤ o :=
      List.getElem?_eq_none_iff.mp (Option.map_eq_none_iff.mp hnone)
    exact fun q hq ↦ (isCharBoundary_le hq).trans hend
  next_some := by
    intro l o q ho hq
    change charsNext l o = some q at hq
    by_cases hb : isCharBoundary (bytes l) o = true
    · have hnext := charsNext_boundary ho hb
      rw [hq] at hnext
      exact iff_of_true hnext (.inr (.inl hb))
    · have hq' := charsNext_inside ho (Bool.not_eq_true _ ▸ hb)
      obtain rfl := Option.some_inj.mp (hq.symm.trans hq')
      refine ⟨fun h ↦ .inr (.inr h), ?_⟩
      rintro (h | h | h)
      · exact absurd h Bool.false_ne_true
      · exact absurd h hb
      · exact h
  measure_eq_zero h := absurd h Bool.false_ne_true

/-! ## Line boundaries -/

/-- The positions of the newlines. -/
def newlineAt (bs : List UInt8) (i : ℕ) : Prop := ∃ b, bs[i]? = some b ∧ isNewline b = true

variable {bs bs' : List UInt8} {i : ℕ}

theorem newlineAt.lt (h : newlineAt bs i) : i < bs.length := by
  obtain ⟨b, hb, -⟩ := h
  exact (List.getElem?_eq_some_iff.mp hb).1

theorem newlineAt_append_left (hi : i < bs.length) :
    newlineAt (bs ++ bs') i ↔ newlineAt bs i := by
  rw [newlineAt, newlineAt, List.getElem?_append_left hi]

theorem newlineAt_append_right : newlineAt (bs ++ bs') (bs.length + i) ↔ newlineAt bs' i := by
  rw [newlineAt, newlineAt, List.getElem?_append_right (Nat.le_add_right _ _),
    Nat.add_sub_cancel_left]

theorem newlineAt_drop {n : ℕ} : newlineAt (bs.drop n) i ↔ newlineAt bs (n + i) := by
  rw [newlineAt, newlineAt, List.getElem?_drop]

theorem newlineAt_take {n : ℕ} : newlineAt (bs.take n) i ↔ i < n ∧ newlineAt bs i := by
  rw [newlineAt, newlineAt, List.getElem?_take]
  split
  · rename_i hlt
    rw [and_iff_right hlt]
  · rename_i hge
    simp [hge]

theorem linesMetric_isBoundary :
    linesMetric.isBoundary s o = true ↔ ∃ i, o = i + 1 ∧ newlineAt (bytes s) i := by
  change (o != 0 && ((bytes s)[o - 1]?).any isNewline) = true ↔ _
  cases o with
  | zero => simp
  | succ i =>
    simp only [bne_iff_ne, ne_eq, Nat.succ_ne_zero, not_false_eq_true, Nat.add_sub_cancel,
      Bool.and_eq_true, true_and, Option.any_eq_true, newlineAt]
    constructor
    · exact fun h ↦ ⟨i, rfl, h⟩
    · rintro ⟨j, hj, h⟩
      obtain rfl := Nat.succ.inj hj
      exact h

theorem memchr_eq_some (h : memchr bs = some i) :
    newlineAt bs i ∧ ∀ j, newlineAt bs j → i ≤ j := by
  obtain ⟨hlt, hnewline, hfirst⟩ := List.findIdx?_eq_some_iff_getElem.mp h
  refine ⟨⟨bs[i], List.getElem?_eq_getElem hlt, hnewline⟩, ?_⟩
  rintro j ⟨b, hb, hnewline'⟩
  by_contra hji
  obtain ⟨hj, rfl⟩ := List.getElem?_eq_some_iff.mp hb
  exact hfirst j (Nat.lt_of_not_le hji) hnewline'

theorem memchr_eq_none (h : memchr bs = none) (j : ℕ) : ¬ newlineAt bs j := by
  rintro ⟨b, hb, hnewline⟩
  have := List.findIdx?_eq_none_iff.mp h b (List.mem_of_getElem? hb)
  rw [hnewline] at this
  cases this

theorem newlineAt_cons_succ {b : UInt8} : newlineAt (b :: bs) (i + 1) ↔ newlineAt bs i := by
  rw [newlineAt, newlineAt, List.getElem?_cons_succ]

theorem memrchr_spec (bs : List UInt8) : match memrchr bs with
    | some i => newlineAt bs i ∧ ∀ j, newlineAt bs j → j ≤ i
    | none => ∀ j, ¬ newlineAt bs j := by
  induction bs with
  | nil =>
    rintro j ⟨b, hb, -⟩
    simp at hb
  | cons b bs ih =>
    rw [memrchr]
    cases hrest : memrchr bs with
    | some pos =>
      rw [hrest] at ih
      refine ⟨newlineAt_cons_succ.mpr ih.1, fun j hj ↦ ?_⟩
      cases j with
      | zero => exact Nat.zero_le _
      | succ j => exact Nat.succ_le_succ (ih.2 j (newlineAt_cons_succ.mp hj))
    | none =>
      rw [hrest] at ih
      dsimp only
      split
      · rename_i i hi
        split at hi
        · rename_i hb
          obtain rfl := Option.some_inj.mp hi
          refine ⟨⟨b, rfl, hb⟩, fun j hj ↦ ?_⟩
          cases j with
          | zero => exact Nat.le_refl 0
          | succ j => exact absurd (newlineAt_cons_succ.mp hj) (ih j)
        · cases hi
      · rename_i hi
        split at hi
        · cases hi
        · rename_i hb
          intro j hj
          cases j with
          | zero =>
            obtain ⟨b', hb', hnewline⟩ := hj
            obtain rfl := Option.some_inj.mp hb'
            exact hb hnewline
          | succ j => exact ih j (newlineAt_cons_succ.mp hj)

theorem countNewlines_eq_zero : countNewlines bs = 0 ↔ ∀ i, ¬ newlineAt bs i := by
  rw [countNewlines, List.countP_eq_zero]
  constructor
  · rintro h i ⟨b, hb, hnewline⟩
    exact h b (List.mem_of_getElem? hb) hnewline
  · intro h b hb hnewline
    obtain ⟨i, hi, rfl⟩ := List.getElem_of_mem hb
    exact h i ⟨bs[i], List.getElem?_eq_getElem hi, hnewline⟩

theorem linesMetric_next (s : Text) (o : ℕ) :
    IsNext (linesMetric.boundaries s) o (linesMetric.next s o) := by
  change IsNext _ o ((memchr ((bytes s).drop o)).map fun pos ↦ o + pos + 1)
  cases h : memchr ((bytes s).drop o) with
  | none =>
    intro q hq
    obtain ⟨i, rfl, hi⟩ := linesMetric_isBoundary.mp hq
    by_contra hlt
    obtain ⟨j, rfl⟩ := Nat.exists_eq_add_of_le (show o ≤ i by omega)
    exact memchr_eq_none h j (newlineAt_drop.mpr hi)
  | some pos =>
    obtain ⟨hnewline, hfirst⟩ := memchr_eq_some h
    rw [Option.map_some]
    refine ⟨⟨linesMetric_isBoundary.mpr ⟨_, rfl, newlineAt_drop.mp hnewline⟩, by omega⟩, ?_⟩
    rintro q ⟨hq, hlt⟩
    obtain ⟨i, rfl, hi⟩ := linesMetric_isBoundary.mp hq
    obtain ⟨j, rfl⟩ := Nat.exists_eq_add_of_le (show o ≤ i by omega)
    have := hfirst j (newlineAt_drop.mpr hi)
    omega

theorem linesMetric_prev (s : Text) (ho : 0 < o) :
    IsPrev (linesMetric.boundaries s) o (linesMetric.prev s o) := by
  change IsPrev _ o ((memrchr ((bytes s).take (o - 1))).map fun pos ↦ pos + 1)
  have hspec := memrchr_spec ((bytes s).take (o - 1))
  cases h : memrchr ((bytes s).take (o - 1)) with
  | none =>
    rw [h] at hspec
    intro q hq
    obtain ⟨i, rfl, hi⟩ := linesMetric_isBoundary.mp hq
    by_contra hlt
    exact hspec i (newlineAt_take.mpr ⟨by omega, hi⟩)
  | some pos =>
    rw [h] at hspec
    obtain ⟨hlt, hnewline⟩ := newlineAt_take.mp hspec.1
    rw [Option.map_some]
    refine ⟨⟨linesMetric_isBoundary.mpr ⟨_, rfl, hnewline⟩, by omega⟩, ?_⟩
    rintro q ⟨hq, hqo⟩
    obtain ⟨i, rfl, hi⟩ := linesMetric_isBoundary.mp hq
    exact Nat.succ_le_succ (hspec.2 i (newlineAt_take.mpr ⟨by omega, hi⟩))

theorem linesMetric_lawful : linesMetric.Lawful where
  isBoundary_append := by
    intro a b o
    rw [Bool.eq_iff_iff, linesMetric_isBoundary]
    change (∃ i, o = i + 1 ∧ newlineAt (bytes (a ++ b)) i) ↔ _
    rw [bytes_append]
    split
    · rename_i hle
      rw [linesMetric_isBoundary]
      change o ≤ (bytes a).length at hle
      constructor
      · rintro ⟨i, rfl, hi⟩
        exact ⟨i, rfl, (newlineAt_append_left hle).mp hi⟩
      · rintro ⟨i, rfl, hi⟩
        exact ⟨i, rfl, (newlineAt_append_left hle).mpr hi⟩
    · rename_i hlt
      rw [linesMetric_isBoundary]
      change ¬ o ≤ (bytes a).length at hlt
      change _ ↔ ∃ i, o - (bytes a).length = i + 1 ∧ _
      constructor
      · rintro ⟨i, rfl, hi⟩
        obtain ⟨j, rfl⟩ := Nat.exists_eq_add_of_le (show (bytes a).length ≤ i by omega)
        exact ⟨j, by omega, newlineAt_append_right.mp hi⟩
      · rintro ⟨j, hj, hi⟩
        exact ⟨(bytes a).length + j, by omega, newlineAt_append_right.mpr hi⟩
  isBoundary_empty := by
    intro o
    rw [Bool.eq_iff_iff, linesMetric_isBoundary]
    refine iff_of_false ?_ (by simp [linesMetric])
    rintro ⟨i, -, hi⟩
    exact Nat.not_lt_zero i hi.lt
  isBoundary_zero := rfl
  isBoundary_len h := absurd h.symm Bool.false_ne_true
  le_len := by
    intro l o h
    obtain ⟨i, rfl, hi⟩ := linesMetric_isBoundary.mp h
    exact hi.lt
  prev ho _ := linesMetric_prev _ ho
  next_zero := linesMetric_next _ 0
  next_none := by
    intro l o _ hnone
    exact hnone ▸ linesMetric_next l o
  next_some := by
    intro l o q _ hq
    exact iff_of_true (hq ▸ linesMetric_next l o) (.inl rfl)
  measure_eq_zero := by
    intro _ l
    refine countNewlines_eq_zero.trans ?_
    rw [Set.eq_empty_iff_forall_notMem]
    constructor
    · rintro h q hq
      obtain ⟨i, rfl, hi⟩ := linesMetric_isBoundary.mp hq
      exact h i hi
    · exact fun h i hi ↦ h (i + 1) (linesMetric_isBoundary.mpr ⟨i, rfl, hi⟩)

theorem textMetrics_lawful : ∀ M ∈ textMetrics, M.Lawful := by
  intro M hM
  simp only [textMetrics, List.mem_cons, List.not_mem_nil, or_false] at hM
  rcases hM with rfl | rfl | rfl | rfl
  · exact charMetric_lawful _ _ _
  · exact charMetric_lawful _ _ _
  · exact charMetric_lawful _ _ _
  · exact linesMetric_lawful

/-! ## Parts of a text -/

variable {l u : Text} {ch : Char}

/-- A boundary splits a text. -/
theorem exists_split (ho : isCharBoundary (bytes l) o = true) :
    ∃ u s, l = u ++ s ∧ (bytes u).length = o := by
  induction l generalizing o with
  | nil =>
    obtain rfl := Nat.le_zero.mp (isCharBoundary_le ho)
    exact ⟨[], [], rfl, rfl⟩
  | cons ch l ih =>
    rcases isCharBoundary_cons.mp ho with rfl | ⟨o, rfl, ho'⟩
    · exact ⟨[], ch :: l, rfl, rfl⟩
    · obtain ⟨u, s, rfl, rfl⟩ := ih ho'
      exact ⟨ch :: u, s, rfl, by rw [bytes_cons, List.length_append]⟩

/-- The boundary after a character. -/
theorem charsNext_append (u : Text) (ch : Char) (s : Text) :
    charsNext (u ++ ch :: s) (bytes u).length
      = some ((bytes u).length + (String.utf8EncodeChar ch).length) := by
  obtain ⟨b, rest, hch, hlen⟩ := lenUtf8FromFirstByte_eq ch
  rw [charsNext, bytes_append, List.getElem?_append_right (Nat.le_refl _), Nat.sub_self, bytes_cons,
    ← hlen, hch]
  rfl

theorem len_append (u s : Text) : Leaf.len (u ++ s) = Leaf.len u + Leaf.len s := Leaf.len_append u s

theorem len_cons (ch : Char) (s : Text) :
    Leaf.len (ch :: s) = (String.utf8EncodeChar ch).length + Leaf.len s := by
  change (bytes (ch :: s)).length = _
  rw [bytes_cons, List.length_append]
  rfl

theorem len_pos (hs : s ≠ []) : 0 < Leaf.len s := by
  obtain ⟨ch, s, rfl⟩ := List.exists_cons_of_ne_nil hs
  have := utf8Size_pos ch
  rw [len_cons]
  omega

/-- A text has one part of each length. -/
theorem append_unique {u' s' : Text} (heq : u ++ s = u' ++ s') (hlen : Leaf.len u = Leaf.len u') :
    u = u' ∧ s = s' := by
  have hnil : ∀ {v x : Text}, Leaf.len v = Leaf.len (v ++ x) → x = [] := by
    intro v x hx
    by_contra hne
    have := len_pos hne
    rw [len_append] at hx
    omega
  rcases List.append_eq_append_iff.mp heq with ⟨x, rfl, rfl⟩ | ⟨x, rfl, rfl⟩
  · obtain rfl := hnil hlen
    exact ⟨(List.append_nil _).symm, rfl⟩
  · obtain rfl := hnil hlen.symm
    exact ⟨List.append_nil _, rfl⟩

theorem encode_injective {c d : Char} {bs bs' : List UInt8}
    (h : String.utf8EncodeChar c ++ bs = String.utf8EncodeChar d ++ bs') : c = d := by
  have hc := ByteArray.utf8DecodeChar?_utf8EncodeChar_append (c := c) (b := bs.toByteArray)
  have hd := ByteArray.utf8DecodeChar?_utf8EncodeChar_append (c := d) (b := bs'.toByteArray)
  rw [← List.toByteArray_append] at hc hd
  rw [h, hd] at hc
  exact (Option.some_inj.mp hc).symm

/-- The characters of a text are told by its bytes. -/
theorem prefix_of_bytes (h : bytes s <+: bytes t) : ∃ rest, t = s ++ rest := by
  induction s generalizing t with
  | nil => exact ⟨t, rfl⟩
  | cons ch s ih =>
    obtain ⟨bs, hbs⟩ := h
    rw [bytes_cons, List.append_assoc] at hbs
    cases t with
    | nil =>
      have := utf8Size_pos ch
      have hlen := congrArg List.length hbs
      rw [List.length_append, bytes_nil, List.length_nil] at hlen
      omega
    | cons ch' t =>
      rw [bytes_cons] at hbs
      obtain rfl := encode_injective hbs
      obtain ⟨rest, rfl⟩ := ih ⟨bs, List.append_cancel_left hbs⟩
      exact ⟨rest, rfl⟩

end EeEditor.BTree
