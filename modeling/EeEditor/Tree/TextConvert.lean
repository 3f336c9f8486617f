import EeEditor.Tree.Convert
import EeEditor.Tree.TextLaws

/-!
# Conversions of a rope

What the metrics of a rope measure is a number of bytes, characters, UTF-16 code units or newlines
of its text, so that a conversion of a byte offset is that number for the text before it, and a
conversion to a byte offset is the least boundary with the number before it.
-/

namespace EeEditor.BTree

variable {M : Metric Text} {f : List UInt8 → ℕ} {s t : Text} {o k : ℕ}

/-- A metric that measures the bytes of a text. -/
structure Counts (M : Metric Text) (f : List UInt8 → ℕ) : Prop where
  nil : f [] = 0
  append : ∀ a b, f (a ++ b) = f a + f b
  measure : ∀ l, M.measure l = f (bytes l)
  fromBaseUnits : ∀ {l : Text} {o : ℕ}, o ≤ (bytes l).length → isCharBoundary (bytes l) o = true →
    M.fromBaseUnits l o = some (f ((bytes l).take o))

theorem sliceStr_zero (ho : o ≤ (bytes s).length) (hb : isCharBoundary (bytes s) o = true) :
    sliceStr (bytes s) 0 o = some ((bytes s).take o) := by
  rw [sliceStr_eq (Nat.zero_le o) ho isCharBoundary_zero hb, List.drop_zero, Nat.sub_zero]

theorem counts_lines : Counts linesMetric countNewlines where
  nil := rfl
  append _ _ := List.countP_append
  measure _ := rfl
  fromBaseUnits ho hb := by
    change (sliceStr _ 0 _).map countNewlines = _
    rw [sliceStr_zero ho hb, Option.map_some]

theorem countUtf16CodeUnits_append (a b : List UInt8) :
    countUtf16CodeUnits (a ++ b) = countUtf16CodeUnits a + countUtf16CodeUnits b := by
  rw [countUtf16CodeUnits, List.map_append, List.sum_append, countUtf16CodeUnits,
    countUtf16CodeUnits]

/-- ASCII bytes are characters of one code unit. -/
theorem count_ascii {bs : List UInt8} (h : isAscii bs = true) :
    countChars bs = bs.length ∧ countUtf16CodeUnits bs = bs.length := by
  induction bs with
  | nil => exact ⟨rfl, rfl⟩
  | cons b bs ih =>
    rw [isAscii, List.all_cons, Bool.and_eq_true, decide_eq_true_iff] at h
    obtain ⟨ihc, ihu⟩ := ih h.2
    have hcont : isContinuation b = false := by
      rw [isContinuation, Bool.and_eq_false_iff, decide_eq_false_iff_not, UInt8.not_le]
      exact .inl h.1
    have hpair : ¬ 0xf0 ≤ b := UInt8.not_le.mpr (UInt8.lt_trans h.1 (by decide))
    constructor
    · rw [countChars, List.countP_cons_of_pos (by rw [hcont]; rfl), ← countChars, ihc,
        List.length_cons]
    · rw [countUtf16CodeUnits, List.map_cons, List.sum_cons, ← countUtf16CodeUnits, ihu, hcont,
        if_neg hpair, List.length_cons]
      exact Nat.add_comm 1 _

theorem counts_utf16 : Counts utf16CodeUnitsMetric countUtf16CodeUnits where
  nil := rfl
  append := countUtf16CodeUnits_append
  measure l := by
    change (if isAscii (bytes l) then _ else _) = _
    split
    · rename_i h
      exact (count_ascii h).2.symm
    · rfl
  fromBaseUnits ho hb := by
    change (sliceStr _ 0 _).map countUtf16CodeUnits = _
    rw [sliceStr_zero ho hb, Option.map_some]

theorem counts_base : Counts baseMetric List.length where
  nil := rfl
  append _ _ := List.length_append
  measure _ := rfl
  fromBaseUnits ho hb := by
    change atBoundary _ _ = _
    rw [atBoundary, if_pos hb, List.length_take, Nat.min_eq_left ho]

/-- The first byte of a character tells whether it is a surrogate pair in UTF-16. -/
theorem first_byte_pair (c : Char) : ∃ b rest, String.utf8EncodeChar c = b :: rest ∧
    (0xf0 ≤ b ↔ lenUtf16 c = 2) := by
  have hlen : lenUtf16 c = 2 ↔ 0x10000 ≤ c.val.toNat := by
    rw [lenUtf16]
    split
    · rename_i h
      rw [UInt32.lt_iff_toNat_lt] at h
      exact iff_of_false (by decide) (Nat.not_le.mpr h)
    · rename_i h
      rw [UInt32.lt_iff_toNat_lt] at h
      exact iff_of_true rfl (Nat.not_lt.mp h)
  rw [hlen]
  have hval : c.toNat = c.val.toNat := rfl
  fun_cases String.utf8EncodeChar c with
  | case1 | case2 | case3 | case4 =>
    refine ⟨_, _, rfl, ?_⟩
    simp [UInt8.le_iff_toNat_le]
    omega

/-- A character counts once, and as the code units of its UTF-16 encoding. -/
theorem count_char (c : Char) : countChars (String.utf8EncodeChar c) = 1 ∧
    countUtf16CodeUnits (String.utf8EncodeChar c) = lenUtf16 c := by
  obtain ⟨b, rest, hc, hb, hrest, -⟩ := utf8EncodeChar_eq_cons c
  obtain ⟨b', rest', hc', hpair⟩ := first_byte_pair c
  obtain ⟨rfl, rfl⟩ := List.cons.inj (hc.symm.trans hc')
  have hunits : countUtf16CodeUnits rest = 0 := by
    rw [countUtf16CodeUnits, List.sum_eq_zero_iff_forall_eq_nat]
    intro n hn
    obtain ⟨x, hx, rfl⟩ := List.mem_map.mp hn
    have hcont := hrest x hx
    rw [if_pos hcont, if_neg]
    rw [isContinuation, Bool.and_eq_true, decide_eq_true_iff, decide_eq_true_iff] at hcont
    exact UInt8.not_le.mpr (UInt8.lt_trans hcont.2 (by decide))
  rw [hc]
  constructor
  · rw [countChars, List.countP_cons_of_pos (by rw [hb]; rfl), List.countP_eq_zero.mpr]
    intro x hx
    rw [hrest x hx]
    exact Bool.false_ne_true
  · rw [countUtf16CodeUnits, List.map_cons, List.sum_cons, ← countUtf16CodeUnits, hunits, hb]
    by_cases h : 0xf0 ≤ b
    · rw [if_pos h, hpair.mp h]
      rfl
    · rw [if_neg h]
      by_cases hsmall : c.val < 0x10000
      · rw [lenUtf16, if_pos hsmall]
        rfl
      · exact absurd (hpair.mpr (if_neg hsmall)) h

theorem countChars_append (a b : List UInt8) :
    countChars (a ++ b) = countChars a + countChars b := List.countP_append

theorem charsBefore_eq (hb : isCharBoundary (bytes s) o = true) :
    bytes (charsBefore s o) = (bytes s).take o := by
  induction s generalizing o with
  | nil => simp [charsBefore]
  | cons c s ih =>
    rw [charsBefore]
    rcases isCharBoundary_cons.mp hb with rfl | ⟨o, rfl, hb'⟩
    · rfl
    · have := utf8Size_pos c
      rw [if_neg (by omega), Nat.add_sub_cancel_left, bytes_cons, bytes_cons, ih hb',
        List.take_length_add_append]

theorem countChars_bytes (s : Text) : countChars (bytes s) = s.length := by
  induction s with
  | nil => rfl
  | cons c s ih =>
    rw [bytes_cons, countChars_append, (count_char c).1, ih, List.length_cons, Nat.add_comm]

theorem counts_chars : Counts charsMetric countChars where
  nil := rfl
  append := countChars_append
  measure l := by
    change (if isAscii (bytes l) then _ else _) = _
    split
    · rename_i h
      exact (count_ascii h).1.symm
    · rfl
  fromBaseUnits {l o} ho hb := by
    change some (charsBefore l (clampBoundary l o)).length = _
    rw [clampBoundary, Nat.min_eq_left ho, if_pos hb, ← countChars_bytes, charsBefore_eq hb]

/-! ## From units to bytes -/

/-- The least boundary with some units before it, when every character has a number of units. -/
@[grind =] def unitsToBase (w : Char → ℕ) : Text → ℕ → ℕ
  | [], _ => 0
  | c :: s, k => if k = 0 then 0 else (String.utf8EncodeChar c).length + unitsToBase w s (k - w c)

/-- A metric of whole characters that measures units. -/
structure Weighs (M : Metric Text) (w : Char → ℕ) (f : List UInt8 → ℕ) :
    Prop extends Counts M f where
  char : ∀ c, f (String.utf8EncodeChar c) = w c
  pos : ∀ c, 0 < w c
  toBaseUnits : ∀ l k, M.toBaseUnits l k = some (unitsToBase w l k)
  atomic : M.canFragment = false

variable {w : Char → ℕ}

@[simp] theorem unitsToBase_zero (s : Text) : unitsToBase w s 0 = 0 := by
  cases s with
  | nil => rfl
  | cons c s => exact if_pos rfl

theorem charToBase_eq (s : Text) (k : ℕ) : charToBase s k = unitsToBase (fun _ ↦ 1) s k := by
  induction s generalizing k with
  | nil => rfl
  | cons c s ih =>
    cases k with
    | zero => rfl
    | succ k => rw [charToBase, ih, unitsToBase, if_neg (Nat.succ_ne_zero k), Nat.add_sub_cancel]

theorem utf16ToBase_eq (s : Text) (k m o : ℕ) :
    utf16ToBase k s m o = o + unitsToBase lenUtf16 s (k - m) := by
  induction s generalizing m o with
  | nil => rfl
  | cons c s ih =>
    rw [utf16ToBase, unitsToBase]
    split
    · rename_i h
      rw [if_pos (Nat.sub_eq_zero_of_le h), Nat.add_zero]
    · rename_i h
      rw [if_neg (by omega), ih, Nat.add_assoc, Nat.sub_sub]

theorem weighs_chars : Weighs charsMetric (fun _ ↦ 1) countChars where
  toCounts := counts_chars
  char c := (count_char c).1
  pos _ := Nat.one_pos
  toBaseUnits l k := congrArg some (charToBase_eq l k)
  atomic := rfl

theorem weighs_utf16 : Weighs utf16CodeUnitsMetric lenUtf16 countUtf16CodeUnits where
  toCounts := counts_utf16
  char c := (count_char c).2
  pos c := by
    rw [lenUtf16]
    split <;> decide
  toBaseUnits l k := by
    change some (utf16ToBase k l 0 0) = _
    rw [utf16ToBase_eq, Nat.zero_add, Nat.sub_zero]
  atomic := rfl

namespace Weighs

variable (hM : Weighs M w f)
include hM

theorem cons (c : Char) (s : Text) : f (bytes (c :: s)) = w c + f (bytes s) := by
  rw [bytes_cons, hM.append, hM.char]

theorem take_cons (c : Char) (o : ℕ) :
    f ((bytes (c :: s)).take ((String.utf8EncodeChar c).length + o))
    = w c + f ((bytes s).take o) := by
  rw [bytes_cons, List.take_length_add_append, hM.append, hM.char]

omit hM in
theorem isBoundary (s : Text) (k : ℕ) : isCharBoundary (bytes s) (unitsToBase w s k) = true := by
  induction s generalizing k with
  | nil => exact isCharBoundary_zero
  | cons c s ih =>
    rw [unitsToBase]
    split
    · exact isCharBoundary_zero
    · rw [isCharBoundary_after]
      exact ih _

/-- Everything that a text has of the units is at its end. -/
theorem unitsToBase_all (s : Text) : unitsToBase w s (f (bytes s)) = (bytes s).length := by
  induction s with
  | nil => rfl
  | cons c s ih =>
    have := hM.pos c
    rw [hM.cons, unitsToBase, if_neg (by omega), Nat.add_sub_cancel_left, ih, bytes_cons,
      List.length_append]

theorem unitsToBase_append_left (hk : k ≤ f (bytes s)) :
    unitsToBase w (s ++ t) k = unitsToBase w s k := by
  induction s generalizing k with
  | nil =>
    rw [bytes_nil, hM.nil, Nat.le_zero] at hk
    rw [hk, unitsToBase_zero, unitsToBase_zero]
  | cons c s ih =>
    rw [hM.cons] at hk
    rw [List.cons_append, unitsToBase, unitsToBase, ih (by omega)]

theorem unitsToBase_append_right (k : ℕ) :
    unitsToBase w (s ++ t) (f (bytes s) + k) = (bytes s).length + unitsToBase w t k := by
  induction s with
  | nil => rw [bytes_nil, hM.nil, List.nil_append, Nat.zero_add, List.length_nil, Nat.zero_add]
  | cons c s ih =>
    have := hM.pos c
    rw [hM.cons, List.cons_append, unitsToBase, if_neg (by omega), Nat.add_assoc,
      Nat.add_sub_cancel_left, ih, bytes_cons, List.length_append, Nat.add_assoc]

/-- The least boundary with some units before it. -/
theorem isLeast (hk : k ≤ f (bytes s)) :
    IsLeast {q | isCharBoundary (bytes s) q = true ∧ k ≤ f ((bytes s).take q)}
      (unitsToBase w s k) := by
  refine ⟨⟨isBoundary s k, ?_⟩, ?_⟩
  · induction s generalizing k with
    | nil =>
      rw [bytes_nil] at hk
      simpa using hk
    | cons c s ih =>
      rw [hM.cons] at hk
      rw [unitsToBase]
      split
      · omega
      · rw [hM.take_cons]
        have := ih (k := k - w c) (by omega)
        omega
  · rintro q ⟨hb, hq⟩
    induction s generalizing k q with
    | nil => exact Nat.zero_le q
    | cons c s ih =>
      rw [unitsToBase]
      split
      · exact Nat.zero_le q
      · rename_i hne
        rw [hM.cons] at hk
        rcases isCharBoundary_cons.mp hb with rfl | ⟨q, rfl, hb'⟩
        · rw [List.take_zero, hM.nil] at hq
          omega
        · rw [hM.take_cons] at hq
          exact Nat.add_le_add_left (ih (by omega) hb' (by omega)) _

end Weighs

/-! ## Conversions of the whole -/

variable {h : ℕ} {root : Node Text h} {pre post : List Text} {l : Text} {offset : ℕ}

@[simp] theorem concat_append (ls ls' : List Text) :
    concat (ls ++ ls') = concat ls ++ concat ls' := by
  induction ls with
  | nil => rfl
  | cons l ls ih =>
    rw [List.cons_append, concat_cons, concat_cons, ih]; exact (List.append_assoc ..).symm

theorem lenOf_eq (ls : List Text) : lenOf ls = (bytes (concat ls)).length := (len_concat ls).symm

theorem Counts.measureOf (hM : Counts M f) (ls : List Text) :
    measureOf M ls = f (bytes (concat ls)) := by
  induction ls with
  | nil => exact hM.nil.symm
  | cons l ls ih => rw [measureOf_cons, ih, hM.measure, concat_cons]; exact
      ((congrArg f (bytes_append l (concat ls))).trans (hM.append ..)).symm

theorem Counts.measure_root (hM : Counts M f) (root : Node Text h) :
    root.measure M = f (bytes (concat (root.leaves h))) := by
  rw [Node.measure_eq, hM.measureOf]

/-- The text up to a position in a leaf. -/
theorem take_concat (pre post : List Text) (ho : o ≤ (bytes l).length) :
    (bytes (concat (pre ++ l :: post))).take (lenOf pre + o)
      = bytes (concat pre) ++ (bytes l).take o := by
  rw [concat_append, concat_cons, bytes_append, lenOf_eq, List.take_length_add_append]
  congr 1
  exact (congrArg (List.take o) (bytes_append l _)).trans (List.take_append_of_le_length ho)

/-- A boundary of the whole is one of its leaf. -/
theorem isCharBoundary_leaf (ho : o ≤ (bytes l).length)
    (hb : isCharBoundary (bytes (concat (pre ++ l :: post))) (lenOf pre + o) = true) :
    isCharBoundary (bytes l) o = true := by
  rcases Nat.eq_zero_or_pos o with rfl | hpos
  · exact isCharBoundary_zero
  · exact (mem_boundariesOf_leaf (M := baseMetric) (charMetric_lawful _ _ _) pre post hpos ho).mp hb

/-- Bytes that come before a leaf, and none in it: the loop has taken them all already. -/
theorem count_leaf (hM : Counts M f) (ho : o ≤ (bytes l).length)
    (hb : isCharBoundary (bytes l) o = true)
    (m2 : ℕ) : convertLeaf baseMetric M l o m2 = .done (m2 + f ((bytes l).take o)) := by
  have hbase : baseMetric.toBaseUnits l o = some o := if_pos hb
  rw [convertLeaf, hbase]
  simp only [Outcome.ofOption, Outcome.done_bind, hM.fromBaseUnits ho hb]

/-- A tree whose leaves have a measure has something of it before every leaf but the first. -/
theorem first_of_measure_zero (hroot : root.Inner h) (hleaves : root.leaves h = pre ++ l :: post)
    (hM : ∀ l : Text, M.measure l = 0 → l = []) (hzero : measureOf M pre = 0) : pre = [] := by
  cases pre with
  | nil => rfl
  | cons l' pre =>
    rw [measureOf_cons] at hzero
    have hpos := hroot.pos l' (hleaves ▸ List.mem_cons_self)
    rw [hM l' (by omega)] at hpos
    exact absurd hpos (Nat.lt_irrefl 0)

/-- When a measure that does not fragment is taken as a whole, the loop starts again with nothing
left of it, and ends at the beginning of the first leaf. -/
theorem convertMetrics_all {M1 : Metric Text} (M2 : Metric Text) (hroot : h = 0 ∨ root.Inner h)
    (hatomic : M1.canFragment = false) (hM1 : ∀ l : Text, M1.measure l = 0 → l = [])
    (hpos : 0 < root.measure M1) :
    (∃ l : Text, root.leaves h = [l] ∧
      Settles (convertMetrics M1 M2 root (root.measure M1))
        (convertLeaf M1 M2 l (M1.measure l) 0)) ∨
    ∃ l : Text, Settles (convertMetrics M1 M2 root (root.measure M1))
      (convertLeaf M1 M2 l 0 (root.measure M2)) := by
  have hfudge : fudge M1 = 0 := if_neg (by rw [hatomic]; exact Bool.false_ne_true)
  cases h with
  | zero =>
    left
    refine ⟨root, rfl, 1, fun k ↦ ?_⟩
    rw [convertMetrics, if_neg hpos.ne', Nat.add_comm, convertFrom]
    rfl
  | succ h =>
    right
    have hinner := hroot.resolve_left (Nat.succ_ne_zero h)
    obtain ⟨pre, l, post, hleaves, hle, -, hconvert⟩ := convertFrom_eq M2 (h + 1) root 0
      (0 + root.measure M2) hfudge.le (by omega)
    have hpre := first_of_measure_zero hinner hleaves hM1 (by omega)
    refine ⟨l, h + 1 + 1 + 1, fun k ↦ ?_⟩
    rw [convertMetrics, if_neg hpos.ne', Nat.add_right_comm, convertFrom_again M2 0 _ (by omega),
      Nat.sub_self, hconvert, hpre, measureOf_nil, measureOf_nil, Nat.zero_add, Nat.add_zero,
      Nat.sub_zero]

theorem eq_nil_of_len {l : Text} (h : baseMetric.measure l = 0) : l = [] := by
  cases l with
  | nil => rfl
  | cons c l =>
    change (bytes (c :: l)).length = 0 at h
    have := utf8Size_pos c
    rw [bytes_cons, List.length_append] at h
    omega

theorem length_eq_measure (root : Node Text h) :
    (bytes (concat (root.leaves h))).length = root.measure baseMetric :=
  (counts_base.measure_root root).symm

/-- The conversion of a byte offset counts what comes before it. -/
theorem Counts.settles (hM : Counts M f) (hroot : h = 0 ∨ root.Inner h) (ho : offset ≤ root.len)
    (hb : isCharBoundary (bytes (concat (root.leaves h))) offset = true) :
    Settles (convertMetrics baseMetric M root offset)
      (.done (f ((bytes (concat (root.leaves h))).take offset))) := by
  have hfudge : fudge baseMetric = 0 := rfl
  have hlen : root.len = root.measure baseMetric := rfl
  rcases Nat.eq_zero_or_pos offset with rfl | hpos
  · rw [List.take_zero, hM.nil]
    exact ⟨0, fun k ↦ if_pos rfl⟩
  rcases Nat.lt_or_ge offset root.len with hlt | hge
  · obtain ⟨pre, l, post, hleaves, hle, hlt', hsettles⟩ := convertMetrics_leaf M hpos
      (show offset < root.measure baseMetric + fudge baseMetric from hlt)
    rw [hfudge, Nat.add_zero, counts_base.measureOf, ← lenOf_eq] at hle hlt'
    rw [counts_base.measureOf, ← lenOf_eq] at hsettles
    obtain ⟨o, rfl⟩ := Nat.exists_eq_add_of_le hle
    have ho' : o ≤ (bytes l).length := by
      change _ < _ + (bytes l).length at hlt'
      omega
    rw [hleaves] at hb
    rw [Nat.add_sub_cancel_left, count_leaf hM ho' (isCharBoundary_leaf ho' hb), hM.measureOf,
      ← hM.append, ← take_concat pre post ho', ← hleaves] at hsettles
    exact hsettles
  · obtain rfl : offset = root.measure baseMetric := by omega
    have htake : (bytes (concat (root.leaves h))).take (root.measure baseMetric)
        = bytes (concat (root.leaves h)) := by
      rw [← length_eq_measure, List.take_length]
    rw [htake]
    rcases convertMetrics_all M hroot rfl (fun l h ↦ eq_nil_of_len h) hpos with
      ⟨l, hleaves, hsettles⟩ | ⟨l, hsettles⟩
    · have hwhole : (bytes l).take (baseMetric.measure l) = bytes (concat (root.leaves h)) := by
        rw [hleaves]
        exact (List.take_length (l := bytes l)).trans (congrArg bytes (List.append_nil l).symm)
      have hcount : convertLeaf baseMetric M l (baseMetric.measure l) 0
          = .done (0 + f ((bytes l).take (baseMetric.measure l))) :=
        count_leaf hM (Nat.le_refl _) isCharBoundary_length 0
      rwa [hcount, Nat.zero_add, hwhole] at hsettles
    · rwa [count_leaf hM (Nat.zero_le _) isCharBoundary_zero, List.take_zero, hM.nil, Nat.add_zero,
        hM.measure_root] at hsettles

/-- Units within a leaf. -/
theorem Weighs.leaf (hM : Weighs M w f) (l : Text) (k m2 : ℕ) :
    convertLeaf M baseMetric l k m2 = .done (m2 + unitsToBase w l k) := by
  have hbase : baseMetric.fromBaseUnits l (unitsToBase w l k) = some (unitsToBase w l k) :=
    if_pos (isBoundary l k)
  rw [convertLeaf, hM.toBaseUnits]
  simp only [Outcome.ofOption, Outcome.done_bind, hbase]

/-- The conversion of a number of units finds the least boundary with that number before it. -/
theorem Weighs.settles (hM : Weighs M w f) (hroot : h = 0 ∨ root.Inner h)
    (hk : k ≤ root.measure M) :
    Settles (convertMetrics M baseMetric root k)
      (.done (unitsToBase w (concat (root.leaves h)) k)) := by
  have hfudge : fudge M = 0 := if_neg (by rw [hM.atomic]; exact Bool.false_ne_true)
  rcases Nat.eq_zero_or_pos k with rfl | hpos
  · rw [unitsToBase_zero]
    exact ⟨0, fun k ↦ if_pos rfl⟩
  rcases Nat.lt_or_ge k (root.measure M) with hlt | hge
  · obtain ⟨pre, l, post, hleaves, hle, hlt', hsettles⟩ := convertMetrics_leaf baseMetric hpos
      (show k < root.measure M + fudge M by omega)
    rw [hfudge, Nat.add_zero] at hle hlt'
    obtain ⟨k, rfl⟩ := Nat.exists_eq_add_of_le hle
    have hk' : k ≤ f (bytes l) := by
      rw [← hM.measure]
      omega
    have hwhole : unitsToBase w (concat (root.leaves h)) (measureOf M pre + k)
        = lenOf pre + unitsToBase w l k := by
      rw [hleaves, concat_append, hM.measureOf, hM.unitsToBase_append_right, lenOf_eq]
      congr 1
      exact hM.unitsToBase_append_left hk'
    rwa [Nat.add_sub_cancel_left, hM.leaf, counts_base.measureOf, ← lenOf_eq, ← hwhole] at hsettles
  · obtain rfl : k = root.measure M := by omega
    have hwhole : unitsToBase w (concat (root.leaves h)) (root.measure M)
        = root.measure baseMetric := by
      rw [hM.measure_root, hM.unitsToBase_all, length_eq_measure]
    rw [hwhole]
    have hnil : ∀ l : Text, M.measure l = 0 → l = [] := by
      intro l hl
      rw [hM.measure] at hl
      cases l with
      | nil => rfl
      | cons c l =>
        have := hM.pos c
        rw [hM.cons] at hl
        omega
    rcases convertMetrics_all baseMetric hroot hM.atomic hnil hpos with
      ⟨l, hleaves, hsettles⟩ | ⟨l, hsettles⟩
    · have hflat : concat (root.leaves h) = l := by
        rw [hleaves]
        exact List.append_nil l
      rw [hM.leaf, hM.measure, hM.unitsToBase_all, Nat.zero_add, ← hflat, length_eq_measure]
        at hsettles
      exact hsettles
    · rwa [hM.leaf, unitsToBase_zero, Nat.add_zero] at hsettles

/-! ## Lines -/

variable {bs bs' : List UInt8} {q : ℕ}

theorem select_memchr_none (h : memchr bs = none) (n : ℕ) : select isNewline bs (n + 1) = none := by
  rw [select_eq_none_iff, List.countP_eq_zero.mpr]
  · exact Nat.succ_pos n
  · intro b hb hnewline
    rw [List.findIdx?_eq_none_iff.mp h b hb] at hnewline
    exact Bool.false_ne_true hnewline

/-- The next newline, and then the rest. -/
theorem select_memchr_some {pos : ℕ} (h : memchr bs = some pos) (n : ℕ) :
    select isNewline bs (n + 1) = (select isNewline (bs.drop (pos + 1)) n).map fun i ↦
    pos + 1 + i := by
  induction bs generalizing pos with
  | nil => cases h
  | cons b bs ih =>
    rw [memchr, List.findIdx?_cons] at h
    rw [select_cons_succ]
    split at h
    · rename_i hb
      obtain rfl := Option.some_inj.mp h
      rw [if_pos hb, List.drop_succ_cons, List.drop_zero]
      exact Option.map_congr fun i _ ↦ Nat.add_comm i 1
    · rename_i hb
      obtain ⟨pos, hpos, rfl⟩ := Option.map_eq_some_iff.mp h
      rw [if_neg hb, ih hpos, List.drop_succ_cons, Option.map_map]
      exact Option.map_congr fun i _ ↦ by
        rw [Function.comp_apply]
        omega

theorem linesToBase_eq (n o : ℕ) :
    linesToBase bs n o = (select isNewline (bs.drop o) n).map fun i ↦ o + i := by
  induction n generalizing o with
  | zero =>
    rw [select_zero]
    rfl
  | succ n ih =>
    rw [linesToBase]
    cases h : memchr (bs.drop o) with
    | none => rw [select_memchr_none h, Option.bind_none, Option.map_none]
    | some pos =>
      rw [select_memchr_some h, Option.bind_some, ih, List.drop_drop, Option.map_map, Nat.add_assoc]
      exact Option.map_congr fun i _ ↦ by
        rw [Function.comp_apply]
        omega

theorem select_append_left {n : ℕ} (hn : n ≤ bs.countP isNewline) :
    select isNewline (bs ++ bs') n = select isNewline bs n := by
  obtain ⟨s, hs⟩ := exists_select hn
  rw [hs]
  obtain ⟨hle, hrank, hlt⟩ := select_eq_some_iff.mp hs
  refine select_eq_some_iff.mpr ⟨?_, ?_, fun j hj ↦ ?_⟩
  · rw [List.length_append]
    omega
  · rwa [rank_append_of_le hle]
  · rw [rank_append_of_le (by omega)]
    exact hlt j hj

theorem select_append_right (n : ℕ) : select isNewline (bs ++ bs') (bs.countP isNewline + (n + 1))
    = (select isNewline bs' (n + 1)).map fun i ↦ bs.length + i := by
  induction bs with
  | nil =>
    rw [List.nil_append, List.countP_nil, Nat.zero_add]
    cases select isNewline bs' (n + 1) with
    | none => rfl
    | some i => exact congrArg some (Nat.zero_add i).symm
  | cons b bs ih =>
    have hstep : select isNewline (b :: bs ++ bs') ((b :: bs).countP isNewline + (n + 1))
        = (select isNewline (bs ++ bs') (bs.countP isNewline + (n + 1))).map (· + 1) := by
      rw [List.cons_append, ← Nat.add_assoc, select_cons_succ]
      cases hb : isNewline b with
      | true => rw [List.countP_cons_of_pos hb, if_pos rfl, Nat.add_right_comm]; rfl
      | false =>
        rw [List.countP_cons_of_neg (by rw [hb]; exact Bool.false_ne_true),
          if_neg Bool.false_ne_true, Nat.add_assoc]
    rw [hstep, ih, Option.map_map]
    exact Option.map_congr fun i _ ↦ by
      rw [Function.comp_apply, List.length_cons]
      omega

/-- Newlines within a leaf. -/
theorem lines_leaf {n i m2 : ℕ} (hi : select isNewline (bytes l) n = some i) :
    convertLeaf linesMetric baseMetric l n m2 = .done (m2 + i) := by
  have hbase : linesMetric.toBaseUnits l n = some i := by
    change linesToBase _ _ 0 = _
    rw [linesToBase_eq, List.drop_zero, hi, Option.map_some, Nat.zero_add]
  have hfrom : baseMetric.fromBaseUnits l i = some i := if_pos
    ((isUtf8_bytes l).isCharBoundary_select (fun b hb ↦ by
      rw [isNewline, beq_iff_eq] at hb
      rw [hb]
      decide) hi)
  rw [convertLeaf, hbase]
  simp only [Outcome.ofOption, Outcome.done_bind, hfrom]

/-- The conversion of a line number finds the position just after that many newlines. -/
theorem lines_settles {root : Node Text h} (hk : k ≤ root.measure linesMetric)
    (hq : select isNewline (bytes (concat (root.leaves h))) k = some q) :
    Settles (convertMetrics linesMetric baseMetric root k) (.done q) := by
  rcases Nat.eq_zero_or_pos k with rfl | hpos
  · rw [select_zero, Option.some_inj] at hq
    subst hq
    exact ⟨0, fun k ↦ if_pos rfl⟩
  have hfudge : fudge linesMetric = 1 := rfl
  obtain ⟨pre, l, post, hleaves, hle, hlt, hsettles⟩ := convertMetrics_leaf baseMetric hpos
    (show k < root.measure linesMetric + fudge linesMetric by omega)
  rw [hfudge] at hle hlt
  obtain ⟨n, rfl⟩ := Nat.exists_eq_add_of_le hle
  have hn : n + 1 ≤ (bytes l).countP isNewline := by
    change _ < _ + (bytes l).countP isNewline + 1 at hlt
    omega
  rw [hleaves, concat_append, bytes_append, Nat.add_assoc, Nat.add_comm 1 n, counts_lines.measureOf]
    at hq
  change select _ _ ((bytes (concat pre)).countP isNewline + (n + 1)) = _ at hq
  rw [select_append_right] at hq
  obtain ⟨i, hi, rfl⟩ := Option.map_eq_some_iff.mp hq
  have hi' : select isNewline (bytes l) (n + 1) = some i := by
    rw [← hi]
    exact ((congrArg (fun bs ↦ select isNewline bs (n + 1)) (bytes_append l (concat post))).trans
      (select_append_left hn)).symm
  have hrest : measureOf linesMetric pre + 1 + n - measureOf linesMetric pre = n + 1 := by omega
  rwa [hrest, lines_leaf hi', counts_base.measureOf] at hsettles

end EeEditor.BTree
