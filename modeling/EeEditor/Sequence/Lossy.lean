import EeEditor.Sequence.Utf8

/-!
# Lossy decoding of UTF-8

The model of `String::from_utf8_lossy`. Well-formed sequences are kept, and each of the longest
pieces that begin a well-formed sequence and do not complete it becomes a replacement character, as
does a byte that begins none. A text is decoded to itself. A slice of a text has at its ends the
rest of a character and the beginning of one: every byte of the rest is replaced, and the beginning
is replaced as one.
-/

namespace EeEditor

/-- The encoding of U+FFFD. -/
def replacementChar : List UInt8 := [0xEF, 0xBF, 0xBD]

/-- The ranges of the bytes that complete a well-formed sequence, after a first byte that is not
ASCII. -/
def continuations (b : UInt8) : List (UInt8 × UInt8) :=
  if 0xC2 ≤ b ∧ b ≤ 0xDF then [(0x80, 0xBF)]
  else if b = 0xE0 then [(0xA0, 0xBF), (0x80, 0xBF)]
  else if b = 0xED then [(0x80, 0x9F), (0x80, 0xBF)]
  else if 0xE1 ≤ b ∧ b ≤ 0xEF then [(0x80, 0xBF), (0x80, 0xBF)]
  else if b = 0xF0 then [(0x90, 0xBF), (0x80, 0xBF), (0x80, 0xBF)]
  else if 0xF1 ≤ b ∧ b ≤ 0xF3 then [(0x80, 0xBF), (0x80, 0xBF), (0x80, 0xBF)]
  else if b = 0xF4 then [(0x80, 0x8F), (0x80, 0xBF), (0x80, 0xBF)]
  else []

/-- The state after a byte that begins a sequence: the sequence so far, what may complete it, and
what is put out. -/
@[grind =] def beginSequence (b : UInt8) : List UInt8 × List (UInt8 × UInt8) × List UInt8 :=
  if b < 0x80 then ([], [], [b])
  else if continuations b = [] then ([], [], replacementChar)
  else ([b], continuations b, [])

/-- The bytes after a sequence that is not complete. -/
@[grind =] def lossyFrom : List UInt8 → List (UInt8 × UInt8) → List UInt8 → List UInt8
  | _, [], [] => []
  | _, _ :: _, [] => replacementChar
  | _, [], b :: bytes =>
    let (pending, expected, out) := beginSequence b
    out ++ lossyFrom pending expected bytes
  | pending, (lo, hi) :: expected, b :: bytes =>
    if lo ≤ b ∧ b ≤ hi then
      (if expected = [] then pending ++ [b] else [])
        ++ lossyFrom (if expected = [] then [] else pending ++ [b]) expected bytes
    else
      let (pending, expected, out) := beginSequence b
      replacementChar ++ out ++ lossyFrom pending expected bytes

/-- `String::from_utf8_lossy`. -/
@[grind =] def fromUtf8Lossy (bytes : List UInt8) : List UInt8 := lossyFrom [] [] bytes

/-! ## Characters -/

/-- The bytes are in the ranges, one after the other. -/
def InRanges (rest : List UInt8) (ranges : List (UInt8 × UInt8)) : Prop :=
  List.Forall₂ (fun b r ↦ r.1 ≤ b ∧ b ≤ r.2) rest ranges

theorem continuations_ofNat {n : ℕ} (h : n < 256) : continuations (UInt8.ofNat n) =
    if 0xC2 ≤ n ∧ n ≤ 0xDF then [(0x80, 0xBF)]
    else if n = 0xE0 then [(0xA0, 0xBF), (0x80, 0xBF)]
    else if n = 0xED then [(0x80, 0x9F), (0x80, 0xBF)]
    else if 0xE1 ≤ n ∧ n ≤ 0xEF then [(0x80, 0xBF), (0x80, 0xBF)]
    else if n = 0xF0 then [(0x90, 0xBF), (0x80, 0xBF), (0x80, 0xBF)]
    else if 0xF1 ≤ n ∧ n ≤ 0xF3 then [(0x80, 0xBF), (0x80, 0xBF), (0x80, 0xBF)]
    else if n = 0xF4 then [(0x80, 0x8F), (0x80, 0xBF), (0x80, 0xBF)]
    else [] := by
  simp [continuations, UInt8.le_iff_toNat_le, ← UInt8.toNat_inj, Nat.mod_eq_of_lt h]

/-- The encoding of a character is ASCII, or a first byte and bytes in the ranges that follow it. -/
theorem utf8EncodeChar_ranges (c : Char) : ∃ b rest, String.utf8EncodeChar c = b :: rest ∧
    (b < 0x80 ∧ rest = [] ∨
      ¬ b < 0x80 ∧ continuations b ≠ [] ∧ InRanges rest (continuations b)) := by
  have hvalid : c.val.toNat < 0xD800 ∨ 0xDFFF < c.val.toNat ∧ c.val.toNat < 0x110000 := c.valid
  have hbyte : ∀ {n : ℕ}, n < 128 → ¬ UInt8.ofNat (n + 128) < 0x80 := fun {n} hn ↦ by
    simp [UInt8.lt_iff_toNat_lt]
    omega
  fun_cases String.utf8EncodeChar c with
  | case1 v h =>
    refine ⟨_, _, rfl, .inl ⟨?_, rfl⟩⟩
    simp [UInt8.lt_iff_toNat_lt]
    omega
  | case2 v h1 h2 =>
    refine ⟨_, _, rfl, .inr ⟨hbyte (n := v / 64 % 32 + 64) (by omega), ?_⟩⟩
    rw [continuations_ofNat (by omega), if_pos (by omega)]
    refine ⟨List.cons_ne_nil _ _, ?_⟩
    simp [InRanges, UInt8.le_iff_toNat_le]
    omega
  | case3 v h1 h2 h3 =>
    refine ⟨_, _, rfl, .inr ⟨hbyte (n := v / 4096 % 16 + 96) (by omega), ?_⟩⟩
    rw [continuations_ofNat (by omega), if_neg (by omega)]
    split_ifs
    all_goals
      first
      | omega
      | refine ⟨List.cons_ne_nil _ _, ?_⟩
        simp [InRanges, UInt8.le_iff_toNat_le]
        omega
  | case4 v h1 h2 h3 =>
    refine ⟨_, _, rfl, .inr ⟨hbyte (n := v / 262144 % 8 + 112) (by omega), ?_⟩⟩
    rw [continuations_ofNat (by omega), if_neg (by omega), if_neg (by omega), if_neg (by omega),
      if_neg (by omega)]
    split_ifs
    all_goals
      first
      | omega
      | refine ⟨List.cons_ne_nil _ _, ?_⟩
        simp [InRanges, UInt8.le_iff_toNat_le]
        omega

theorem isContinuation_iff {b : UInt8} : isContinuation b = true ↔ 128 ≤ b ∧ b < 192 := by
  rw [isContinuation, Bool.and_eq_true, decide_eq_true_iff, decide_eq_true_iff]

/-- A continuation byte begins no sequence. -/
theorem beginSequence_of_isContinuation {b : UInt8} (hb : isContinuation b = true) :
    beginSequence b = ([], [], replacementChar) := by
  obtain ⟨hlo, hhi⟩ := isContinuation_iff.mp hb
  rw [UInt8.le_iff_toNat_le] at hlo
  rw [UInt8.lt_iff_toNat_lt] at hhi
  have hlo' : 128 ≤ b.toNat := hlo
  have hhi' : b.toNat < 192 := hhi
  have hnone : continuations b = [] := by
    rw [← UInt8.ofNat_toNat (x := b), continuations_ofNat (by omega), if_neg (by omega),
      if_neg (by omega), if_neg (by omega), if_neg (by omega), if_neg (by omega), if_neg (by omega),
      if_neg (by omega)]
  rw [beginSequence, if_neg (UInt8.not_lt.mpr hlo), if_pos hnone]

section

variable {pending rest part bytes s t : List UInt8} {expected : List (UInt8 × UInt8)}

theorem lossyFrom_of_inRanges (hne : expected ≠ []) (h : InRanges rest expected) :
    lossyFrom pending expected (rest ++ bytes) = pending ++ rest ++ fromUtf8Lossy bytes := by
  induction h generalizing pending with
  | nil => exact absurd rfl hne
  | @cons b r rest expected hb hrest ih =>
    rw [List.cons_append, lossyFrom, if_pos hb]
    cases expected with
    | nil =>
      cases hrest
      rw [if_pos rfl, if_pos rfl]
      rfl
    | cons r' expected =>
      rw [if_neg (List.cons_ne_nil _ _), if_neg (List.cons_ne_nil _ _), List.nil_append,
        ih (List.cons_ne_nil _ _), List.append_assoc, List.append_assoc, List.append_assoc]
      rfl

/-- The beginning of a sequence is replaced as one. -/
theorem lossyFrom_of_prefix (h : InRanges rest expected) (hpart : part <+: rest)
    (hne : part ≠ rest) :
    lossyFrom pending expected part = replacementChar := by
  induction h generalizing pending part with
  | nil => exact absurd (List.prefix_nil.mp hpart) hne
  | @cons b r rest expected hb hrest ih =>
    cases part with
    | nil => rw [lossyFrom]
    | cons b' part =>
      obtain ⟨rfl, htail⟩ := List.cons_prefix_cons.mp hpart
      have hne' : part ≠ rest := fun heq ↦ hne (heq ▸ rfl)
      have hexpected : expected ≠ [] := by
        rintro rfl
        cases hrest
        exact hne' (List.prefix_nil.mp htail)
      rw [lossyFrom, if_pos hb, if_neg hexpected, if_neg hexpected, List.nil_append, ih htail hne']

theorem fromUtf8Lossy_cons (b : UInt8) (bytes : List UInt8) :
    fromUtf8Lossy (b :: bytes) = (beginSequence b).2.2
      ++ lossyFrom (beginSequence b).1 (beginSequence b).2.1 bytes := by
  rw [fromUtf8Lossy, lossyFrom]

/-- A character is kept. -/
theorem fromUtf8Lossy_char (c : Char) (bytes : List UInt8) :
    fromUtf8Lossy (String.utf8EncodeChar c ++ bytes)
      = String.utf8EncodeChar c ++ fromUtf8Lossy bytes := by
  obtain ⟨b, rest, hc, ⟨hascii, rfl⟩ | ⟨hmulti, hne, hranges⟩⟩ := utf8EncodeChar_ranges c
  · rw [hc, List.cons_append, fromUtf8Lossy_cons, beginSequence, if_pos hascii]
    rfl
  · rw [hc, List.cons_append, fromUtf8Lossy_cons, beginSequence, if_neg hmulti, if_neg hne]
    exact lossyFrom_of_inRanges hne hranges

/-- The beginning of a character is replaced. -/
theorem fromUtf8Lossy_of_prefix {c : Char} (hpart : part <+: String.utf8EncodeChar c)
    (hnil : part ≠ []) (hne : part ≠ String.utf8EncodeChar c) :
    fromUtf8Lossy part = replacementChar := by
  obtain ⟨b, rest, hc, hkind⟩ := utf8EncodeChar_ranges c
  rw [hc] at hpart hne
  cases part with
  | nil => exact absurd rfl hnil
  | cons b' part =>
    obtain ⟨rfl, htail⟩ := List.cons_prefix_cons.mp hpart
    have hne' : part ≠ rest := fun heq ↦ hne (heq ▸ rfl)
    obtain ⟨-, rfl⟩ | ⟨hmulti, hranges, hrest⟩ := hkind
    · exact absurd (List.prefix_nil.mp htail) hne'
    · rw [fromUtf8Lossy_cons, beginSequence, if_neg hmulti, if_neg hranges]
      exact lossyFrom_of_prefix hrest htail hne'

theorem fromUtf8Lossy_append (hs : IsUtf8 s) (bytes : List UInt8) :
    fromUtf8Lossy (s ++ bytes) = s ++ fromUtf8Lossy bytes := by
  obtain ⟨cs, rfl⟩ := hs
  induction cs with
  | nil => rfl
  | cons c cs ih =>
    rw [List.flatMap_cons, List.append_assoc, fromUtf8Lossy_char, ih, List.append_assoc]

/-- A text is decoded to itself. -/
theorem fromUtf8Lossy_eq_self (hs : IsUtf8 s) : fromUtf8Lossy s = s := by
  have happend := fromUtf8Lossy_append hs []
  rwa [List.append_nil, show fromUtf8Lossy [] = [] from rfl, List.append_nil] at happend

/-- Continuation bytes at the beginning are replaced one by one. -/
theorem fromUtf8Lossy_tail (ht : ∀ b ∈ t, isContinuation b = true) (bytes : List UInt8) :
    fromUtf8Lossy (t ++ bytes) = t.flatMap (fun _ ↦ replacementChar) ++ fromUtf8Lossy bytes := by
  induction t with
  | nil => rfl
  | cons b t ih =>
    obtain ⟨hb, ht⟩ := List.forall_mem_cons.mp ht
    rw [List.cons_append, fromUtf8Lossy_cons, beginSequence_of_isContinuation hb, List.flatMap_cons,
      List.append_assoc, ← ih ht]
    rfl

/-! ## Slices -/

/-- The bytes begin a character, and do not complete it. -/
def BeginsChar (part : List UInt8) : Prop :=
  ∃ c, part <+: String.utf8EncodeChar c ∧ part ≠ [] ∧ part ≠ String.utf8EncodeChar c

/-- The beginning of a text is a text and perhaps the beginning of a character. -/
theorem IsUtf8.exists_of_isPrefix (hs : IsUtf8 s) (ht : t <+: s) :
    ∃ whole part, t = whole ++ part ∧ IsUtf8 whole ∧ (part = [] ∨ BeginsChar part) := by
  obtain ⟨cs, rfl⟩ := hs
  induction cs generalizing t with
  | nil => exact ⟨[], t, rfl, .nil, .inl (List.prefix_nil.mp ht)⟩
  | cons c cs ih =>
    rw [List.flatMap_cons] at ht
    rcases Nat.lt_or_ge t.length (String.utf8EncodeChar c).length with hlt | hge
    · have hpart := List.prefix_of_prefix_length_le ht (List.prefix_append _ _) hlt.le
      refine ⟨[], t, rfl, .nil, ?_⟩
      by_cases hnil : t = []
      · exact .inl hnil
      · exact .inr ⟨c, hpart, hnil, fun heq ↦ absurd (congrArg List.length heq) hlt.ne⟩
    · obtain ⟨t, rfl⟩ := List.prefix_of_prefix_length_le (List.prefix_append _ _) ht hge
      obtain ⟨whole, part, rfl, ⟨ds, rfl⟩, hpart⟩ := ih ((List.prefix_append_right_inj _).mp ht)
      exact ⟨_, part, (List.append_assoc _ _ _).symm, ⟨c :: ds, List.flatMap_cons.symm⟩, hpart⟩

theorem takeWhile_eq_nil_of_isUtf8 (hs : IsUtf8 s) : s.takeWhile isContinuation = [] := by
  cases s with
  | nil => rfl
  | cons b s => rw [List.takeWhile_cons, if_neg (by rw [hs.head rfl]; exact Bool.false_ne_true)]

/-- Behind a cut a text begins where the continuation bytes end. -/
theorem IsUtf8.dropWhile_drop (hs : IsUtf8 s) (i : ℕ) :
    IsUtf8 ((s.drop i).dropWhile isContinuation) := by
  cases hdrop : (s.drop i).dropWhile isContinuation with
  | nil => exact .nil
  | cons b rest =>
    have hb : isContinuation b = false := by
      have hhead := List.head?_dropWhile_not isContinuation (s.drop i)
      rw [hdrop] at hhead
      simpa using hhead
    obtain ⟨pre, rfl⟩ : ∃ pre, s = pre ++ b :: rest := by
      refine ⟨s.take i ++ (s.drop i).takeWhile isContinuation, ?_⟩
      rw [← hdrop, List.append_assoc, List.takeWhile_append_dropWhile, List.take_append_drop]
    have hbound : isCharBoundary (pre ++ b :: rest) pre.length = true := by
      refine isCharBoundary_iff.mpr (.inr (.inr ⟨b, ?_, hb⟩))
      rw [List.getElem?_append_right (Nat.le_refl _), Nat.sub_self]
      rfl
    have hrest := (hs.split hbound).2
    rwa [List.drop_left] at hrest

/-- At most three bytes of a character are left behind a cut. -/
theorem IsUtf8.length_takeWhile_drop_le (hs : IsUtf8 s) (i : ℕ) :
    ((s.drop i).takeWhile isContinuation).length ≤ 3 := by
  obtain ⟨cs, rfl⟩ := hs
  induction cs generalizing i with
  | nil => simp
  | cons c cs ih =>
    obtain ⟨b, rest, hc, hb, hrest, -⟩ := utf8EncodeChar_eq_cons c
    have hlen : rest.length ≤ 3 := by
      have := String.length_utf8EncodeChar c
      have := c.utf8Size_le_four
      have := congrArg List.length hc
      rw [List.length_cons] at this
      omega
    rw [List.flatMap_cons, hc]
    cases i with
    | zero =>
      rw [List.drop_zero, List.cons_append, List.takeWhile_cons, hb]
      exact Nat.zero_le _
    | succ i =>
      rw [List.cons_append, List.drop_succ_cons]
      rcases Nat.lt_or_ge rest.length i with hlt | hge
      · rw [List.drop_append, List.drop_eq_nil_of_le hlt.le, List.nil_append]
        exact ih _
      · rw [List.drop_append_of_le_length hge,
          List.takeWhile_append_of_pos fun x hx ↦ hrest x (List.mem_of_mem_drop hx),
          takeWhile_eq_nil_of_isUtf8 ⟨cs, rfl⟩, List.append_nil, List.length_drop]
        omega

/-- A run of continuation bytes has at most three. -/
theorem IsUtf8.run_le (hs : IsUtf8 s) {i n : ℕ} (hle : i + n ≤ s.length)
    (hrun : ∀ j < n, ∃ b, s[i + j]? = some b ∧ isContinuation b = true) : n ≤ 3 := by
  refine le_trans ?_ (hs.length_takeWhile_drop_le i)
  rw [← List.take_append_drop n (s.drop i), List.takeWhile_append_of_pos, List.length_append,
    List.length_take, List.length_drop]
  · omega
  · intro b hb
    obtain ⟨j, hj⟩ := List.mem_iff_getElem?.mp hb
    have hlt : j < n := by
      have := (List.getElem?_eq_some_iff.mp hj).1
      rw [List.length_take] at this
      omega
    obtain ⟨b', hb', hcont⟩ := hrun j hlt
    rw [List.getElem?_take_of_lt hlt, List.getElem?_drop, hb'] at hj
    exact Option.some.inj hj ▸ hcont

/-- A slice between two boundaries is a text. -/
theorem IsUtf8.slice (hs : IsUtf8 s) {beg end_ : ℕ} (hle : beg ≤ end_) (hend : end_ ≤ s.length)
    (hb : isCharBoundary s beg = true) (he : isCharBoundary s end_ = true) :
    IsUtf8 ((s.drop beg).take (end_ - beg)) := by
  have hwhole := (hs.split he).1
  have hcut : isCharBoundary (s.take end_) beg = true := by
    have hslice := @isCharBoundary_slice s beg 0 end_ (by omega) hle (by rwa [Nat.zero_add])
    rwa [List.drop_zero] at hslice
  have hslice := (hwhole.split hcut).2
  rwa [List.drop_take] at hslice

/-- A slice of a text is the rest of a character, a text, and the beginning of a character. -/
theorem IsUtf8.exists_slice (hs : IsUtf8 s) (i n : ℕ) : ∃ tail whole part,
    (s.drop i).take n = tail ++ (whole ++ part) ∧
    tail = ((s.drop i).takeWhile isContinuation).take n
      ∧ IsUtf8 whole ∧ (part = [] ∨ BeginsChar part) := by
  obtain ⟨whole, part, htake, hwhole, hpart⟩ :=
    (hs.dropWhile_drop i).exists_of_isPrefix (List.take_prefix
      (n - ((s.drop i).takeWhile isContinuation).length) _)
  refine ⟨_, whole, part, ?_, rfl, hwhole, hpart⟩
  rw [← htake, ← List.take_append, List.takeWhile_append_dropWhile]

theorem fromUtf8Lossy_part (hpart : part = [] ∨ BeginsChar part) :
    fromUtf8Lossy part = if part = [] then [] else replacementChar := by
  rcases hpart with rfl | ⟨c, hpref, hnil, hne⟩
  · rfl
  · rw [if_neg hnil, fromUtf8Lossy_of_prefix hpref hnil hne]

theorem countChars_append (s t : List UInt8) : countChars (s ++ t) = countChars s + countChars t :=
  List.countP_append

theorem countChars_tail (ht : ∀ b ∈ t, isContinuation b = true) : countChars t = 0 :=
  List.countP_eq_zero.mpr fun b hb ↦ by simp [ht b hb]

theorem BeginsChar.countChars_eq (h : BeginsChar part) : countChars part = 1 := by
  obtain ⟨c, hpref, hnil, -⟩ := h
  obtain ⟨b, rest, hc, hb, hrest, -⟩ := utf8EncodeChar_eq_cons c
  rw [hc] at hpref
  cases part with
  | nil => exact absurd rfl hnil
  | cons b' part =>
    obtain ⟨rfl, htail⟩ := List.cons_prefix_cons.mp hpref
    have hzero : countChars part = 0 := countChars_tail fun x hx ↦ hrest x (htail.subset hx)
    rw [countChars, List.countP_cons_of_pos (by simp [hb])]
    exact congrArg (· + 1) hzero

theorem countChars_replacements (t : List UInt8) :
    countChars (t.flatMap fun _ ↦ replacementChar) = t.length := by
  induction t with
  | nil => rfl
  | cons b t ih =>
    rw [List.flatMap_cons, countChars_append, ih, List.length_cons, Nat.add_comm]
    rfl

/-- A slice that is decoded has a character more for each byte of one that is cut at its start. -/
theorem IsUtf8.countChars_lossy_slice (hs : IsUtf8 s) (i n : ℕ) :
    countChars (fromUtf8Lossy ((s.drop i).take n)) = countChars ((s.drop i).take n)
      + (((s.drop i).takeWhile isContinuation).take n).length := by
  obtain ⟨tail, whole, part, hslice, htail, hwhole, hpart⟩ := hs.exists_slice i n
  have hcont : ∀ b ∈ tail, isContinuation b = true := fun b hb ↦
    List.all_eq_true.mp List.all_takeWhile b (List.mem_of_mem_take (htail ▸ hb))
  have hend : countChars (if part = [] then [] else replacementChar) = countChars part := by
    rcases hpart with rfl | hpart
    · rfl
    · rw [hpart.countChars_eq, if_neg hpart.choose_spec.2.1]
      rfl
  rw [← htail, hslice, fromUtf8Lossy_tail hcont, fromUtf8Lossy_append hwhole,
    fromUtf8Lossy_part hpart, countChars_append, countChars_append, countChars_append,
    countChars_append, countChars_replacements, countChars_tail hcont, hend]
  omega

end

end EeEditor
