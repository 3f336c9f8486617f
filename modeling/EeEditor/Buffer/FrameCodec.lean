import EeEditor.Buffer.TextBlob

/-!
# The frame codec

What a frame is written as and what is read from it, number by number: `readVarint_iff` tells the
encodings that are read, `decodeFrame_iff` the frames that are accepted. They are those that
describe their rows when every number is taken modulo `2 ^ 64` (`Encodes`), which is what is meant
by the frame only if no number of its header is that large.
-/

namespace EeEditor

variable {bs rest e frame row : List UInt8} {value shift n v : ℕ} {rows : List (List UInt8)}

/-! ## One number -/

theorem low_bits (value : ℕ) : (UInt8.ofNat (value &&& 0x7F)).toNat = value % 128 := by
  have hmod : value &&& 0x7F = value % 128 := Nat.and_two_pow_sub_one_eq_mod value 7
  rw [hmod, UInt8.toNat_ofNat']
  omega

theorem leb128_writeVarintFrom (value : ℕ) : Leb128 (writeVarintFrom value) value := by
  induction value using writeVarintFrom.induct with
  | case1 value hzero =>
    have hlow := low_bits value
    rw [Nat.shiftRight_eq_div_pow] at hzero
    have hlt : value % 128 = value := Nat.mod_eq_of_lt (by omega)
    rw [writeVarintFrom, if_pos (by rwa [Nat.shiftRight_eq_div_pow])]
    rw [hlt] at hlow
    have hlast := @Leb128.last (UInt8.ofNat (value &&& 0x7F)) (by omega)
    rwa [hlow] at hlast
  | case2 value hzero ih =>
    have hlow := low_bits value
    have hor := or_high_bit (UInt8.ofNat (value &&& 0x7F)) (by omega)
    rw [writeVarintFrom, if_neg hzero]
    have hmore := @Leb128.more (UInt8.ofNat (value &&& 0x7F) ||| 0x80) _ _ (by omega) ih
    rw [hor, hlow, Nat.add_mod_right, Nat.mod_mod, Nat.shiftRight_eq_div_pow,
      Nat.mod_add_div value 128] at hmore
    rwa [Nat.shiftRight_eq_div_pow]

/-- Seven bits a byte. -/
theorem length_writeVarintFrom_le (k : ℕ) (h : value < 2 ^ (7 * (k + 1))) :
    (writeVarintFrom value).length ≤ k + 1 := by
  induction k generalizing value with
  | zero =>
    rw [writeVarintFrom, if_pos (by rw [Nat.shiftRight_eq_div_pow]; omega)]
    exact Nat.le_refl 1
  | succ k ih =>
    rw [writeVarintFrom]
    split
    · exact Nat.succ_le_succ (Nat.zero_le _)
    · refine Nat.succ_le_succ (ih ?_)
      rw [Nat.shiftRight_eq_div_pow, Nat.div_lt_iff_lt_mul (Nat.two_pow_pos 7), ← Nat.pow_add]
      exact h

theorem writeVarint_spec (h : value < 2 ^ 64) :
    Leb128 (writeVarint value) value ∧ (writeVarint value).length ≤ 10 := by
  rw [writeVarint, Nat.mod_eq_of_lt h]
  exact ⟨leb128_writeVarintFrom value,
    length_writeVarintFrom_le 9 (h.trans (Nat.pow_lt_pow_right Nat.one_lt_two (by omega)))⟩

/-- An encoding of up to ten bytes is read, without the bits past the 64th. -/
theorem readVarintFrom_append {i : ℕ} (he : Leb128 e n) (hvalue : value < 2 ^ (7 * i))
    (hlen : i + e.length ≤ 10) :
    readVarintFrom (e ++ rest) value (7 * i) = some ((value + 2 ^ (7 * i) * n) % 2 ^ 64, rest) := by
  induction he generalizing value i with
  | @last b hb =>
    rw [List.length_singleton] at hlen
    rw [List.singleton_append, readVarintFrom, and_low_bits,
      or_shiftLeft_mod (w := 64) _ hvalue (by omega), Nat.mod_eq_of_lt hb]
    exact if_pos ((and_high_bit b).mpr hb)
  | @more b bs n hb hrest ih =>
    have hpos := hrest.length_pos
    rw [List.length_cons] at hlen
    have hhigh : ¬ (b &&& 0x80 = 0) := fun h ↦ absurd ((and_high_bit b).mp h) (by omega)
    rw [List.cons_append, readVarintFrom, and_low_bits,
      or_shiftLeft_mod (w := 64) _ hvalue (by omega)]
    rw [if_neg hhigh, if_neg (by omega)]
    have hpow : 2 ^ (7 * (i + 1)) = 2 ^ (7 * i) * 128 := by rw [Nat.mul_succ, Nat.pow_add]
    have hmul : 2 ^ (7 * i) * (b.toNat % 128) ≤ 2 ^ (7 * i) * 127 :=
      Nat.mul_le_mul_left _ (by omega)
    have hsum : value + 2 ^ (7 * i) * (b.toNat % 128) < 2 ^ (7 * (i + 1)) := by omega
    have hle : 2 ^ (7 * (i + 1)) ≤ 2 ^ 64 := Nat.pow_le_pow_right Nat.two_pos (by omega)
    have hread := ih hsum (by omega)
    rw [Nat.mod_eq_of_lt (hsum.trans_le hle), ← Nat.mul_succ]
    refine hread.trans ?_
    rw [hpow, Nat.add_assoc, Nat.mul_assoc, ← Nat.mul_add]

/-- What is read is an encoding of up to ten bytes. -/
theorem exists_of_readVarintFrom {i : ℕ} (hi : i ≤ 9)
    (h : readVarintFrom bs value (7 * i) = some (v, rest)) :
    ∃ e n, Leb128 e n ∧ i + e.length ≤ 10 ∧ bs = e ++ rest := by
  induction bs generalizing value i with
  | nil => cases h
  | cons b bs ih =>
    rw [readVarintFrom] at h
    by_cases hhigh : b &&& 0x80 = 0
    · rw [if_pos hhigh] at h
      obtain ⟨-, rfl⟩ := Prod.mk.inj (Option.some_inj.mp h)
      exact ⟨[b], _, .last ((and_high_bit b).mp hhigh), Nat.succ_le_succ hi, rfl⟩
    · rw [if_neg hhigh] at h
      split at h
      · cases h
      · rw [← Nat.mul_succ] at h
        obtain ⟨e, n, he, hlen, rfl⟩ := ih (by omega) h
        have hb : 128 ≤ b.toNat := Nat.le_of_not_lt fun hlt ↦ hhigh ((and_high_bit b).mpr hlt)
        refine ⟨b :: e, _, .more hb he, ?_, rfl⟩
        rw [List.length_cons]
        omega

/-- An encoding that `read_varint` takes, with what it makes of it. -/
def ReadsAs (e : List UInt8) (v : ℕ) : Prop := ∃ n, Leb128 e n ∧ e.length ≤ 10 ∧ n % 2 ^ 64 = v

theorem readVarint_append (he : ReadsAs e v) : readVarint (e ++ rest) = some (v, rest) := by
  obtain ⟨n, hn, hlen, rfl⟩ := he
  have hread := @readVarintFrom_append rest e 0 n 0 hn Nat.one_pos (by rwa [Nat.zero_add])
  rwa [Nat.mul_zero, Nat.pow_zero, Nat.one_mul, Nat.zero_add] at hread

theorem readVarint_iff :
    readVarint bs = some (v, rest) ↔ ∃ e, ReadsAs e v ∧ bs = e ++ rest := by
  constructor
  · intro h
    obtain ⟨e, n, he, hlen, rfl⟩ := exists_of_readVarintFrom (i := 0) (Nat.zero_le 9) h
    have hreads : ReadsAs e (n % 2 ^ 64) := ⟨n, he, by rwa [Nat.zero_add] at hlen, rfl⟩
    obtain ⟨rfl, -⟩ := Prod.mk.inj (Option.some_inj.mp (h.symm.trans (readVarint_append hreads)))
    exact ⟨e, hreads, rfl⟩
  · rintro ⟨e, he, rfl⟩
    exact readVarint_append he

/-! ## The frame -/

/-- The lengths that are read are those of as many encodings. -/
theorem readLengths_iff {count k : ℕ} {lengths : List ℕ} :
    readLengths count k bs = .ok (lengths, rest) ↔ ∃ es, List.Forall₂ ReadsAs es lengths ∧
      es.length = k ∧ bs = es.flatten ++ rest := by
  induction k generalizing bs lengths with
  | zero =>
    rw [readLengths]
    constructor
    · intro h
      obtain ⟨rfl, rfl⟩ := Prod.mk.inj (Except.ok.inj h)
      exact ⟨[], .nil, rfl, rfl⟩
    · rintro ⟨es, hall, hlen, rfl⟩
      obtain rfl := List.length_eq_zero_iff.mp hlen
      cases hall
      rfl
  | succ k ih =>
    rw [readLengths]
    constructor
    · intro h
      cases hread : readVarint bs with
      | none =>
        rw [hread] at h
        cases h
      | some r =>
        obtain ⟨length, rest'⟩ := r
        rw [hread] at h
        obtain ⟨e, he, rfl⟩ := readVarint_iff.mp hread
        dsimp only at h
        cases hrest : readLengths count k rest' with
        | error _ =>
          rw [hrest] at h
          cases h
        | ok r =>
          obtain ⟨lengths', rest''⟩ := r
          rw [hrest] at h
          obtain ⟨rfl, rfl⟩ := Prod.mk.inj (Except.ok.inj h)
          obtain ⟨es, hall, rfl, rfl⟩ := ih.mp hrest
          exact ⟨e :: es, .cons he hall, rfl, (List.append_assoc _ _ _).symm⟩
    · rintro ⟨es, hall, hlen, rfl⟩
      cases hall with
      | nil => cases hlen
      | @cons e v es vs he hall =>
        have hrest := ih.mpr ⟨es, hall, Nat.succ.inj hlen, rfl⟩
        rw [List.flatten_cons, List.append_assoc, readVarint_append he]
        dsimp only
        rw [hrest]
        rfl

/-- The rows that are taken have the lengths and come one after another. -/
theorem takeRows_iff {frameLen index : ℕ} {lengths : List ℕ} (hframe : frameLen < 2 ^ 64)
    (hbs : bs.length ≤ frameLen) : takeRows frameLen index lengths bs = .ok (rows, rest) ↔
      bs = rows.flatten ++ rest ∧ lengths = rows.map List.length := by
  induction lengths generalizing bs rows index with
  | nil =>
    rw [takeRows]
    constructor
    · intro h
      obtain ⟨rfl, rfl⟩ := Prod.mk.inj (Except.ok.inj h)
      exact ⟨rfl, rfl⟩
    · rintro ⟨rfl, hnil⟩
      obtain rfl := List.map_eq_nil_iff.mp hnil.symm
      rfl
  | cons length lengths ih =>
    have hdrop : (bs.drop length).length ≤ frameLen := by
      rw [List.length_drop]
      omega
    rw [takeRows]
    constructor
    · intro h
      split at h
      · cases h
      split at h
      · cases h
      rename_i hle
      cases hrest : takeRows frameLen (index + 1) lengths (bs.drop length) with
      | error _ =>
        rw [hrest] at h
        cases h
      | ok r =>
        obtain ⟨rows', rest'⟩ := r
        rw [hrest] at h
        obtain ⟨rfl, rfl⟩ := Prod.mk.inj (Except.ok.inj h)
        obtain ⟨hsplit, rfl⟩ := (ih hdrop).mp hrest
        refine ⟨?_, ?_⟩
        · rw [List.flatten_cons, List.append_assoc, ← hsplit, List.take_append_drop]
        · rw [List.map_cons, List.length_take, Nat.min_eq_left (Nat.le_of_not_lt hle)]
    · rintro ⟨rfl, hlengths⟩
      cases rows with
      | nil => cases hlengths
      | cons row rows =>
        obtain ⟨rfl, rfl⟩ := List.cons.inj hlengths
        rw [List.flatten_cons, List.append_assoc] at hbs hdrop ⊢
        rw [List.length_append] at hbs
        have hrest : takeRows frameLen (index + 1) (rows.map List.length)
            ((row ++ (rows.flatten ++ rest)).drop row.length) = .ok (rows, rest) :=
          (ih hdrop).mpr ⟨List.drop_left, rfl⟩
        rw [if_neg (by rw [List.length_append]; omega), if_neg (by rw [List.length_append]; omega),
          hrest, List.take_left]
        rfl

/-- The frame gives the number of some rows, their lengths and their bytes, with numbers encoded as
`R` says. -/
def Encodes (R : List UInt8 → ℕ → Prop) (frame : List UInt8) (rows : List (List UInt8)) : Prop :=
  ∃ e es, R e rows.length ∧ List.Forall₂ R es (rows.map List.length) ∧
    frame = e ++ (es.flatten ++ rows.flatten)

/-- The frames that are accepted. -/
theorem decodeFrame_iff (hframe : frame.length < 2 ^ 64) :
    decodeFrame frame = .ok rows ↔ Encodes ReadsAs frame rows := by
  rw [decodeFrame]
  constructor
  · intro h
    cases hread : readVarint frame with
    | none =>
      rw [hread] at h
      cases h
    | some r =>
      obtain ⟨count, rest⟩ := r
      rw [hread] at h
      obtain ⟨e, he, hsplit⟩ := readVarint_iff.mp hread
      cases hlengths : readLengths count count rest with
      | error _ =>
        simp only [hlengths, bind, Except.bind, reduceCtorEq] at h
      | ok r =>
        obtain ⟨lengths, rest'⟩ := r
        obtain ⟨es, hall, hlen, rfl⟩ := readLengths_iff.mp hlengths
        simp only [hlengths, bind, Except.bind] at h
        have hle : rest'.length ≤ frame.length := by
          rw [hsplit]
          simp only [List.length_append]
          omega
        cases htake : takeRows frame.length 0 lengths rest' with
        | error _ => simp only [htake, reduceCtorEq] at h
        | ok r =>
          obtain ⟨rows', rest''⟩ := r
          simp only [htake] at h
          split at h
          · cases h
          · rename_i hnil
            obtain rfl := Except.ok.inj h
            obtain ⟨rfl, rfl⟩ := (takeRows_iff hframe hle).mp htake
            rw [not_ne_iff] at hnil
            subst hnil
            rw [List.append_nil] at hsplit
            refine ⟨e, es, ?_, hall, hsplit⟩
            rwa [← List.length_map (f := List.length), ← hall.length_eq, hlen]
  · rintro ⟨e, es, he, hall, rfl⟩
    have hlengths : readLengths rows.length rows.length (es.flatten ++ rows.flatten)
        = .ok (rows.map List.length, rows.flatten) :=
      readLengths_iff.mpr ⟨es, hall, hall.length_eq.trans (List.length_map _), rfl⟩
    have hle : rows.flatten.length ≤ (e ++ (es.flatten ++ rows.flatten)).length := by
      simp only [List.length_append]
      omega
    have htake : takeRows (e ++ (es.flatten ++ rows.flatten)).length 0 (rows.map List.length)
        rows.flatten = .ok (rows, []) :=
      (takeRows_iff hframe hle).mpr ⟨(List.append_nil _).symm, rfl⟩
    rw [readVarint_append he]
    simp only [hlengths, htake, bind, Except.bind, ne_eq, not_true_eq_false, if_false]

/-! ## Writing rows -/

namespace TextBlob

variable {self : TextBlob}

/-- A blob that holds some rows, within the cap. -/
structure Holds (blob : TextBlob) (rows : List (List UInt8)) : Prop where
  lengths : blob.lengths = rows.map List.length
  bytes : blob.bytes = rows.flatten
  le : blob.bytes.length ≤ maxBlobBytes

theorem holds_new : new.Holds [] := ⟨rfl, rfl, Nat.zero_le _⟩

/-- What one push keeps: a row that is refused leaves those before it. -/
theorem Holds.pushBytes (h : self.Holds rows) (row : List UInt8) :
    (self.pushBytes row).1.Holds (if (self.pushBytes row).2 then rows ++ [row] else rows) := by
  rw [TextBlob.pushBytes]
  split
  · exact ⟨h.lengths, h.bytes, h.le⟩
  · rename_i hroom
    rw [not_or, Nat.not_lt] at hroom
    refine ⟨?_, ?_, ?_⟩
    · simp [h.lengths]
    · simp [h.bytes]
    · rw [List.length_append]
      exact hroom.2

/-- The rows that were taken. -/
def accepted (rows : List (List UInt8)) (answers : List Bool) : List (List UInt8) :=
  ((rows.zip answers).filter Prod.snd).map Prod.fst

theorem accepted_cons (row : List UInt8) (rows : List (List UInt8)) (pushed : Bool)
    (answers : List Bool) : accepted (row :: rows) (pushed :: answers)
      = (if pushed then [row] else []) ++ accepted rows answers := by
  cases pushed <;> rfl

/-- A run of pushes holds what was there and the rows that were taken. -/
theorem Holds.pushAll (h : self.Holds rows) (more : List (List UInt8)) :
    (self.pushAll more).1.Holds (rows ++ accepted more (self.pushAll more).2) := by
  induction more generalizing self rows with
  | nil => simpa [TextBlob.pushAll, accepted] using h
  | cons row more ih =>
    have hrest := ih (h.pushBytes row)
    rw [TextBlob.pushAll]
    dsimp only
    rw [accepted_cons, ← List.append_assoc]
    split at hrest
    · rename_i hpushed
      rwa [if_pos hpushed]
    · rename_i hpushed
      rwa [if_neg hpushed, List.append_nil]

/-- Rows within the cap are all taken. -/
theorem pushAll_answers (more : List (List UInt8)) (hfull : self.full = false)
    (hroom : self.bytes.length + (more.map List.length).sum ≤ maxBlobBytes) :
    (self.pushAll more).2 = more.map fun _ ↦ true := by
  induction more generalizing self with
  | nil => rfl
  | cons row more ih =>
    rw [List.map_cons, List.sum_cons] at hroom
    have hpush : self.pushBytes row = ({ self with
        lengths := self.lengths ++ [row.length], bytes := self.bytes ++ row }, true) := by
      rw [TextBlob.pushBytes, if_neg]
      rw [hfull, not_or]
      exact ⟨Bool.false_ne_true, by omega⟩
    rw [TextBlob.pushAll, hpush, List.map_cons]
    refine congrArg (true :: ·) (ih hfull ?_)
    dsimp only
    rw [List.length_append]
    omega

theorem accepted_true (rows : List (List UInt8)) :
    accepted rows (rows.map fun _ ↦ true) = rows := by
  induction rows with
  | nil => rfl
  | cons row rows ih => rw [List.map_cons, accepted_cons, if_pos rfl, ih, List.singleton_append]

/-- A frame is no longer than ten bytes for each number and the rows. -/
theorem length_flatMap_writeVarint_le (lengths : List ℕ) (h : ∀ n ∈ lengths, n < 2 ^ 64) :
    (lengths.flatMap writeVarint).length ≤ 10 * lengths.length := by
  induction lengths with
  | nil => exact Nat.le_refl 0
  | cons n lengths ih =>
    have hlen := (writeVarint_spec (h n List.mem_cons_self)).2
    have hrest := ih fun m hm ↦ h m (List.mem_cons_of_mem n hm)
    rw [List.flatMap_cons, List.length_append, List.length_cons]
    omega

end TextBlob

/-- The most numbers that a vector holds, with eight bytes for each. -/
def maxRows : ℕ := 2 ^ 63 / 8

theorem readsAs_writeVarint (h : value < 2 ^ 64) : ReadsAs (writeVarint value) value :=
  ⟨value, (writeVarint_spec h).1, (writeVarint_spec h).2, Nat.mod_eq_of_lt h⟩

/-- What a blob holds is what its frame decodes to. -/
theorem TextBlob.Holds.decodeFrame {self : TextBlob} (h : self.Holds rows)
    (hrows : rows.length < maxRows) : decodeFrame self.intoFrame = .ok rows := by
  have hmax : maxBlobBytes < 2 ^ 23 := by decide
  have hmaxRows : maxRows = 2 ^ 60 := by decide
  have hlen : self.lengths.length = rows.length := by rw [h.lengths, List.length_map]
  have hbound : ∀ n ∈ self.lengths, n < 2 ^ 64 := by
    rw [h.lengths]
    intro n hn
    obtain ⟨row, hrow, rfl⟩ := List.mem_map.mp hn
    have hle := (List.sublist_flatten_of_mem hrow).length_le
    rw [← h.bytes] at hle
    have := h.le
    omega
  have hcount := (@writeVarint_spec self.lengths.length (by omega)).2
  have hheader := TextBlob.length_flatMap_writeVarint_le self.lengths hbound
  have hframe : self.intoFrame.length < 2 ^ 64 := by
    have := h.le
    rw [TextBlob.intoFrame, List.length_append, List.length_append]
    omega
  refine (decodeFrame_iff hframe).mpr ⟨writeVarint self.lengths.length,
    self.lengths.map writeVarint, ?_, ?_, ?_⟩
  · rw [hlen]
    exact readsAs_writeVarint (by omega)
  · rw [← h.lengths, List.forall₂_map_left_iff, List.forall₂_same]
    exact fun n hn ↦ readsAs_writeVarint (hbound n hn)
  · rw [TextBlob.intoFrame, h.bytes, List.append_assoc, List.flatMap_def]

/-! ## Frames that are accepted for other rows -/

/-- The frame describes some rows only because one of its numbers is too large for 64 bits. -/
def Wraps (frame : List UInt8) : Prop :=
  ∃ (e : List UInt8) (es rows : List (List UInt8)), ReadsAs e rows.length ∧
    List.Forall₂ ReadsAs es (rows.map List.length) ∧ frame = e ++ (es.flatten ++ rows.flatten) ∧
    ∃ d ∈ e :: es, ∃ n, Leb128 d n ∧ 2 ^ 64 ≤ n

theorem ReadsAs.leb128 (h : ReadsAs e v) (hsmall : ∀ n, Leb128 e n → n < 2 ^ 64) : Leb128 e v := by
  obtain ⟨n, hn, -, rfl⟩ := h
  rwa [Nat.mod_eq_of_lt (hsmall n hn)]

theorem forall₂_leb128 {es : List (List UInt8)} {vs : List ℕ} (h : List.Forall₂ ReadsAs es vs)
    (hsmall : ∀ d ∈ es, ∀ n, Leb128 d n → n < 2 ^ 64) : List.Forall₂ Leb128 es vs := by
  induction h with
  | nil => exact .nil
  | cons he _ ih =>
    exact .cons (he.leb128 (hsmall _ List.mem_cons_self))
      (ih fun d hd ↦ hsmall d (List.mem_cons_of_mem _ hd))

theorem encodes_of_not_wraps (h : Encodes ReadsAs frame rows) (hwraps : ¬ Wraps frame) :
    Encodes Leb128 frame rows := by
  obtain ⟨e, es, he, hes, hframe⟩ := h
  have hsmall : ∀ d ∈ e :: es, ∀ n, Leb128 d n → n < 2 ^ 64 := by
    intro d hd n hn
    by_contra hge
    exact hwraps ⟨e, es, rows, he, hes, hframe, d, hd, n, hn, Nat.le_of_not_lt hge⟩
  exact ⟨e, es, he.leb128 (hsmall e List.mem_cons_self),
    forall₂_leb128 hes fun d hd ↦ hsmall d (List.mem_cons_of_mem e hd), hframe⟩

/-- The numbers of an encoding that is read are what is read when they fit. -/
theorem ReadsAs.lt (h : ReadsAs e v) : v < 2 ^ 64 := by
  obtain ⟨n, -, -, rfl⟩ := h
  exact Nat.mod_lt n (Nat.two_pow_pos 64)

theorem Leb128.inj {n' : ℕ} (h : Leb128 e n) (h' : Leb128 e n') : n = n' :=
  (h.unique h' (rfl : e ++ [] = e ++ [])).2.1

theorem exists_leb128 {es : List (List UInt8)} {vs : List ℕ} (h : List.Forall₂ ReadsAs es vs) :
    (∃ ns, List.Forall₂ Leb128 es ns) ∧ ∀ v ∈ vs, v < 2 ^ 64 := by
  induction h with
  | nil => exact ⟨⟨[], .nil⟩, fun v hv ↦ absurd hv List.not_mem_nil⟩
  | cons he _ ih =>
    obtain ⟨⟨ns, hns⟩, hlt⟩ := ih
    obtain ⟨n, hn, -, -⟩ := id he
    exact ⟨⟨n :: ns, .cons hn hns⟩, List.forall_mem_cons.mpr ⟨he.lt, hlt⟩⟩

theorem exists_value {es : List (List UInt8)} {vs : List ℕ} (h : List.Forall₂ Leb128 es vs) :
    ∀ d ∈ es, ∃ v ∈ vs, Leb128 d v := by
  induction h with
  | nil => exact fun d hd ↦ absurd hd List.not_mem_nil
  | cons he _ ih =>
    intro d hd
    rcases List.mem_cons.mp hd with rfl | hd
    · exact ⟨_, List.mem_cons_self, he⟩
    · obtain ⟨v, hv, hdv⟩ := ih d hd
      exact ⟨v, List.mem_cons_of_mem _ hv, hdv⟩

/-- A frame that wraps does not describe the rows that it is read as. -/
theorem not_wraps_of_encodes (h : ∀ rows, Encodes ReadsAs frame rows → Encodes Leb128 frame rows) :
    ¬ Wraps frame := by
  rintro ⟨e, es, rows, he, hes, hframe, d, hd, n, hn, hlarge⟩
  obtain ⟨e', es', he', hes', hframe'⟩ := h rows ⟨e, es, he, hes, hframe⟩
  obtain ⟨m, hm, -, -⟩ := id he
  obtain ⟨rfl, rfl, htail⟩ := hm.unique he' (hframe.symm.trans hframe')
  obtain ⟨⟨ns, hns⟩, hlt⟩ := exists_leb128 hes
  have hlen : es.length = es'.length := hes.length_eq.trans hes'.length_eq.symm
  obtain ⟨rfl, rfl, -⟩ := Leb128.forall₂_unique hns hes' hlen htail
  rcases List.mem_cons.mp hd with rfl | hd
  · have := he.lt
    obtain rfl := hn.inj hm
    omega
  · obtain ⟨v, hv, hdv⟩ := exists_value hns d hd
    have := hlt v hv
    obtain rfl := hn.inj hdv
    omega

/-! ## The codec -/

/-- Rows within the cap come back from their frame, and a row that is refused changes no frame. A
frame is accepted only for the rows it describes, unless one of its numbers wraps. -/
theorem frame_codec (frame : List UInt8) :
    (∀ rows : List (List UInt8), rows.length < maxRows →
      (rows.map List.length).sum ≤ maxBlobBytes →
        (∀ pushed ∈ (TextBlob.new.pushAll rows).2, pushed = true) ∧
          decodeFrame (TextBlob.new.pushAll rows).1.intoFrame = .ok rows) ∧
    (∀ rows : List (List UInt8), rows.length < maxRows →
      decodeFrame (TextBlob.new.pushAll rows).1.intoFrame
        = .ok (TextBlob.accepted rows (TextBlob.new.pushAll rows).2)) ∧
    (∀ (self : TextBlob) (row : List UInt8), (self.pushBytes row).2 = false →
      (self.pushBytes row).1.intoFrame = self.intoFrame) ∧
    (frame.length < 2 ^ 64 →
      ((∀ rows, decodeFrame frame = .ok rows → Encodes Leb128 frame rows) ↔ ¬ Wraps frame)) := by
  have hdecode : ∀ rows : List (List UInt8), rows.length < maxRows →
      decodeFrame (TextBlob.new.pushAll rows).1.intoFrame
        = .ok (TextBlob.accepted rows (TextBlob.new.pushAll rows).2) := by
    intro rows hrows
    have hholds := TextBlob.holds_new.pushAll rows
    rw [List.nil_append] at hholds
    refine hholds.decodeFrame (lt_of_le_of_lt ?_ hrows)
    rw [TextBlob.accepted, List.length_map]
    exact (List.length_filter_le _ _).trans (List.length_zip.trans_le (Nat.min_le_left _ _))
  refine ⟨fun rows hrows hsum ↦ ?_, hdecode, fun self row hrefused ↦ ?_, fun hframe ↦ ?_⟩
  · have hanswers : (TextBlob.new.pushAll rows).2 = rows.map fun _ ↦ true :=
      TextBlob.pushAll_answers rows rfl (by
        rw [TextBlob.new, List.length_nil, Nat.zero_add]
        exact hsum)
    have hall := hdecode rows hrows
    rw [hanswers, TextBlob.accepted_true] at hall
    refine ⟨fun pushed hpushed ↦ ?_, hall⟩
    rw [hanswers] at hpushed
    obtain ⟨row, -, rfl⟩ := List.mem_map.mp hpushed
    rfl
  · rw [TextBlob.pushBytes] at hrefused ⊢
    split at hrefused
    · rename_i hfull
      rw [if_pos hfull]
      rfl
    · exact absurd hrefused.symm Bool.false_ne_true
  · constructor
    · intro h
      refine not_wraps_of_encodes fun rows hrows ↦ h rows ((decodeFrame_iff hframe).mpr hrows)
    · exact fun hwraps rows hrows ↦
        encodes_of_not_wraps ((decodeFrame_iff hframe).mp hrows) hwraps

theorem frame_codec_two_rows :
    decodeFrame (TextBlob.new.pushAll [[97], []]).1.intoFrame = .ok [[97], []] :=
  ((frame_codec []).1 [[97], []] (by decide) (by decide)).2

/-- Zeros in the low bits. -/
theorem leb128_zeros (k : ℕ) : Leb128 (List.replicate k 0x80 ++ [2]) (2 * 128 ^ k) := by
  induction k with
  | zero => exact @Leb128.last 2 (by decide)
  | succ k ih =>
    have hmore := @Leb128.more 0x80 _ _ (by decide) ih
    have hvalue : (0x80 : UInt8).toNat % 128 + 128 * (2 * 128 ^ k) = 2 * 128 ^ (k + 1) := by
      rw [Nat.pow_succ, show (0x80 : UInt8).toNat % 128 = 0 from rfl]
      omega
    rwa [hvalue] at hmore

/-- Ten bytes for `2 ^ 64` are taken for the frame of no rows, which they do not describe. -/
theorem decodeFrame_wraps : decodeFrame (List.replicate 9 0x80 ++ [2]) = .ok [] ∧
    ¬ Encodes Leb128 (List.replicate 9 0x80 ++ [2]) [] := by
  have hlarge : Leb128 (List.replicate 9 0x80 ++ [2]) (2 ^ 64) := leb128_zeros 9
  constructor
  · exact (decodeFrame_iff (by decide)).mpr
      ⟨List.replicate 9 0x80 ++ [2], [], ⟨2 ^ 64, hlarge, by decide, rfl⟩, .nil, rfl⟩
  · rintro ⟨e, es, he, hes, hframe⟩
    have hunique := hlarge.unique he ((List.append_nil _).trans hframe)
    exact absurd hunique.2.1 (by decide)

end EeEditor
