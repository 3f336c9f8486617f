import EeEditor.Orchestrator.RedactedText
import EeEditor.Tree.Slices

/-!
# A redaction on bytes

The loops of `ee-agent-orchestrator/src/sensitive_data.rs` as they stand, with indexes of bytes and
slices that panic off a character boundary. They compute what the scans on characters do, and no
slice panics: what a loop looks for are ASCII bytes, so that it stops where a character
begins.
-/

namespace EeEditor.Orchestrator

open BTree (Text bytes sliceText)

/-! ## The loops -/

/-- `while index < len && goes_on(index) { index += 1 }`. -/
def advance (len : ℕ) (goesOn : ℕ → Bool) (index : ℕ) : ℕ :=
  index + ((List.range' index (len - index)).takeWhile goesOn).length

def isAsciiAlphanumeric (byte : UInt8) : Bool :=
  (48 ≤ byte && byte ≤ 57) || (65 ≤ byte && byte ≤ 90) || (97 ≤ byte && byte ≤ 122)

def isTokenByte (byte : UInt8) : Bool := isAsciiAlphanumeric byte || byte == 95 || byte == 45

def isJwtByte (byte : UInt8) : Bool := isTokenByte byte || byte == 46

def endsValueByte (byte : UInt8) : Bool :=
  byte == 32 || byte == 9 || byte == 10 || byte == 13 || byte == 12 || byte == 44 || byte == 34 ||
    byte == 39

/-- The loop over the bytes that satisfy the test. -/
def advanceBytes (text : Text) (test : UInt8 → Bool) (index : ℕ) : ℕ :=
  advance (bytes text).length (fun index ↦ (bytes text)[index]?.any test) index

/-- The loop up to a character boundary. -/
def advanceToBoundary (text : Text) (index : ℕ) : ℕ :=
  advance (bytes text).length (fun index ↦ !isCharBoundary (bytes text) index) index

/-- `&text[start..]`. -/
def sliceFromText (text : Text) (start : ℕ) : Option Text :=
  sliceText text start (bytes text).length

/-- A fuel of one more than the bytes that are left is enough. -/
@[grind =] def redactAssignmentsLoop (text : Text) :
    ℕ → (segmentStart index : ℕ) → (out : Text) → Option Text
  | 0, _, _, _ => none
  | fuel + 1, segmentStart, index, out =>
    if index < (bytes text).length then
      if (bytes text)[index]? = some 61 then
        (sliceText text segmentStart index).bind fun name ↦
          if isSensitiveKey (trim name) then
            let end_ := advanceToBoundary text (advanceBytes text (!endsValueByte ·) (index + 1))
            (sliceText text segmentStart index).bind fun kept ↦
              redactAssignmentsLoop text fuel end_ end_ (out ++ kept ++ '=' :: redacted)
          else redactAssignmentsLoop text fuel segmentStart (index + 1) out
      else redactAssignmentsLoop text fuel segmentStart (index + 1) out
    else (sliceFromText text segmentStart).map (out ++ ·)

/-- A fuel of one more than the characters that are left is enough. -/
@[grind =]
def redactValuesLoop (text : Text) : ℕ → (segmentStart index : ℕ) → (out : Text) → Option Text
  | 0, _, _, _ => none
  | fuel + 1, segmentStart, index, out =>
    if index < (bytes text).length then
      (sliceFromText text index).bind fun rest ↦
        if "eyJ".toList.isPrefixOf rest then
          let stop := advanceToBoundary text (advanceBytes text isJwtByte (index + 3))
          (sliceText text index stop).bind fun span ↦
            if (bytes span).length ≥ 24 && span.contains '.' then
              (sliceText text segmentStart index).bind fun kept ↦
                redactValuesLoop text fuel stop stop (out ++ kept ++ redacted)
            else redactValuesLoop text fuel segmentStart stop out
        else if (bytes text)[index]?.any isTokenByte then
          let stop := advanceBytes text isTokenByte index
          (sliceText text index stop).bind fun token ↦
            if isSecretLike token then
              (sliceText text segmentStart index).bind fun kept ↦
                redactValuesLoop text fuel stop stop (out ++ kept ++ redacted)
            else redactValuesLoop text fuel segmentStart stop out
        else if (bytes text)[index]?.any (· < 128) then
          redactValuesLoop text fuel segmentStart (index + 1) out
        else redactValuesLoop text fuel segmentStart (advanceToBoundary text (index + 1)) out
    else (sliceFromText text segmentStart).map (out ++ ·)

/-- `redact`, or `none` where a slice panics. -/
def redactBytes (text : Text) : Option Text :=
  (redactAssignmentsLoop text ((bytes text).length + 1) 0 0 []).bind fun assigned ↦
    redactValuesLoop assigned ((bytes assigned).length + 1) 0 0 []

/-! ## Bytes and characters -/

variable {text before segment word rest span : Text} {c : Char} {p : Char → Bool}
  {test : UInt8 → Bool} {len index stop : ℕ} {goesOn : ℕ → Bool}

theorem advance_eq (hle : index ≤ stop) (hlen : stop ≤ len)
    (hall : ∀ i, index ≤ i → i < stop → goesOn i = true) (hend : stop < len → goesOn stop = false) :
    advance len goesOn index = stop := by
  have hsplit : List.range' index (len - index) =
      List.range' index (stop - index) ++ List.range' stop (len - stop) := by
    rw [show len - index = (stop - index) + (len - stop) by omega, ← List.range'_append_1,
      Nat.add_sub_cancel' hle]
  have hrest : (List.range' stop (len - stop)).takeWhile goesOn = [] := by
    rcases Nat.eq_zero_or_pos (len - stop) with hzero | hpos
    · rw [hzero]
      rfl
    · obtain ⟨n, hn⟩ := Nat.exists_eq_add_of_lt hpos
      rw [hn, Nat.zero_add, List.range'_succ,
        List.takeWhile_cons_of_neg (by simp [hend (by omega)])]
  rw [advance, hsplit, List.takeWhile_append_of_pos, hrest, List.append_nil, List.length_range',
    Nat.add_sub_cancel' hle]
  intro i hi
  obtain ⟨hge, hlt⟩ := List.mem_range'_1.mp hi
  exact hall i hge (by omega)

/-- The bytes of a character tell what the character is. -/
def Reads (test : UInt8 → Bool) (p : Char → Bool) : Prop :=
  ∀ c, ∀ b ∈ String.utf8EncodeChar c, test b = p c

theorem reads_of_ascii (hascii : ∀ (b : UInt8) (c : Char), b.toNat = c.toNat → test b = p c)
    (hbyte : ∀ b : UInt8, 128 ≤ b → test b = false)
    (hchar : ∀ c : Char, 128 ≤ c.toNat → p c = false) :
    Reads test p := by
  intro c b hb
  rcases Nat.lt_or_ge c.toNat 128 with hlt | hge
  · obtain ⟨b', hb', heq⟩ := encode_ascii hlt
    rw [hb', List.mem_singleton] at hb
    exact hascii b c (hb ▸ heq)
  · rw [hbyte b (ge_of_mem_encode hge hb), hchar c hge]

theorem isTokenByte_iff {b : UInt8} : isTokenByte b = true ↔ (48 ≤ b.toNat ∧ b.toNat ≤ 57) ∨
    (65 ≤ b.toNat ∧ b.toNat ≤ 90) ∨ (97 ≤ b.toNat ∧ b.toNat ≤ 122) ∨ b.toNat = 95 ∨
    b.toNat = 45 := by
  simp only [isTokenByte, isAsciiAlphanumeric, Bool.or_eq_true, Bool.and_eq_true,
    decide_eq_true_eq, UInt8.le_iff_toNat_le, beq_iff_eq, ← UInt8.toNat_inj]
  change (((48 ≤ b.toNat ∧ b.toNat ≤ 57 ∨ 65 ≤ b.toNat ∧ b.toNat ≤ 90) ∨
    97 ≤ b.toNat ∧ b.toNat ≤ 122) ∨ b.toNat = 95) ∨ b.toNat = 45 ↔ _
  omega

theorem reads_token : Reads isTokenByte isTokenChar := by
  refine reads_of_ascii (fun b c h ↦ ?_) (fun b h ↦ ?_) fun c h ↦ ?_
  · rw [Bool.eq_iff_iff, isTokenByte_iff, isTokenChar_iff, h]
  · rw [UInt8.le_iff_toNat_le] at h
    rw [Bool.eq_false_iff, Ne, isTokenByte_iff]
    change 128 ≤ b.toNat at h
    omega
  · rw [Bool.eq_false_iff, Ne, isTokenChar_iff]
    omega

theorem reads_toNat {e : UInt8} (he : e.toNat < 128) :
    Reads (· == e) (fun c ↦ decide (c.toNat = e.toNat)) := by
  refine reads_of_ascii (fun b c h ↦ ?_) (fun b h ↦ ?_) fun c h ↦ ?_
  · rw [Bool.eq_iff_iff, beq_iff_eq, decide_eq_true_eq, ← UInt8.toNat_inj, h]
  · rw [UInt8.le_iff_toNat_le] at h
    change 128 ≤ b.toNat at h
    rw [beq_eq_false_iff_ne, Ne, ← UInt8.toNat_inj]
    omega
  · rw [decide_eq_false_iff_not]
    omega

theorem reads_eq (d : Char) {e : UInt8} (he : e.toNat < 128) (hd : d.toNat = e.toNat) :
    Reads (· == e) (fun c ↦ decide (c = d)) := by
  intro c b hb
  exact (reads_toNat he c b hb).trans (decide_eq_decide.mpr (by rw [eq_iff_toNat, hd]))

theorem Reads.or {test' : UInt8 → Bool} {q : Char → Bool} (h : Reads test p) (h' : Reads test' q) :
    Reads (fun b ↦ test b || test' b) fun c ↦ p c || q c :=
  fun c b hb ↦ congrArg₂ Bool.or (h c b hb) (h' c b hb)

theorem reads_jwt : Reads isJwtByte isJwtChar := reads_token.or (reads_eq '.' (by decide) rfl)

theorem reads_endsValue : Reads endsValueByte endsValue :=
  (((((((reads_eq ' ' (by decide) rfl).or (reads_eq '\t' (by decide) rfl)).or
    (reads_eq '\n' (by decide) rfl)).or (reads_eq '\r' (by decide) rfl)).or
    (reads_toNat (by decide))).or (reads_eq ',' (by decide) rfl)).or
    (reads_eq '"' (by decide) rfl)).or (reads_eq '\'' (by decide) rfl)

theorem Reads.not (h : Reads test p) : Reads (!test ·) (!p ·) := fun c b hb ↦ congrArg _ (h c b hb)

/-! ## The inner loops -/

theorem getElem?_bytes (before : Text) (c : Char) (rest : Text) {i : ℕ}
    (hi : i < (String.utf8EncodeChar c).length) : ∃ b ∈ String.utf8EncodeChar c,
      (bytes (before ++ c :: rest))[(bytes before).length + i]? = some b := by
  refine ⟨(String.utf8EncodeChar c)[i], List.getElem_mem hi, ?_⟩
  rw [BTree.bytes_append, List.getElem?_append_right (Nat.le_add_right _ _),
    Nat.add_sub_cancel_left, BTree.bytes_cons, List.getElem?_append_left hi,
    List.getElem?_eq_getElem hi]

theorem length_bytes_concat (before : Text) (c : Char) :
    (bytes (before ++ [c])).length = (bytes before).length + (String.utf8EncodeChar c).length := by
  rw [BTree.bytes_append, List.length_append, BTree.bytes_cons, BTree.bytes_nil, List.append_nil]

theorem length_bytes_le (before rest : Text) :
    (bytes before).length ≤ (bytes (before ++ rest)).length := by
  rw [BTree.bytes_append, List.length_append]
  exact Nat.le_add_right _ _

/-- The test holds of all bytes of the word. -/
theorem any_of_word (htest : Reads test p) (hword : ∀ c ∈ word, p c = true) (before rest : Text)
    {i : ℕ} (hge : (bytes before).length ≤ i) (hlt : i < (bytes (before ++ word)).length) :
    (bytes (before ++ word ++ rest))[i]?.any test = true := by
  induction word generalizing before with
  | nil =>
    rw [List.append_nil] at hlt
    omega
  | cons c word ih =>
    rcases Nat.lt_or_ge i (bytes (before ++ [c])).length with hin | hout
    · rw [length_bytes_concat] at hin
      obtain ⟨j, rfl⟩ := Nat.exists_eq_add_of_le hge
      obtain ⟨b, hb, hget⟩ := getElem?_bytes before c (word ++ rest) (Nat.lt_of_add_lt_add_left hin)
      rw [List.append_assoc, List.cons_append, hget, Option.any_some, htest c b hb,
        hword c List.mem_cons_self]
    · have hrest := ih (fun c hc ↦ hword c (List.mem_cons_of_mem _ hc)) (before ++ [c]) hout
        (by rwa [List.append_assoc, List.singleton_append])
      rwa [List.append_assoc before, List.singleton_append] at hrest

theorem any_of_ends (htest : Reads test p) (hrest : Ends p rest) (before : Text) :
    (bytes (before ++ rest))[(bytes before).length]?.any test = false := by
  cases rest with
  | nil =>
    rw [List.append_nil, List.getElem?_eq_none le_rfl]
    rfl
  | cons c rest =>
    obtain ⟨b, hb, hget⟩ := getElem?_bytes before c rest (BTree.utf8Size_pos c)
    rw [Nat.add_zero] at hget
    rw [hget, Option.any_some, htest c b hb, ends_cons.mp hrest]

theorem advanceBytes_eq (htest : Reads test p) (hword : ∀ c ∈ word, p c = true)
    (hrest : Ends p rest) (before : Text) :
    advanceBytes (before ++ word ++ rest) test (bytes before).length =
      (bytes (before ++ word)).length :=
  advance_eq (length_bytes_le _ _) (length_bytes_le _ _)
    (fun _ hge hlt ↦ any_of_word htest hword before rest hge hlt)
    fun _ ↦ any_of_ends htest hrest (before ++ word)

theorem advanceToBoundary_self (before rest : Text) :
    advanceToBoundary (before ++ rest) (bytes before).length = (bytes before).length :=
  advance_eq le_rfl (length_bytes_le _ _) (fun _ hge hlt ↦ absurd hge (Nat.not_le.mpr hlt))
    fun _ ↦ by rw [BTree.isCharBoundary_between, Bool.not_true]

theorem advanceToBoundary_succ (before : Text) (c : Char) (rest : Text) :
    advanceToBoundary (before ++ c :: rest) ((bytes before).length + 1) =
      (bytes (before ++ [c])).length := by
  have hpos := BTree.utf8Size_pos c
  have hcat : before ++ c :: rest = before ++ [c] ++ rest := by simp
  have hle := length_bytes_le (before ++ [c]) rest
  rw [← hcat] at hle
  refine advance_eq (by rw [length_bytes_concat]; omega) hle (fun i hge hlt ↦ ?_) fun _ ↦ ?_
  · rw [length_bytes_concat] at hlt
    obtain ⟨j, rfl⟩ := Nat.exists_eq_add_of_le (Nat.le_of_succ_le hge)
    rw [BTree.isCharBoundary_within before c rest (by omega) (by omega), Bool.not_false]
  · rw [hcat, BTree.isCharBoundary_between, Bool.not_true]

theorem sliceText_append (before segment rest : Text) :
    sliceText (before ++ segment ++ rest) (bytes before).length
      (bytes (before ++ segment)).length = some segment := by
  have hend := BTree.splitOff_append (before ++ segment) rest
  have hstart := BTree.splitOff_append before segment
  change BTree.splitOff _ (bytes (before ++ segment)).length = _ at hend
  change BTree.splitOff _ (bytes before).length = _ at hstart
  rw [sliceText, hend]
  change (BTree.splitOff (before ++ segment) (bytes before).length).bind _ = _
  rw [hstart]
  rfl

theorem sliceFromText_append (before rest : Text) :
    sliceFromText (before ++ rest) (bytes before).length = some rest := by
  have hslice := sliceText_append before rest []
  rwa [List.append_nil] at hslice

/-! ## The loops compute the scans -/

theorem length_bytes_span (hspan : ∀ c ∈ span, isJwtChar c = true) :
    (bytes span).length = span.length := by
  induction span with
  | nil => rfl
  | cons c span ih =>
    have hc := hspan c List.mem_cons_self
    have hascii : c.toNat < 128 := by
      rw [isJwtChar, Bool.or_eq_true, isTokenChar_iff, decide_eq_true_eq, eq_iff_toNat] at hc
      change _ ∨ c.toNat = 46 at hc
      omega
    obtain ⟨b, hb, -⟩ := encode_ascii hascii
    rw [BTree.bytes_cons, List.length_append, hb, ih fun c hc ↦ hspan c (List.mem_cons_of_mem _ hc),
      List.length_cons, Nat.add_comm]
    rfl

theorem length_bytes_lt (before : Text) {rest : Text} (hrest : rest ≠ []) :
    (bytes before).length < (bytes (before ++ rest)).length := by
  obtain ⟨c, rest, rfl⟩ := List.exists_cons_of_ne_nil hrest
  have hpos := BTree.utf8Size_pos c
  rw [BTree.bytes_append, BTree.bytes_cons, List.length_append, List.length_append]
  omega

theorem redactValuesLoop_other (hc : isTokenChar c = false) (before segment rest out : Text)
    (fuel : ℕ) :
    redactValuesLoop (before ++ segment ++ c :: rest) (fuel + 1) (bytes before).length
        (bytes (before ++ segment)).length out =
      redactValuesLoop (before ++ (segment ++ [c]) ++ rest) fuel (bytes before).length
        (bytes (before ++ (segment ++ [c]))).length out := by
  have hjwt : ¬ "eyJ".toList.isPrefixOf (c :: rest) = true := fun h ↦ by
    rw [isTokenChar_of_startsJwt h] at hc
    cases hc
  have htoken := any_of_ends reads_token (show Ends isTokenChar (c :: rest) from ends_cons.mpr hc)
    (before ++ segment)
  have hcat : before ++ segment ++ c :: rest = before ++ (segment ++ [c]) ++ rest := by simp
  rw [redactValuesLoop, if_pos (length_bytes_lt _ (List.cons_ne_nil c rest)), sliceFromText_append,
    Option.bind_some, if_neg hjwt, htoken, if_neg Bool.false_ne_true]
  split
  · rename_i hascii
    have hlength : (String.utf8EncodeChar c).length = 1 := by
      obtain ⟨b, hb, hget⟩ := getElem?_bytes (before ++ segment) c rest (BTree.utf8Size_pos c)
      rw [Nat.add_zero] at hget
      rw [hget, Option.any_some, decide_eq_true_eq] at hascii
      rcases Nat.lt_or_ge c.toNat 128 with hlt | hge
      · obtain ⟨b', hb', -⟩ := encode_ascii hlt
        rw [hb']
        rfl
      · exact absurd hascii (UInt8.not_lt.mpr (ge_of_mem_encode hge hb))
    rw [hcat, ← List.append_assoc, length_bytes_concat, hlength]
  · rw [advanceToBoundary_succ, hcat, ← List.append_assoc]

/-- What a piece is cut out with: the segment before it, the piece and the position behind it. -/
theorem slices_of_piece (before segment word rest : Text) :
    sliceText (before ++ segment ++ word ++ rest) (bytes before).length
        (bytes (before ++ segment)).length = some segment ∧
      sliceText (before ++ segment ++ word ++ rest) (bytes (before ++ segment)).length
        (bytes (before ++ segment ++ word)).length = some word ∧
      sliceFromText (before ++ segment ++ word ++ rest) (bytes (before ++ segment)).length =
        some (word ++ rest) := by
  refine ⟨?_, sliceText_append _ word rest, ?_⟩
  · rw [List.append_assoc]
    exact sliceText_append before segment (word ++ rest)
  · rw [List.append_assoc]
    exact sliceFromText_append (before ++ segment) (word ++ rest)

/-- What the loop goes on with behind a piece, which is masked or joins the segment. -/
def afterPiece (secret : Bool) (before segment piece rest out : Text) (fuel : ℕ) : Option Text :=
  if secret then
    redactValuesLoop (before ++ segment ++ piece ++ [] ++ rest) fuel
      (bytes (before ++ segment ++ piece)).length (bytes (before ++ segment ++ piece ++ [])).length
      (out ++ segment ++ redacted)
  else
    redactValuesLoop (before ++ (segment ++ piece) ++ rest) fuel (bytes before).length
      (bytes (before ++ (segment ++ piece))).length out

theorem redactValuesLoop_token (hne : word ≠ []) (hword : ∀ c ∈ word, isTokenChar c = true)
    (hjwt : startsJwt word = false) (hrest : Ends isTokenChar rest) (before segment out : Text)
    (fuel : ℕ) :
    redactValuesLoop (before ++ segment ++ word ++ rest) (fuel + 1) (bytes before).length
        (bytes (before ++ segment)).length out =
      afterPiece (isSecretLike word) before segment word rest out fuel := by
  obtain ⟨hkept, hpiece, hfrom⟩ := slices_of_piece before segment word rest
  have hlt := (length_bytes_lt (before ++ segment) hne).trans_le (length_bytes_le _ rest)
  have hstarts : ¬ "eyJ".toList.isPrefixOf (word ++ rest) = true := by
    rw [← startsJwt, startsJwt_append hword hrest, hjwt]
    exact Bool.false_ne_true
  have hbyte := any_of_word reads_token hword (before ++ segment) rest le_rfl
    (length_bytes_lt (before ++ segment) hne)
  rw [afterPiece, redactValuesLoop, if_pos hlt, hfrom, Option.bind_some, if_neg hstarts,
    if_pos hbyte, advanceBytes_eq reads_token hword hrest]
  dsimp only
  rw [hpiece, Option.bind_some, hkept, Option.bind_some, List.append_nil, ← List.append_assoc]

theorem redactValuesLoop_jwt (hjwt : startsJwt span = true) (hspan : ∀ c ∈ span, isJwtChar c = true)
    (hrest : Ends isJwtChar rest) (before segment out : Text) (fuel : ℕ) :
    redactValuesLoop (before ++ segment ++ span ++ rest) (fuel + 1) (bytes before).length
        (bytes (before ++ segment)).length out =
      afterPiece (isJwt span) before segment span rest out fuel := by
  obtain ⟨hkept, hpiece, hfrom⟩ := slices_of_piece before segment span rest
  have hne : span ≠ [] := by
    rintro rfl
    cases hjwt
  have hlt := (length_bytes_lt (before ++ segment) hne).trans_le (length_bytes_le _ rest)
  have hstarts : "eyJ".toList.isPrefixOf (span ++ rest) = true := by
    rw [startsJwt, List.isPrefixOf_iff_prefix] at hjwt
    exact List.isPrefixOf_iff_prefix.mpr (hjwt.trans (List.prefix_append span rest))
  have hadvance : advanceBytes (before ++ segment ++ span ++ rest) isJwtByte
      ((bytes (before ++ segment)).length + 3) = (bytes (before ++ segment ++ span)).length := by
    obtain ⟨span, rfl⟩ := List.isPrefixOf_iff_prefix.mp hjwt
    have htail := advanceBytes_eq reads_jwt
      (fun c hc ↦ hspan c (List.mem_append_right _ hc)) hrest (before ++ segment ++ "eyJ".toList)
    have hthree : (bytes (before ++ segment ++ "eyJ".toList)).length =
        (bytes (before ++ segment)).length + 3 := by
      rw [BTree.bytes_append, List.length_append]
      rfl
    rwa [hthree, List.append_assoc _ _ span] at htail
  rw [afterPiece, redactValuesLoop, if_pos hlt, hfrom, Option.bind_some, if_pos hstarts, hadvance,
    advanceToBoundary_self]
  dsimp only
  rw [hpiece, Option.bind_some, hkept, Option.bind_some, length_bytes_span hspan, List.append_nil,
    ← List.append_assoc]
  rfl

/-- By induction on the pieces: `segment` is what the loop has read and not yet written. -/
theorem redactValuesLoop_eq (rest before segment out : Text) {fuel : ℕ}
    (hfuel : rest.length < fuel) :
    redactValuesLoop (before ++ segment ++ rest) fuel (bytes before).length
      (bytes (before ++ segment)).length out = some (out ++ segment ++ redactValues rest) := by
  induction rest using values_induction generalizing before segment out fuel with
  | nil =>
    obtain ⟨fuel, rfl⟩ := Nat.exists_eq_add_of_lt hfuel
    rw [List.append_nil, redactValuesLoop, if_neg (lt_irrefl _), sliceFromText_append]
    simp [redactValues_nil]
  | other c rest hc ih =>
    obtain ⟨fuel, rfl⟩ := Nat.exists_eq_add_of_le' (Nat.one_le_of_lt hfuel)
    rw [redactValuesLoop_other hc, ih _ _ _ (by simpa using hfuel), redactValues_other hc]
    simp
  | token token rest hne htoken hjwt hend ih =>
    obtain ⟨fuel, rfl⟩ := Nat.exists_eq_add_of_le' (Nat.one_le_of_lt hfuel)
    have hpos := List.length_pos_of_ne_nil hne
    rw [List.length_append] at hfuel
    rw [← List.append_assoc, redactValuesLoop_token hne htoken hjwt hend, afterPiece,
      ih _ _ _ (by omega), ih _ _ _ (by omega), redactValues_token hne htoken hjwt hend, maskToken]
    split <;> simp
  | jwt span rest hjwt hspan hend ih =>
    obtain ⟨fuel, rfl⟩ := Nat.exists_eq_add_of_le' (Nat.one_le_of_lt hfuel)
    have hpos : 0 < span.length := by
      cases span with
      | nil => cases hjwt
      | cons c span => exact Nat.succ_pos _
    rw [List.length_append] at hfuel
    rw [← List.append_assoc, redactValuesLoop_jwt hjwt hspan hend, afterPiece,
      ih _ _ _ (by omega), ih _ _ _ (by omega), redactValues_jwt hjwt hspan hend, maskJwt]
    split <;> simp

theorem reads_sign : Reads (· == 61) (fun c ↦ decide (c = '=')) := reads_eq '=' (by decide) rfl

/-- Byte after byte of a character that is no sign. -/
theorem redactAssignmentsLoop_char (hc : c ≠ '=') (before segment rest out : Text) (fuel : ℕ) :
    redactAssignmentsLoop (before ++ segment ++ c :: rest)
        (fuel + (String.utf8EncodeChar c).length) (bytes before).length
        (bytes (before ++ segment)).length out =
      redactAssignmentsLoop (before ++ (segment ++ [c]) ++ rest) fuel (bytes before).length
        (bytes (before ++ (segment ++ [c]))).length out := by
  have hcat : before ++ segment ++ c :: rest = before ++ (segment ++ [c]) ++ rest := by simp
  have hskip : ∀ k i, i + k = (String.utf8EncodeChar c).length →
      redactAssignmentsLoop (before ++ segment ++ c :: rest) (fuel + k) (bytes before).length
          ((bytes (before ++ segment)).length + i) out =
        redactAssignmentsLoop (before ++ segment ++ c :: rest) fuel (bytes before).length
          ((bytes (before ++ segment)).length + (String.utf8EncodeChar c).length) out := by
    intro k
    induction k with
    | zero =>
      rintro i rfl
      rfl
    | succ k ih =>
      intro i hi
      obtain ⟨b, hb, hget⟩ := getElem?_bytes (before ++ segment) c rest
        (show i < (String.utf8EncodeChar c).length by omega)
      have hsign : ¬ some b = some 61 := by
        rw [Option.some_inj]
        rintro rfl
        have htest : ((61 : UInt8) == 61) = decide (c = '=') := reads_sign c 61 hb
        rw [decide_eq_false hc] at htest
        cases htest
      rw [← Nat.add_assoc, redactAssignmentsLoop,
        if_pos (List.getElem?_eq_some_iff.mp hget).1, hget, if_neg hsign, Nat.add_assoc _ i 1,
        ih (i + 1) (by omega)]
  have hall := hskip _ 0 (Nat.zero_add _)
  rw [Nat.add_zero] at hall
  rw [hall, ← length_bytes_concat, hcat, List.append_assoc before segment [c]]

theorem redactAssignmentsLoop_plain (h : isSensitiveKey segment = false) (before rest out : Text)
    (fuel : ℕ) :
    redactAssignmentsLoop (before ++ segment ++ '=' :: rest) (fuel + 1) (bytes before).length
        (bytes (before ++ segment)).length out =
      redactAssignmentsLoop (before ++ (segment ++ ['=']) ++ rest) fuel (bytes before).length
        (bytes (before ++ (segment ++ ['=']))).length out := by
  have hcat : before ++ segment ++ '=' :: rest = before ++ (segment ++ ['=']) ++ rest := by simp
  have hget : (bytes (before ++ segment ++ '=' :: rest))[(bytes (before ++ segment)).length]? =
      some 61 := by
    rw [BTree.bytes_append, List.getElem?_append_right le_rfl, Nat.sub_self]
    rfl
  rw [redactAssignmentsLoop, if_pos (length_bytes_lt _ (List.cons_ne_nil _ rest)), if_pos hget,
    sliceText_append, Option.bind_some, isSensitiveKey_trim, h, if_neg Bool.false_ne_true, hcat,
    ← List.append_assoc, length_bytes_concat]
  rfl

theorem redactAssignmentsLoop_sensitive (h : isSensitiveKey segment = true)
    (hword : ∀ c ∈ word, (!endsValue c) = true) (hrest : Ends (!endsValue ·) rest)
    (before out : Text) (fuel : ℕ) :
    redactAssignmentsLoop (before ++ segment ++ '=' :: (word ++ rest)) (fuel + 1)
        (bytes before).length (bytes (before ++ segment)).length out =
      redactAssignmentsLoop (before ++ segment ++ '=' :: word ++ [] ++ rest) fuel
        (bytes (before ++ segment ++ '=' :: word)).length
        (bytes (before ++ segment ++ '=' :: word ++ [])).length
        (out ++ segment ++ '=' :: redacted) := by
  have hget : (bytes (before ++ segment ++ '=' :: (word ++ rest)))[(bytes
    (before ++ segment)).length]? =
      some 61 := by
    rw [BTree.bytes_append, List.getElem?_append_right le_rfl, Nat.sub_self]
    rfl
  have hadvance := advanceBytes_eq reads_endsValue.not hword hrest (before ++ segment ++ ['='])
  rw [length_bytes_concat] at hadvance
  have hcat : before ++ segment ++ ['='] ++ word = before ++ segment ++ '=' :: word := by simp
  have hcat' : before ++ segment ++ '=' :: (word ++ rest) =
      before ++ segment ++ '=' :: word ++ rest := by simp
  rw [hcat, show (String.utf8EncodeChar '=').length = 1 from rfl] at hadvance
  rw [redactAssignmentsLoop, if_pos (length_bytes_lt _ (List.cons_ne_nil _ _)), if_pos hget,
    sliceText_append, Option.bind_some, isSensitiveKey_trim, h, if_pos rfl, hcat']
  dsimp only
  rw [hadvance, Option.bind_some, advanceToBoundary_self, List.append_nil]

/-- By induction on what is left. -/
theorem redactAssignmentsLoop_eq (rest before segment out : Text) {fuel : ℕ}
    (hfuel : (bytes rest).length < fuel) :
    redactAssignmentsLoop (before ++ segment ++ rest) fuel (bytes before).length
      (bytes (before ++ segment)).length out =
        some (out ++ redactAssignmentsFrom false segment rest) := by
  induction hn : rest.length using Nat.strong_induction_on
    generalizing rest before segment out fuel with
  | _ n ih =>
    subst hn
    obtain ⟨fuel, rfl⟩ := Nat.exists_eq_add_of_le' (Nat.one_le_of_lt hfuel)
    cases rest with
    | nil =>
      rw [List.append_nil, redactAssignmentsLoop, if_neg (lt_irrefl _), sliceFromText_append]
      rfl
    | cons c rest =>
      have hlt : rest.length < (c :: rest).length := Nat.lt_succ_self _
      rw [BTree.bytes_cons, List.length_append] at hfuel
      have hpos := BTree.utf8Size_pos c
      by_cases hc : c = '='
      · subst hc
        cases hsensitive : isSensitiveKey segment with
        | false =>
          rw [redactAssignmentsLoop_plain hsensitive, ih _ hlt _ _ _ _ (by omega) rfl,
            redactAssignmentsFrom, Bool.false_and, if_neg Bool.false_ne_true,
            isSensitiveKey_trim, hsensitive, if_neg (by simp)]
        | true =>
          obtain ⟨value, after, rfl, hvalue, hend⟩ : ∃ value after, rest = value ++ after ∧
              (∀ c ∈ value, (!endsValue c) = true) ∧ Ends (!endsValue ·) after :=
            ⟨_, _, List.takeWhile_append_dropWhile.symm, fun _ ↦ List.mem_takeWhile_imp,
              ends_dropWhile (!endsValue ·) rest⟩
          rw [BTree.bytes_append, List.length_append] at hfuel
          rw [List.length_append] at hlt
          rw [redactAssignmentsLoop_sensitive hsensitive hvalue hend,
            ih after.length (by omega) _ _ _ _ (by omega) rfl,
            redactAssignmentsFrom_sensitive hsensitive,
            redactAssignmentsFrom_value (fun c hc ↦ by simpa using hvalue c hc) hend,
            redactAssignments]
          simp
      · obtain ⟨fuel', hfuel'⟩ := Nat.exists_eq_add_of_le'
          (show (String.utf8EncodeChar c).length ≤ fuel + 1 by omega)
        rw [hfuel', redactAssignmentsLoop_char hc, ih _ hlt _ _ _ _ (by omega) rfl,
          redactAssignmentsFrom, Bool.false_and, if_neg Bool.false_ne_true,
          if_neg (by simp [hc])]

theorem length_le_bytes (text : Text) : text.length ≤ (bytes text).length := by
  induction text with
  | nil => exact le_rfl
  | cons c text ih =>
    have hpos := BTree.utf8Size_pos c
    rw [List.length_cons, BTree.bytes_cons, List.length_append]
    omega

/-- No slice panics, and the loops compute what the scans on characters do. -/
theorem redactBytes_eq (text : Text) : redactBytes text = some (redactChars text) := by
  have hassigned : redactAssignmentsLoop text ((bytes text).length + 1) 0 0 [] =
      some (redactAssignments text) := redactAssignmentsLoop_eq text [] [] [] (Nat.lt_succ_self _)
  have hvalues : ∀ assigned, redactValuesLoop assigned ((bytes assigned).length + 1) 0 0 [] =
      some (redactValues assigned) := by
    intro assigned
    exact redactValuesLoop_eq assigned [] [] [] (Nat.lt_succ_of_le (length_le_bytes assigned))
  rw [redactBytes, hassigned, Option.bind_some, hvalues]
  rfl

/-! ## The promise of a redaction -/

/-- No token of the output looks like a secret, redacting twice is redacting once, nothing is
replaced but tokens and values, and no slice panics. -/
structure SafelyRedacted (text : String) : Prop where
  noSecret : NoSecret (redact text).toList
  stable : redact (redact text) = redact text
  inOrder : Redacts [] text.toList (redact text).toList
  onBoundaries : redactBytes text.toList = some (redact text).toList

/-- The promise is kept exactly when the parts outside the values of sensitive assignments have
clean runs. -/
theorem safelyRedacted_iff (text : String) : SafelyRedacted text ↔
    ∃ parts, Unmasked text.toList parts ∧ ∀ part ∈ parts, CleanRuns part := by
  constructor
  · intro h
    obtain ⟨parts, hparts⟩ := exists_unmasked text.toList
    have hnone := h.noSecret
    rw [toList_redact] at hnone
    exact ⟨parts, hparts, (noSecret_redactChars hparts).mp hnone⟩
  · rintro ⟨parts, hparts, hclean⟩
    exact
      { noSecret := by
          rw [toList_redact]
          exact (noSecret_redactChars hparts).mpr hclean
        stable := by
          rw [← String.toList_inj, toList_redact, toList_redact, redactChars_idem]
        inOrder := by
          rw [toList_redact]
          exact redacts_redactChars hparts []
        onBoundaries := by rw [redactBytes_eq, toList_redact] }

/-- A token that begins like a JWT and has no dot. -/
def undotted : String := "eyJabcdefghijklmnopqrstuvwxyz0123456789"

/-- It is long and has many characters, and it stays. -/
theorem undotted_stays : ¬ ∀ text, SafelyRedacted text := by
  intro h
  have hsecret := (h undotted).noSecret undotted.toList (by decide +kernel)
  revert hsecret
  decide +kernel

end EeEditor.Orchestrator
