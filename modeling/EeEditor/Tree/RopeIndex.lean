import EeEditor.Tree.Chunks

/-!
# Lines, characters and code units of a rope

The model of the conversions in `xi-rope/src/rope/core.rs` and `rope/chars.rs`. The callers of
`convert_metrics` keep to what the rope has of a metric, except `chunk_at_line`, which lets the line
after the last newline through.
-/

namespace EeEditor.BTree

variable {h : ℕ}

section

variable (root : Node Text h)

def maxLineIndex : ℕ := root.measure linesMetric + 1

def validateLine (line : ℕ) : Except RopeError Unit :=
  if maxLineIndex root < line then .error (.lineOutOfBounds line (maxLineIndex root)) else .ok ()

/-- `count`. -/
def count (M : Metric Text) (offset fuel : ℕ) : Outcome ℕ :=
  convertMetrics baseMetric M root offset fuel

/-- `count_base_units`. -/
def countBaseUnits (M : Metric Text) (offset fuel : ℕ) : Outcome ℕ :=
  convertMetrics M baseMetric root offset fuel

def tryLineOfOffset (offset fuel : ℕ) : Outcome (Except RopeError ℕ) :=
  match validateOffset root offset with
  | .error e => .done (.error e)
  | .ok () => (count root linesMetric offset fuel).bind fun line ↦ .done (.ok line)

def tryOffsetOfLine (line fuel : ℕ) : Outcome (Except RopeError ℕ) :=
  match validateLine root line with
  | .error e => .done (.error e)
  | .ok () =>
    if line = maxLineIndex root then .done (.ok root.len)
    else (countBaseUnits root linesMetric line fuel).bind fun offset ↦ .done (.ok offset)

def chunkAtLine (line fuel : ℕ) : Outcome (Option Chunk) :=
  if root.measure linesMetric + 1 < line then .done none
  else (countBaseUnits root linesMetric line fuel).bind fun offset ↦
    .done (chunkAtOffset root offset)

def isCodepointBoundary (offset : ℕ) : Bool := (Cursor.new root offset).isBoundary baseMetric

def atOrPrevCodepointBoundary (offset : ℕ) : Option ℕ :=
  if isCodepointBoundary root offset then some offset
  else ((Cursor.new root offset).prev baseMetric).2

def lenChars : ℕ := root.measure charsMetric

def lenUtf16Cu : ℕ := root.measure utf16CodeUnitsMetric

def tryCharToByte (charIdx fuel : ℕ) : Outcome (Except RopeError ℕ) :=
  if lenChars root < charIdx then .done (.error (.charOffsetOutOfBounds charIdx (lenChars root)))
  else (countBaseUnits root charsMetric charIdx fuel).bind fun byteIdx ↦ .done (.ok byteIdx)

def tryByteToChar (byteIdx fuel : ℕ) : Outcome (Except RopeError ℕ) :=
  match validateOffset root byteIdx with
  | .error e => .done (.error e)
  | .ok () =>
    (count root charsMetric ((atOrPrevCodepointBoundary root byteIdx).getD 0) fuel).bind
      fun charIdx ↦ .done (.ok charIdx)

end

variable {root : Node Text h} {offset k q line : ℕ}

/-! ## From byte offsets -/

theorem isCodepointBoundary_iff (hroot : h = 0 ∨ root.Inner h) (hoffset : offset ≤ root.len) :
    isCodepointBoundary root offset = true ↔
      isCharBoundary (bytes (concat (root.leaves h))) offset = true := by
  obtain ⟨pre, l, post, hstands, hposition⟩ :=
    Cursor.NoneAbove.descend (c := ⟨offset, fun _ ↦ none, none, 0⟩) hroot (fun _ _ _ ↦ rfl) hoffset
  have hiff := hstands.isBoundary (M := baseMetric) hroot (charMetric_lawful _ _ _)
  rw [hposition] at hiff
  rw [hstands.at_leaf.leaves]
  exact hiff

theorem tryLineOfOffset_settles (hroot : h = 0 ∨ root.Inner h) (hoffset : offset ≤ root.len)
    (hb : isCharBoundary (bytes (concat (root.leaves h))) offset = true) :
    Settles (tryLineOfOffset root offset)
      (.done (.ok (countNewlines ((bytes (concat (root.leaves h))).take offset)))) := by
  have hvalid : validateOffset root offset = .ok () := if_neg (Nat.not_lt.mpr hoffset)
  have heq : tryLineOfOffset root offset
      = fun fuel ↦ (count root linesMetric offset fuel).bind fun line ↦ .done (.ok line) := by
    funext fuel
    rw [tryLineOfOffset, hvalid]
  rw [heq]
  exact (counts_lines.settles hroot hoffset hb).map Except.ok

theorem tryByteToChar_settles (hroot : h = 0 ∨ root.Inner h) (hoffset : offset ≤ root.len)
    (hb : isCharBoundary (bytes (concat (root.leaves h))) offset = true) :
    Settles (tryByteToChar root offset)
      (.done (.ok (countChars ((bytes (concat (root.leaves h))).take offset)))) := by
  have hvalid : validateOffset root offset = .ok () := if_neg (Nat.not_lt.mpr hoffset)
  have hat : atOrPrevCodepointBoundary root offset = some offset :=
    if_pos ((isCodepointBoundary_iff hroot hoffset).mpr hb)
  have heq : tryByteToChar root offset
      = fun fuel ↦ (count root charsMetric offset fuel).bind fun charIdx ↦ .done (.ok charIdx) := by
    funext fuel
    rw [tryByteToChar, hvalid]
    dsimp only
    rw [hat, Option.getD_some]
  rw [heq]
  exact (counts_chars.settles hroot hoffset hb).map Except.ok

/-! ## From characters -/

theorem tryCharToByte_settles (hroot : h = 0 ∨ root.Inner h) (hk : k ≤ lenChars root) :
    Settles (tryCharToByte root k)
      (.done (.ok (unitsToBase (fun _ ↦ 1) (concat (root.leaves h)) k))) := by
  have heq : tryCharToByte root k
      = fun fuel ↦ (countBaseUnits root charsMetric k fuel).bind fun byteIdx ↦
        .done (.ok byteIdx) := by
    funext fuel
    exact if_neg (Nat.not_lt.mpr hk)
  rw [heq]
  exact (weighs_chars.settles hroot hk).map Except.ok

/-! ## Lines -/

/-- Where a line begins: just after as many newlines, or at the end for the line after the last. -/
def LineStart (bs : List UInt8) (line q : ℕ) : Prop :=
  select isNewline bs line = some q ∨ (line = countNewlines bs + 1 ∧ q = bs.length)

theorem exists_lineStart {bs : List UInt8} (hline : line ≤ countNewlines bs + 1) :
    ∃ q, LineStart bs line q := by
  rcases Nat.lt_or_ge (countNewlines bs) line with hlt | hge
  · exact ⟨bs.length, .inr ⟨by omega, rfl⟩⟩
  · obtain ⟨q, hq⟩ := exists_select (show line ≤ bs.countP isNewline from hge)
    exact ⟨q, .inl hq⟩

theorem LineStart.select {bs : List UInt8} (hq : LineStart bs line q)
    (hline : line ≤ countNewlines bs) :
    select isNewline bs line = some q := by
  rcases hq with hq | ⟨hq, -⟩
  · exact hq
  · omega

theorem tryOffsetOfLine_settles (hq : LineStart (bytes (concat (root.leaves h))) line q) :
    Settles (tryOffsetOfLine root line) (.done (.ok q)) := by
  have hmeasure := counts_lines.measure_root root
  have hline : line ≤ maxLineIndex root := by
    rw [maxLineIndex, hmeasure]
    rcases hq with hq | ⟨rfl, -⟩
    · exact Nat.le_succ_of_le (le_countP_of_select hq)
    · exact Nat.le_refl _
  have hvalid : validateLine root line = .ok () := if_neg (Nat.not_lt.mpr hline)
  rcases Nat.lt_or_ge (root.measure linesMetric) line with hlt | hge
  · have hmax : line = maxLineIndex root := Nat.le_antisymm hline hlt
    have hlen : q = root.len := by
      rcases hq with hq | ⟨-, rfl⟩
      · have := le_countP_of_select hq
        rw [hmeasure, countNewlines] at hlt
        omega
      · exact length_eq_measure root
    have heq : tryOffsetOfLine root line = fun _ ↦ .done (.ok q) := by
      funext fuel
      rw [tryOffsetOfLine, hvalid]
      dsimp only
      rw [if_pos hmax, hlen]
    rw [heq]
    exact .const _
  · have hmax : line ≠ maxLineIndex root := Nat.ne_of_lt (Nat.lt_succ_of_le hge)
    have heq : tryOffsetOfLine root line = fun fuel ↦
        (countBaseUnits root linesMetric line fuel).bind fun offset ↦ .done (.ok offset) := by
      funext fuel
      rw [tryOffsetOfLine, hvalid]
      dsimp only
      rw [if_neg hmax]
    rw [heq]
    refine (lines_settles hge (hq.select ?_)).map Except.ok
    rwa [← hmeasure]

theorem countNewlines_replicate (n : ℕ) : countNewlines (bytes (List.replicate n 'a')) = 0 := by
  induction n with
  | zero => rfl
  | succ n ih =>
    rw [List.replicate_succ, bytes_cons, countNewlines, List.countP_append, ← countNewlines,
      ← countNewlines, ih]
    decide

/-- Past the last newline the conversion panics in a single leaf. -/
theorem countBaseUnits_leaf (root : Node Text 0) :
    Settles (countBaseUnits root linesMetric (root.measure linesMetric + 1)) .panicked := by
  refine ⟨1, fun k ↦ ?_⟩
  have hselect : select isNewline (bytes root) (root.measure linesMetric + 1) = none :=
    select_eq_none_iff.mpr (Nat.lt_succ_self _)
  have hbase : linesMetric.toBaseUnits root (root.measure linesMetric + 1) = none := by
    change linesToBase _ _ 0 = none
    rw [linesToBase_eq, List.drop_zero, hselect, Option.map_none]
  rw [countBaseUnits, convertMetrics, if_neg (Nat.succ_ne_zero _), Nat.add_comm, convertFrom]
  change (Outcome.ofOption (linesMetric.toBaseUnits root _)).bind _ = _
  rw [hbase]
  rfl

/-- In a higher tree without newlines it goes on forever. -/
theorem countBaseUnits_forever {root : Node Text (h + 1)} (hzero : root.measure linesMetric = 0) :
    Settles (countBaseUnits root linesMetric 1) .running := by
  refine ⟨0, fun k ↦ ?_⟩
  rw [countBaseUnits, convertMetrics, if_neg Nat.one_ne_zero]
  exact convertFrom_forever baseMetric rfl hzero Nat.one_pos 0 _

/-- Past the last newline the conversion panics, goes on forever or ends past the text. -/
theorem countBaseUnits_past (root : Node Text h) :
    Settles (countBaseUnits root linesMetric (root.measure linesMetric + 1)) .panicked ∨
      Settles (countBaseUnits root linesMetric (root.measure linesMetric + 1)) .running ∨
      ∃ q > root.len, Settles (countBaseUnits root linesMetric (root.measure linesMetric + 1))
        (.done q) := by
  have hfudge : fudge linesMetric = 1 := rfl
  cases h with
  | zero => exact .inl (countBaseUnits_leaf root)
  | succ h =>
    right
    rcases Nat.eq_zero_or_pos (root.measure linesMetric) with hzero | hpos
    · left
      rw [hzero]
      exact countBaseUnits_forever hzero
    · right
      obtain ⟨pre, l, post, -, hle, hlt, hconvert⟩ := convertFrom_eq baseMetric (h + 1) root 1
        (0 + root.measure baseMetric) (Nat.le_refl _)
          (show 1 < root.measure linesMetric + 1 by omega)
      rw [hfudge] at hle hlt
      have hn : 1 ≤ (bytes l).countP isNewline := by
        change _ < _ + (bytes l).countP isNewline + 1 at hlt
        omega
      obtain ⟨i, hi⟩ := exists_select hn
      have hone : 1 - measureOf linesMetric pre = 1 := by omega
      rw [hone] at hconvert
      have hi0 : 0 < i := by
        rw [Nat.pos_iff_ne_zero]
        rintro rfl
        have := rank_select hi
        rw [rank, List.take_zero, List.countP_nil] at this
        cases this
      refine ⟨root.len + measureOf baseMetric pre + i, by omega, h + 1 + 1 + 1, fun k ↦ ?_⟩
      have hagain := convertFrom_again baseMetric 0 (h + 1 + 1 + k)
        (show root.measure linesMetric + fudge linesMetric ≤ root.measure linesMetric + 1 from
          Nat.le_refl _)
      rw [countBaseUnits, convertMetrics, if_neg (Nat.succ_ne_zero _), Nat.add_right_comm, hagain,
        Nat.add_sub_cancel_left, hconvert, lines_leaf hi, Nat.zero_add]
      rfl

/-- `chunk_at_line` finds the chunk of a line up to the last newline only. -/
theorem chunkAtLine_iff (hroot : h = 0 ∨ root.Inner h)
    (hq : LineStart (bytes (concat (root.leaves h))) line q) :
    Settles (chunkAtLine root line) (.done (chunkAtOffset root q)) ↔
      line ≤ countNewlines (bytes (concat (root.leaves h))) := by
  have hmeasure := counts_lines.measure_root root
  have hline : line ≤ root.measure linesMetric + 1 := by
    rw [hmeasure]
    rcases hq with hq | ⟨rfl, -⟩
    · exact Nat.le_succ_of_le (le_countP_of_select hq)
    · exact Nat.le_refl _
  have heq : chunkAtLine root line = fun fuel ↦
      (countBaseUnits root linesMetric line fuel).bind fun offset ↦
        .done (chunkAtOffset root offset) := by
    funext fuel
    exact if_neg (Nat.not_lt.mpr hline)
  rw [heq, ← hmeasure]
  rcases Nat.lt_or_ge (root.measure linesMetric) line with hlt | hge
  · refine iff_of_false (fun hsettles ↦ ?_) (Nat.not_le.mpr hlt)
    obtain rfl : line = root.measure linesMetric + 1 := Nat.le_antisymm hline hlt
    have hend : q ≤ root.len := by
      rcases hq with hq | ⟨-, rfl⟩
      · exact (select_le_length hq).trans (length_eq_measure root).le
      · exact (length_eq_measure root).le
    rcases countBaseUnits_past root with hpanics | hruns | ⟨q', hq', hpast⟩
    · cases hsettles.unique (hpanics.bind_panicked _)
    · cases hsettles.unique (hruns.bind_running _)
    · have hnone := hsettles.unique (hpast.map (chunkAtOffset root))
      obtain ⟨f, l, -, -, -, hsome⟩ := chunkAtOffset_eq hroot hend
      rw [Outcome.done.injEq, hsome, chunkAtOffset, if_pos hq'] at hnone
      cases hnone
  · refine iff_of_true ((lines_settles hge (hq.select ?_)).map (chunkAtOffset root)) hge
    rwa [← hmeasure]

/-- The conversions that the public functions of a rope make are total and exact, but for
`chunk_at_line` on the line after the last newline. -/
theorem conversions_exact (t : Tree Text) :
    (∀ line ≤ countNewlines (bytes t.flat) + 1, ∃ q, LineStart (bytes t.flat) line q ∧
      Settles (tryOffsetOfLine t.root line) (.done (.ok q)) ∧
      (Settles (chunkAtLine t.root line) (.done (chunkAtOffset t.root q)) ↔
        line ≤ countNewlines (bytes t.flat))) ∧
    (∀ offset ≤ t.len, isCharBoundary (bytes t.flat) offset = true →
      Settles (tryLineOfOffset t.root offset)
        (.done (.ok (countNewlines ((bytes t.flat).take offset)))) ∧
      Settles (tryByteToChar t.root offset)
        (.done (.ok (countChars ((bytes t.flat).take offset)))) ∧
      Settles (count t.root utf16CodeUnitsMetric offset)
        (.done (countUtf16CodeUnits ((bytes t.flat).take offset)))) ∧
    (∀ k ≤ lenChars t.root, ∃ q, IsLeast {q | isCharBoundary (bytes t.flat) q = true ∧
        k ≤ countChars ((bytes t.flat).take q)} q ∧
      Settles (tryCharToByte t.root k) (.done (.ok q))) ∧
    (∀ k ≤ lenUtf16Cu t.root, ∃ q, IsLeast {q | isCharBoundary (bytes t.flat) q = true ∧
        k ≤ countUtf16CodeUnits ((bytes t.flat).take q)} q ∧
      Settles (countBaseUnits t.root utf16CodeUnitsMetric k) (.done q)) := by
  refine ⟨fun line hline ↦ ?_, fun offset hoffset hb ↦ ⟨?_, ?_, ?_⟩, fun k hk ↦ ?_, fun k hk ↦ ?_⟩
  · obtain ⟨q, hq⟩ := exists_lineStart hline
    exact ⟨q, hq, tryOffsetOfLine_settles hq, chunkAtLine_iff t.integrity hq⟩
  · exact tryLineOfOffset_settles t.integrity hoffset hb
  · exact tryByteToChar_settles t.integrity hoffset hb
  · exact counts_utf16.settles t.integrity hoffset hb
  · refine ⟨_, weighs_chars.isLeast ?_, tryCharToByte_settles t.integrity hk⟩
    exact hk.trans (counts_chars.measure_root t.root).le
  · refine ⟨_, weighs_utf16.isLeast ?_, weighs_utf16.settles t.integrity hk⟩
    exact hk.trans (counts_utf16.measure_root t.root).le

/-- The end of the only line of a rope of four leaves, and the characters before it. -/
theorem conversions_exact_fourLeaves :
    (∃ q, LineStart (bytes fourLeaves.flat) 1 q ∧
      Settles (tryOffsetOfLine fourLeaves.root 1) (.done (.ok q)) ∧
      (Settles (chunkAtLine fourLeaves.root 1) (.done (chunkAtOffset fourLeaves.root q)) ↔
        1 ≤ countNewlines (bytes fourLeaves.flat))) ∧
      Settles (tryByteToChar fourLeaves.root 4000)
        (.done (.ok (countChars ((bytes fourLeaves.flat).take 4000)))) := by
  have hlen : 4000 = (bytes fourLeaves.flat).length :=
    len_fourLeaves.symm.trans ((Node.len_eq _).trans (len_concat _).symm)
  have hboundary : isCharBoundary (bytes fourLeaves.flat) 4000 = true := by
    rw [hlen]
    exact isCharBoundary_length
  exact ⟨(conversions_exact fourLeaves).1 1 (Nat.le_add_left _ _),
    ((conversions_exact fourLeaves).2.1 4000 len_fourLeaves.ge hboundary).2.1⟩

/-- A higher tree without newlines. -/
theorem chunkAtLine_tower (n : ℕ) :
    Settles (chunkAtLine (Node.tower (List.replicate n 'a') 1) 1) .running := by
  have hzero : (Node.tower (List.replicate n 'a') 1).measure linesMetric = 0 := by
    rw [Node.measure_eq, Node.leaves_tower, measureOf, List.map_replicate, List.sum_replicate_nat,
      counts_lines.measure, countNewlines_replicate, Nat.mul_zero]
  have hruns := (countBaseUnits_forever hzero).bind_running fun offset ↦
    .done (chunkAtOffset (Node.tower (List.replicate n 'a') 1) offset)
  have heq : chunkAtLine (Node.tower (List.replicate n 'a') 1) 1 = fun fuel ↦
      (countBaseUnits (Node.tower (List.replicate n 'a') 1) linesMetric 1 fuel).bind fun offset ↦
        .done (chunkAtOffset (Node.tower (List.replicate n 'a') 1) offset) := by
    funext fuel
    exact if_neg (by omega)
  rwa [heq]

/-- On the line after the last newline `chunk_at_line` panics in a rope of one leaf, and in a higher
one without newlines it goes on forever. -/
theorem chunkAtLine_past : (∃ t : Tree Text, t.flat = "abc".toList ∧
      Settles (chunkAtLine t.root (countNewlines (bytes t.flat) + 1)) .panicked) ∧
    ∃ t : Tree Text, 0 < t.height ∧ Settles (chunkAtLine t.root 1) .running := by
  constructor
  · have hpanics := (countBaseUnits_leaf "abc".toList).bind_panicked fun offset ↦
      .done (chunkAtOffset (h := 0) "abc".toList offset)
    exact ⟨⟨0, "abc".toList, .inl rfl⟩, rfl, hpanics⟩
  · have hpos : 0 < Leaf.len (List.replicate 600 'a') := by
      rw [show Leaf.len (List.replicate 600 'a') = 600 from length_bytes_replicate 600 'a']
      decide
    exact ⟨Tree.tower (List.replicate 600 'a') hpos 1, Nat.one_pos, chunkAtLine_tower 600⟩

end EeEditor.BTree
