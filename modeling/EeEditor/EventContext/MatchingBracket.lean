import EeEditor.EventContext.LineText
import EeEditor.Sequence.Brackets

/-!
# Matching brackets

`matching_bracket_offset` of `event_context/helpers.rs`, over the characters of a text. The two
scans go through the contents of lines and count the open brackets in an `i32`.
-/

namespace EeEditor.EventContext

/-! ## The code -/

/-- The brackets of a kind, and whether the scan goes forward. -/
def bracketKind (ch : Char) : Option (Char × Char × Bool) :=
  match ch with
  | '(' => some ('(', ')', true)
  | ')' => some ('(', ')', false)
  | '[' => some ('[', ']', true)
  | ']' => some ('[', ']', false)
  | '{' => some ('{', '}', true)
  | '}' => some ('{', '}', false)
  | _ => none

/-- A turn of the inner loop, with the depth as the bits of the `i32`. `error` is the `return`. -/
def scanChar (up down : Char) (depth : BitVec 32) (indexed : Char × ℕ) : Except ℕ (BitVec 32) :=
  if indexed.1 = up then .ok (depth + 1)
  else if indexed.1 = down then
    let depth := depth - 1
    if depth = 0 then .error indexed.2 else .ok depth
  else .ok depth

def scanForward (text : List Char) (line cursor : ℕ) (open_ close : Char) (depth : BitVec 32)
    (lineIdx : ℕ) : Except ℕ (BitVec 32) :=
  let current := lineText text lineIdx
  let base := startOfLine '\n' text lineIdx
  let start := if lineIdx = line then cursor else 0
  ((current.drop start).zipIdx (base + start)).foldlM (scanChar open_ close) depth

def scanBackward (text : List Char) (line cursor : ℕ) (open_ close : Char) (depth : BitVec 32)
    (lineIdx : ℕ) : Except ℕ (BitVec 32) :=
  let current := lineText text lineIdx
  let scanEnd := if lineIdx = line then min (cursor + 1) current.length else current.length
  ((current.take scanEnd).zipIdx (startOfLine '\n' text lineIdx)).reverse.foldlM
    (scanChar close open_) depth

def found : Except ℕ (BitVec 32) → Option ℕ
  | .error offset => some offset
  | .ok _ => none

def matchingBracketOffset (text : List Char) (offset : ℕ) : Option ℕ := do
  let line := lineOfOffset text offset
  let lineStart := startOfLine '\n' text line
  let currentLine := lineText text line
  let cursor := min (offset - lineStart) currentLine.length
  let ch ← currentLine[cursor]?
  let (open_, close, forward) ← bracketKind ch
  if forward then
    found ((List.range' line (totalLines text - line)).foldlM
      (scanForward text line cursor open_ close) 0)
  else
    found ((List.range (line + 1)).reverse.foldlM (scanBackward text line cursor open_ close) 0)

/-! ## What matching is for -/

/-- The kinds of brackets. -/
def kinds : List (Char × Char) := [('(', ')'), ('[', ']'), ('{', '}')]

/-- There is a bracket at an offset. -/
def IsBracket (text : List Char) (offset : ℕ) : Prop :=
  ∃ kind ∈ kinds, text[offset]? = some kind.1 ∨ text[offset]? = some kind.2

/-- The bracket at the second offset closes the one at the first. -/
def IsPair (kind : Char × Char) (text : List Char) (i j : ℕ) : Prop :=
  ∃ pre inner post, text = pre ++ kind.1 :: (inner ++ kind.2 :: post) ∧
    Balanced kind.1 kind.2 inner ∧ i = pre.length ∧ j = pre.length + 1 + inner.length

/-- The character is not of the end of a line. -/
def isContent (c : Char) : Bool := c ≠ '\n' && c ≠ '\r'

/-- The text without the ends of its lines. -/
def onOneLine (text : List Char) : List Char := text.filter isContent

/-- Where an offset is when the text is on one line. -/
def column (text : List Char) (offset : ℕ) : ℕ := (onOneLine (text.take offset)).length

/-- The bracket that is found is the one that closes or opens the pair, from there the first is
found again, and it is no matter where the lines end. -/
structure MatchesBracket (text : List Char) (offset : ℕ) : Prop where
  opening : ∀ kind ∈ kinds, text[offset]? = some kind.1 → ∀ m,
    matchingBracketOffset text offset = some m ↔ IsPair kind text offset m
  closing : ∀ kind ∈ kinds, text[offset]? = some kind.2 → ∀ m,
    matchingBracketOffset text offset = some m ↔ IsPair kind text m offset
  involution : ∀ m, matchingBracketOffset text offset = some m →
    matchingBracketOffset text m = some offset
  lines : matchingBracketOffset (onOneLine text) (column text offset) =
    (matchingBracketOffset text offset).map (column text)

/-- On the way from the bracket, while it is not matched, no bracket brings the number of those
that are open down to a multiple of `2 ^ 32`. -/
def StaysBounded (text : List Char) (offset : ℕ) : Prop :=
  ∀ kind ∈ kinds,
    (text[offset]? = some kind.1 →
      NeverWraps kind.1 kind.2 (2 ^ 32) 0 (text.drop (offset + 1))) ∧
    (text[offset]? = some kind.2 →
      NeverWraps kind.2 kind.1 (2 ^ 32) 0 (text.take offset).reverse)

/-! ## Scanning -/

section

variable {up down : Char} {n : ℕ}

theorem scanChar_other {c : Char} (hup : c ≠ up) (hdown : c ≠ down) (depth : BitVec 32) (i : ℕ) :
    scanChar up down depth (c, i) = .ok depth := by
  rw [scanChar, if_neg hup, if_neg hdown]

theorem ofNat_eq_zero_iff : BitVec.ofNat 32 n = 0 ↔ 2 ^ 32 ∣ n := by
  rw [← BitVec.toNat_inj, BitVec.toNat_ofNat, Nat.dvd_iff_mod_eq_zero]
  rfl

/-- The scan of characters with their offsets, as one with an index. -/
theorem found_foldlM (hne : up ≠ down) (indexed : List (Char × ℕ)) :
    found (indexed.foldlM (scanChar up down) (BitVec.ofNat 32 (n + 1))) =
      (closing up down (2 ^ 32) n (indexed.map Prod.fst)).bind fun k ↦
        (indexed.map Prod.snd)[k]? := by
  induction indexed generalizing n with
  | nil => rfl
  | cons first indexed ih =>
    obtain ⟨c, i⟩ := first
    have hlater (k : Option ℕ) : ((k.map (· + 1)).bind fun k ↦
        (((c, i) :: indexed).map Prod.snd)[k]?) = k.bind fun k ↦ (indexed.map Prod.snd)[k]? := by
      cases k <;> rfl
    rw [List.foldlM_cons, List.map_cons]
    by_cases hup : c = up
    · subst hup
      have hdepth : BitVec.ofNat 32 (n + 1) + 1 = BitVec.ofNat 32 (n + 1 + 1) :=
        (BitVec.ofNat_add (n + 1) 1).symm
      rw [closing_up, hlater, ← ih, scanChar, if_pos rfl, hdepth]
      rfl
    · by_cases hdown : c = down
      · subst hdown
        have hdepth : BitVec.ofNat 32 (n + 1) - 1 = BitVec.ofNat 32 n := by
          rw [BitVec.ofNat_add]
          exact BitVec.add_sub_cancel _ _
        rw [closing_down hne, scanChar, if_neg hup, if_pos rfl]
        dsimp only
        rw [hdepth, if_congr ofNat_eq_zero_iff rfl rfl]
        split_ifs with hw
        · rfl
        · cases n with
          | zero => exact absurd (Nat.dvd_zero _) hw
          | succ n =>
            rw [hlater, Nat.add_sub_cancel, ← ih]
            rfl
      · rw [closing_other hup hdown, hlater, ← ih, scanChar_other hup hdown]
        rfl

/-- Only the brackets of the kind are looked at. -/
theorem foldlM_scanChar_filter {p : Char → Bool} (hup : p up = true) (hdown : p down = true)
    (indexed : List (Char × ℕ)) (depth : BitVec 32) :
    (indexed.filter (p ·.1)).foldlM (scanChar up down) depth =
      indexed.foldlM (scanChar up down) depth := by
  have hstep : (fun depth (first : Char × ℕ) ↦
      if p first.1 = true then scanChar up down depth first else pure depth) =
        scanChar up down := by
    funext depth ⟨c, i⟩
    split_ifs with hp
    · rfl
    · refine (scanChar_other (fun h ↦ hp ?_) (fun h ↦ hp ?_) depth i).symm
      · rw [h, hup]
      · rw [h, hdown]
  rw [List.foldlM_filter, hstep]

end

/-! ## Through the lines -/

section

variable {text : List Char} {n : ℕ}

theorem startOfLine_totalLines (text : List Char) :
    startOfLine '\n' text (totalLines text) = text.length :=
  startOfLine_of_le (Nat.lt_succ_self _)

theorem carriageReturn_not_isContent (terminated : Bool) (line : List Char) :
    ∀ c ∈ carriageReturn terminated line, isContent c = false := by
  intro c hc
  rw [carriageReturn] at hc
  split_ifs at hc
  · rw [List.mem_singleton.mp hc]
    rfl
  · exact absurd hc List.not_mem_nil

/-- Behind the content of a line there is its end, and then the next line. -/
theorem exists_ends {line : List Char} (hline : (text.splitOn '\n')[n]? = some line) :
    ∃ ends, (∀ c ∈ ends, isContent c = false) ∧
      text.drop (startOfLine '\n' text n) =
        lineText text n ++ (ends ++ text.drop (startOfLine '\n' text (n + 1))) ∧
      startOfLine '\n' text (n + 1) =
        startOfLine '\n' text n + (lineText text n).length + ends.length ∧
      (line.length < (lineText text n).length + ends.length ∨
        startOfLine '\n' text (n + 1) = text.length) := by
  have hcr := carriageReturn_not_isContent (n + 1 < totalLines text) line
  have hsplit := content_append (n + 1 < totalLines text) line
  have hlength := congrArg List.length hsplit
  rw [List.length_append] at hlength
  rw [lineText_eq hline]
  obtain ⟨-, ⟨rest, hdrop⟩, hnext⟩ | ⟨-, hdrop, hnext⟩ := drop_startOfLine_cases hline
  · refine ⟨carriageReturn (n + 1 < totalLines text) line ++ ['\n'], ?_, ?_, ?_, .inl ?_⟩
    · exact List.forall_mem_append.mpr ⟨hcr, List.forall_mem_singleton.mpr rfl⟩
    · have hrest : text.drop (startOfLine '\n' text (n + 1)) = rest := by
        have hlater := congrArg (List.drop (line.length + 1)) hdrop
        rw [List.drop_drop, List.drop_length_add_append] at hlater
        rw [hnext, Nat.add_assoc, hlater]
        rfl
      rw [hdrop, hrest]
      nth_rewrite 1 [← hsplit]
      simp
    · rw [hnext, List.length_append, List.length_singleton]
      omega
    · rw [List.length_append, List.length_singleton]
      omega
  · have hend := congrArg List.length hdrop
    have hle : startOfLine '\n' text n ≤ text.length := startOfLine_le text n
    rw [List.length_drop] at hend
    refine ⟨carriageReturn (n + 1 < totalLines text) line, hcr, ?_, by omega, .inr hnext⟩
    rw [hdrop, hnext, List.drop_length, List.append_nil, hsplit]

theorem filter_zipIdx_eq_nil {l : List Char} (h : ∀ c ∈ l, isContent c = false) (k : ℕ) :
    (l.zipIdx k).filter (isContent ·.1) = [] := by
  rw [List.filter_eq_nil_iff]
  intro indexed hindexed
  rw [h indexed.1 (List.fst_mem_of_mem_zipIdx hindexed)]
  exact Bool.false_ne_true

/-- The contents of the lines from one on are those of the text. -/
theorem filter_lines_drop (hn : n ≤ totalLines text) :
    ((List.range' n (totalLines text - n)).flatMap fun k ↦
      (lineText text k).zipIdx (startOfLine '\n' text k)).filter (isContent ·.1) =
        ((text.drop (startOfLine '\n' text n)).zipIdx (startOfLine '\n' text n)).filter
          (isContent ·.1) := by
  induction hlines : totalLines text - n generalizing n with
  | zero =>
    obtain rfl : n = totalLines text := by omega
    rw [startOfLine_totalLines, List.drop_length]
    rfl
  | succ lines ih =>
    have hlt : n < (text.splitOn '\n').length := by
      rw [length_splitOn_eq]
      omega
    obtain ⟨ends, hends, hdrop, hnext, -⟩ := exists_ends (List.getElem?_eq_getElem hlt)
    rw [List.range'_succ, List.flatMap_cons, List.filter_append, ih (by omega) (by omega), hdrop,
      List.zipIdx_append, List.zipIdx_append, List.filter_append, List.filter_append,
      filter_zipIdx_eq_nil hends, List.nil_append, hnext]

/-- The contents of the lines before one are those of the text. -/
theorem filter_lines_take (hn : n ≤ totalLines text) :
    ((List.range n).flatMap fun k ↦
      (lineText text k).zipIdx (startOfLine '\n' text k)).filter (isContent ·.1) =
        ((text.take (startOfLine '\n' text n)).zipIdx).filter (isContent ·.1) := by
  induction n with
  | zero =>
    rw [startOfLine, List.take_zero]
    rfl
  | succ n ih =>
    have hlt : n < (text.splitOn '\n').length := by
      rw [length_splitOn_eq]
      exact hn
    obtain ⟨ends, hends, hdrop, hnext, -⟩ := exists_ends (List.getElem?_eq_getElem hlt)
    have htake : text.take (startOfLine '\n' text (n + 1)) =
        text.take (startOfLine '\n' text n) ++ (lineText text n ++ ends) := by
      rw [hnext, Nat.add_assoc, List.take_add, hdrop, ← List.append_assoc, ← List.length_append,
        List.take_left]
    rw [List.range_succ, List.flatMap_append, List.flatMap_singleton, List.filter_append,
      ih (Nat.le_of_succ_le hn), htake, List.zipIdx_append, List.zipIdx_append, List.filter_append,
      List.filter_append, filter_zipIdx_eq_nil hends, List.append_nil, Nat.zero_add,
      List.length_take_of_le (startOfLine_le text n)]

theorem foldlM_flatMap {β γ : Type} (step : γ → β → Except ℕ γ) (f : ℕ → List β) (ns : List ℕ)
    (init : γ) : (ns.flatMap f).foldlM step init =
      ns.foldlM (fun acc n ↦ (f n).foldlM step acc) init := by
  induction ns generalizing init with
  | nil => rfl
  | cons n ns ih =>
    rw [List.flatMap_cons, List.foldlM_append, List.foldlM_cons]
    exact congrArg _ (funext ih)

end

/-! ## The two scans -/

section

variable {text : List Char} {offset : ℕ} {up down ch : Char}

/-- A character that is not of the end of a line is in the content of its line. -/
theorem exists_cursor (hch : text[offset]? = some ch) (hcontent : isContent ch = true) :
    ∃ ends cursor, (∀ c ∈ ends, isContent c = false) ∧
      lineOfOffset text offset < totalLines text ∧
      offset = startOfLine '\n' text (lineOfOffset text offset) + cursor ∧
      (lineText text (lineOfOffset text offset))[cursor]? = some ch ∧
      cursor < (lineText text (lineOfOffset text offset)).length ∧
      text.drop (startOfLine '\n' text (lineOfOffset text offset)) =
        lineText text (lineOfOffset text offset) ++
          (ends ++ text.drop (startOfLine '\n' text (lineOfOffset text offset + 1))) ∧
      startOfLine '\n' text (lineOfOffset text offset + 1) =
        startOfLine '\n' text (lineOfOffset text offset) +
          (lineText text (lineOfOffset text offset)).length + ends.length := by
  have hlt := (List.getElem?_eq_some_iff.mp hch).1
  obtain ⟨line, cursor, hline, hoffset, hcursor⟩ := exists_line hlt.le
  obtain ⟨ends, hends, hdrop, hnext, hlast⟩ := exists_ends hline
  have hget : (lineText text (lineOfOffset text offset) ++
      (ends ++ text.drop (startOfLine '\n' text (lineOfOffset text offset + 1))))[cursor]? =
        some ch := by
    rw [← hdrop, List.getElem?_drop, ← hoffset, hch]
  have hlines := (List.getElem?_eq_some_iff.mp hline).1
  rw [length_splitOn_eq] at hlines
  rcases Nat.lt_or_ge cursor (lineText text (lineOfOffset text offset)).length with hin | hout
  · rw [List.getElem?_append_left hin] at hget
    exact ⟨ends, cursor, hends, hlines, hoffset, hget, hin, hdrop, hnext⟩
  · rw [List.getElem?_append_right hout, List.getElem?_append_left (by omega)] at hget
    rw [hends ch (List.mem_of_getElem? hget)] at hcontent
    cases hcontent

/-- The scan forward is one through the text. -/
theorem scanForward_eq (hup : isContent up = true) (hdown : isContent down = true)
    (hch : text[offset]? = some ch) (hcontent : isContent ch = true) (depth : BitVec 32) :
    (List.range' (lineOfOffset text offset)
      (totalLines text - lineOfOffset text offset)).foldlM
        (scanForward text (lineOfOffset text offset)
          (offset - startOfLine '\n' text (lineOfOffset text offset)) up down) depth =
      ((text.drop offset).zipIdx offset).foldlM (scanChar up down) depth := by
  obtain ⟨ends, cursor, hends, hlines, hoffset, -, hcursor, hdrop, hnext⟩ :=
    exists_cursor hch hcontent
  generalize lineOfOffset text offset = line at *
  subst hoffset
  rw [Nat.add_sub_cancel_left]
  have hlater : ((List.range' (line + 1) (totalLines text - (line + 1))).flatMap fun k ↦
      ((lineText text k).drop (if k = line then cursor else 0)).zipIdx
        (startOfLine '\n' text k + (if k = line then cursor else 0))) =
      (List.range' (line + 1) (totalLines text - (line + 1))).flatMap fun k ↦
        (lineText text k).zipIdx (startOfLine '\n' text k) := by
    refine List.flatMap_congr fun k hk ↦ ?_
    have hk := (List.mem_range'_1.mp hk).1
    rw [if_neg (by omega), List.drop_zero, Nat.add_zero]
  have hdropped : text.drop (startOfLine '\n' text line + cursor) =
      (lineText text line).drop cursor ++
        (ends ++ text.drop (startOfLine '\n' text (line + 1))) := by
    rw [← List.drop_drop, hdrop, List.drop_append_of_le_length hcursor.le]
  have hlines' : totalLines text - line = totalLines text - (line + 1) + 1 := by omega
  have hflat := foldlM_flatMap (scanChar up down) (fun k ↦
    ((lineText text k).drop (if k = line then cursor else 0)).zipIdx
      (startOfLine '\n' text k + (if k = line then cursor else 0)))
    (List.range' line (totalLines text - line)) depth
  refine hflat.symm.trans ?_
  rw [hlines', List.range'_succ, List.flatMap_cons, hlater, if_pos rfl, hdropped,
    List.zipIdx_append, List.zipIdx_append, List.length_drop,
    ← foldlM_scanChar_filter hup hdown, ← foldlM_scanChar_filter hup hdown (_ ++ (_ ++ _)),
    List.filter_append, List.filter_append, List.filter_append, filter_lines_drop (by omega),
    filter_zipIdx_eq_nil hends, List.nil_append]
  congr 4
  omega

/-- The scan backward is one through the text. -/
theorem scanBackward_eq (hup : isContent up = true) (hdown : isContent down = true)
    (hch : text[offset]? = some ch) (hcontent : isContent ch = true) (depth : BitVec 32) :
    (List.range (lineOfOffset text offset + 1)).reverse.foldlM
        (scanBackward text (lineOfOffset text offset)
          (offset - startOfLine '\n' text (lineOfOffset text offset)) up down) depth =
      (text.take (offset + 1)).zipIdx.reverse.foldlM (scanChar down up) depth := by
  obtain ⟨ends, cursor, hends, hlines, hoffset, -, hcursor, hdrop, hnext⟩ :=
    exists_cursor hch hcontent
  generalize lineOfOffset text offset = line at *
  subst hoffset
  rw [Nat.add_sub_cancel_left]
  let scanned (k : ℕ) := ((lineText text k).take
    (if k = line then min (cursor + 1) (lineText text k).length
      else (lineText text k).length)).zipIdx (startOfLine '\n' text k)
  have hearlier : (List.range line).flatMap scanned = (List.range line).flatMap fun k ↦
      (lineText text k).zipIdx (startOfLine '\n' text k) := by
    refine List.flatMap_congr fun k hk ↦ ?_
    have hk := List.mem_range.mp hk
    dsimp only [scanned]
    rw [if_neg (by omega), List.take_length]
  have hlast : scanned line = ((lineText text line).take (cursor + 1)).zipIdx
      (startOfLine '\n' text line) := by
    dsimp only [scanned]
    rw [if_pos rfl, Nat.min_eq_left hcursor]
  have htaken : text.take (startOfLine '\n' text line + cursor + 1) =
      text.take (startOfLine '\n' text line) ++ (lineText text line).take (cursor + 1) := by
    rw [Nat.add_assoc, List.take_add, hdrop, List.take_append_of_le_length hcursor]
  have hflat := foldlM_flatMap (scanChar down up) (fun k ↦ (scanned k).reverse)
    (List.range (line + 1)).reverse depth
  refine hflat.symm.trans ?_
  have hreverse : (List.range (line + 1)).reverse.flatMap (fun k ↦ (scanned k).reverse) =
      ((List.range (line + 1)).flatMap scanned).reverse := List.reverse_flatMap.symm
  rw [hreverse, List.range_succ, List.flatMap_append, List.flatMap_singleton, hearlier, hlast,
    htaken, List.zipIdx_append, List.length_take_of_le (startOfLine_le text line), Nat.zero_add,
    ← foldlM_scanChar_filter hdown hup, ← foldlM_scanChar_filter hdown hup (List.reverse (_ ++ _)),
    List.filter_reverse, List.filter_reverse, List.filter_append, List.filter_append,
    filter_lines_take hlines.le]

end

/-! ## Matching -/

section

variable {text : List Char} {kind : Char × Char} {offset m : ℕ}

theorem kinds_spec (hkind : kind ∈ kinds) :
    bracketKind kind.1 = some (kind.1, kind.2, true) ∧
      bracketKind kind.2 = some (kind.1, kind.2, false) ∧
      isContent kind.1 = true ∧ isContent kind.2 = true ∧ kind.1 ≠ kind.2 := by
  simp only [kinds, List.mem_cons, List.not_mem_nil, or_false] at hkind
  rcases hkind with rfl | rfl | rfl <;> decide

theorem found_scanForward {up down : Char} (hne : up ≠ down) (h : text[offset]? = some up) :
    found (((text.drop offset).zipIdx offset).foldlM (scanChar up down) 0) =
      (closing up down (2 ^ 32) 0 (text.drop (offset + 1))).map (offset + 1 + ·) := by
  obtain ⟨hlt, hget⟩ := List.getElem?_eq_some_iff.mp h
  have hfirst : scanChar up down 0 (up, offset) = .ok (BitVec.ofNat 32 (0 + 1)) := by
    rw [scanChar, if_pos rfl]
    rfl
  rw [List.drop_eq_getElem_cons hlt, hget, List.zipIdx_cons, List.foldlM_cons, hfirst]
  refine (found_foldlM hne _).trans ?_
  rw [List.zipIdx_map_fst, List.zipIdx_map_snd]
  cases hclosing : closing up down (2 ^ 32) 0 (text.drop (offset + 1)) with
  | none => rfl
  | some k =>
    rw [Option.bind_some, Option.map_some, List.getElem?_range' (closing_lt hclosing), Nat.one_mul]

theorem found_scanBackward {up down : Char} (hne : up ≠ down) (h : text[offset]? = some down) :
    found ((text.take (offset + 1)).zipIdx.reverse.foldlM (scanChar down up) 0) =
      (closing down up (2 ^ 32) 0 (text.take offset).reverse).map (offset - 1 - ·) := by
  obtain ⟨hlt, hget⟩ := List.getElem?_eq_some_iff.mp h
  have hfirst : scanChar down up 0 (down, 0 + offset) = .ok (BitVec.ofNat 32 (0 + 1)) := by
    rw [scanChar, if_pos rfl]
    rfl
  rw [List.take_succ_eq_append_getElem hlt, hget, List.zipIdx_append, List.length_take_of_le hlt.le,
    List.zipIdx_singleton, List.reverse_append, List.reverse_singleton, List.singleton_append,
    List.foldlM_cons, hfirst]
  refine (found_foldlM hne.symm _).trans ?_
  rw [List.map_reverse, List.map_reverse, List.zipIdx_map_fst, List.zipIdx_map_snd]
  cases hclosing : closing down up (2 ^ 32) 0 (text.take offset).reverse with
  | none => rfl
  | some k =>
    have hk := closing_lt hclosing
    rw [List.length_reverse] at hk
    rw [Option.bind_some, Option.map_some, List.getElem?_reverse (by rwa [List.length_range']),
      List.length_range', List.getElem?_range' (by omega), List.length_take_of_le hlt.le]
    congr 1
    omega

/-- From an opening bracket the scan is one through the text behind it. -/
theorem matching_opening (hkind : kind ∈ kinds) (h : text[offset]? = some kind.1) :
    matchingBracketOffset text offset =
      (closing kind.1 kind.2 (2 ^ 32) 0 (text.drop (offset + 1))).map (offset + 1 + ·) := by
  obtain ⟨hfirst, -, hup, hdown, hne⟩ := kinds_spec hkind
  obtain ⟨-, cursor, -, -, hoffset, hget, hcursor, -⟩ := exists_cursor h hup
  have hmin : min (offset - startOfLine '\n' text (lineOfOffset text offset))
      (lineText text (lineOfOffset text offset)).length = cursor := by omega
  have hsub : offset - startOfLine '\n' text (lineOfOffset text offset) = cursor := by omega
  rw [← found_scanForward hne h, ← scanForward_eq hup hdown h hup, matchingBracketOffset]
  dsimp only
  rw [hmin, hget, Option.bind_eq_bind, Option.bind_some, hfirst, hsub]
  rfl

/-- From a closing bracket the scan is one through the text before it. -/
theorem matching_closing (hkind : kind ∈ kinds) (h : text[offset]? = some kind.2) :
    matchingBracketOffset text offset =
      (closing kind.2 kind.1 (2 ^ 32) 0 (text.take offset).reverse).map (offset - 1 - ·) := by
  obtain ⟨-, hfirst, hup, hdown, hne⟩ := kinds_spec hkind
  obtain ⟨-, cursor, -, -, hoffset, hget, hcursor, -⟩ := exists_cursor h hdown
  have hmin : min (offset - startOfLine '\n' text (lineOfOffset text offset))
      (lineText text (lineOfOffset text offset)).length = cursor := by omega
  have hsub : offset - startOfLine '\n' text (lineOfOffset text offset) = cursor := by omega
  rw [← found_scanBackward hne h, ← scanBackward_eq hup hdown h hdown, matchingBracketOffset]
  dsimp only
  rw [hmin, hget, Option.bind_eq_bind, Option.bind_some, hfirst, hsub]
  rfl

theorem isPair_opening_iff (hne : kind.1 ≠ kind.2) (h : text[offset]? = some kind.1) :
    IsPair kind text offset m ↔
      ((closing kind.1 kind.2 0 0 (text.drop (offset + 1))).map (offset + 1 + ·)) = some m := by
  obtain ⟨hlt, hget⟩ := List.getElem?_eq_some_iff.mp h
  rw [Option.map_eq_some_iff]
  constructor
  · rintro ⟨pre, inner, post, rfl, hinner, rfl, rfl⟩
    refine ⟨inner.length, (closing_zero_eq_some_iff hne).mpr ⟨inner, post, ?_, hinner, rfl⟩, rfl⟩
    rw [List.drop_length_add_append]
    rfl
  · rintro ⟨k, hclosing, rfl⟩
    obtain ⟨inner, post, hdrop, hinner, rfl⟩ := (closing_zero_eq_some_iff hne).mp hclosing
    refine ⟨text.take offset, inner, post, ?_, hinner, (List.length_take_of_le hlt.le).symm, ?_⟩
    · rw [← hdrop, ← hget, ← List.drop_eq_getElem_cons hlt, List.take_append_drop]
    · rw [List.length_take_of_le hlt.le]

theorem isPair_closing_iff (hne : kind.1 ≠ kind.2) (h : text[offset]? = some kind.2) :
    IsPair kind text m offset ↔
      ((closing kind.2 kind.1 0 0 (text.take offset).reverse).map (offset - 1 - ·)) = some m := by
  obtain ⟨hlt, hget⟩ := List.getElem?_eq_some_iff.mp h
  rw [Option.map_eq_some_iff]
  constructor
  · rintro ⟨pre, inner, post, rfl, hinner, rfl, rfl⟩
    refine ⟨inner.length, (closing_zero_eq_some_iff hne.symm).mpr
      ⟨inner.reverse, pre.reverse, ?_, hinner.reverse, List.length_reverse.symm⟩, by omega⟩
    rw [Nat.add_assoc, List.take_length_add_append, Nat.add_comm, List.take_succ_cons,
      List.take_left, List.reverse_append, List.reverse_cons, List.append_assoc]
    rfl
  · rintro ⟨k, hclosing, rfl⟩
    obtain ⟨inner, post, htake, hinner, rfl⟩ := (closing_zero_eq_some_iff hne.symm).mp hclosing
    have hbefore : text.take offset = post.reverse ++ kind.1 :: inner.reverse := by
      rw [← List.reverse_reverse (text.take offset), htake, List.reverse_append, List.reverse_cons,
        List.append_assoc]
      rfl
    have hlength := congrArg List.length hbefore
    rw [List.length_take_of_le hlt.le, List.length_append, List.length_cons, List.length_reverse,
      List.length_reverse] at hlength
    refine ⟨post.reverse, inner.reverse, text.drop (offset + 1), ?_, hinner.reverse, ?_, ?_⟩
    · have hsplit := List.take_append_drop offset text
      rw [hbefore, List.drop_eq_getElem_cons hlt, hget, List.append_assoc] at hsplit
      exact hsplit.symm
    · rw [List.length_reverse]
      omega
    · rw [List.length_reverse, List.length_reverse]
      omega

/-- The results are the pairs exactly when the depth never wraps. -/
theorem forall_opening_iff (hkind : kind ∈ kinds) (h : text[offset]? = some kind.1) :
    (∀ m, matchingBracketOffset text offset = some m ↔ IsPair kind text offset m) ↔
      NeverWraps kind.1 kind.2 (2 ^ 32) 0 (text.drop (offset + 1)) := by
  have hne := (kinds_spec hkind).2.2.2.2
  simp only [isPair_opening_iff hne h, matching_opening hkind h]
  rw [← closing_eq_iff hne, ← Option.ext_iff]
  exact (Option.map_injective fun _ _ h ↦ Nat.add_left_cancel h).eq_iff

theorem forall_closing_iff (hkind : kind ∈ kinds) (h : text[offset]? = some kind.2) :
    (∀ m, matchingBracketOffset text offset = some m ↔ IsPair kind text m offset) ↔
      NeverWraps kind.2 kind.1 (2 ^ 32) 0 (text.take offset).reverse := by
  have hne := (kinds_spec hkind).2.2.2.2
  have hlt := (List.getElem?_eq_some_iff.mp h).1
  have hbound {w k : ℕ} (hclosing : closing kind.2 kind.1 w 0 (text.take offset).reverse = some k) :
      k < offset := by
    have hk := closing_lt hclosing
    rwa [List.length_reverse, List.length_take_of_le hlt.le] at hk
  simp only [isPair_closing_iff hne h, matching_closing hkind h]
  rw [← closing_eq_iff hne.symm, ← Option.ext_iff]
  refine ⟨fun heq ↦ Option.ext fun k ↦ ?_, fun heq ↦ by rw [heq]⟩
  have hsome {w w' : ℕ} (heq : (closing kind.2 kind.1 w 0 (text.take offset).reverse).map
      (offset - 1 - ·) = (closing kind.2 kind.1 w' 0 (text.take offset).reverse).map
        (offset - 1 - ·))
      (hclosing : closing kind.2 kind.1 w 0 (text.take offset).reverse = some k) :
      closing kind.2 kind.1 w' 0 (text.take offset).reverse = some k := by
    rw [hclosing, Option.map_some] at heq
    obtain ⟨k', hclosing', hsame⟩ := Option.map_eq_some_iff.mp heq.symm
    have hk := hbound hclosing
    have hk' := hbound hclosing'
    obtain rfl : k' = k := by omega
    exact hclosing'
  exact ⟨hsome heq, hsome heq.symm⟩

/-- What is found from the first bracket of a pair is found back from the second. -/
theorem involution_opening (hkind : kind ∈ kinds) (h : text[offset]? = some kind.1)
    (hpair : IsPair kind text offset m) (hmatch : matchingBracketOffset text offset = some m) :
    matchingBracketOffset text m = some offset := by
  have hne := (kinds_spec hkind).2.2.2.2
  obtain ⟨pre, inner, post, rfl, hinner, rfl, rfl⟩ := hpair
  rw [matching_opening hkind h, List.drop_length_add_append, List.drop_succ_cons, List.drop_zero]
    at hmatch
  obtain ⟨k, hclosing, hk⟩ := Option.map_eq_some_iff.mp hmatch
  obtain rfl : k = inner.length := by omega
  have hpassed : Nested kind.1 kind.2 (¬ 2 ^ 32 ∣ ·) (0 + 1) inner := by
    rcases (hinner.shift fun _ _ ↦ trivial : Nested kind.1 kind.2 (fun _ ↦ True) (0 + 1)
      inner).closing_append hne with hpassed | ⟨k, hlt, hstops⟩
    · exact hpassed
    · rw [hstops] at hclosing
      exact absurd (Option.some.inj hclosing) hlt.ne
  have hget : (pre ++ kind.1 :: (inner ++ kind.2 :: post))[pre.length + 1 + inner.length]? =
      some kind.2 := by
    rw [Nat.add_assoc, List.getElem?_append_right (Nat.le_add_right _ _), Nat.add_sub_cancel_left,
      Nat.add_comm, List.getElem?_cons_succ, List.getElem?_append_right (Nat.le_refl _),
      Nat.sub_self]
    rfl
  have hbefore : ((pre ++ kind.1 :: (inner ++ kind.2 :: post)).take
      (pre.length + 1 + inner.length)).reverse = inner.reverse ++ kind.1 :: pre.reverse := by
    rw [Nat.add_assoc, List.take_length_add_append, Nat.add_comm 1, List.take_succ_cons,
      List.take_left, List.reverse_append, List.reverse_cons, List.append_assoc]
    rfl
  rw [matching_closing hkind hget, hbefore, closing_append hne.symm hpassed.reverse,
    closing_down hne.symm, if_pos (Nat.dvd_zero _), Option.map_some, Option.map_some,
    List.length_reverse]
  congr 1
  omega

theorem involution_closing (hkind : kind ∈ kinds) (h : text[offset]? = some kind.2)
    (hpair : IsPair kind text m offset) (hmatch : matchingBracketOffset text offset = some m) :
    matchingBracketOffset text m = some offset := by
  have hne := (kinds_spec hkind).2.2.2.2
  obtain ⟨pre, inner, post, rfl, hinner, rfl, rfl⟩ := hpair
  have hbefore : ((pre ++ kind.1 :: (inner ++ kind.2 :: post)).take
      (pre.length + 1 + inner.length)).reverse = inner.reverse ++ kind.1 :: pre.reverse := by
    rw [Nat.add_assoc, List.take_length_add_append, Nat.add_comm 1, List.take_succ_cons,
      List.take_left, List.reverse_append, List.reverse_cons, List.append_assoc]
    rfl
  rw [matching_closing hkind h, hbefore] at hmatch
  obtain ⟨k, hclosing, hk⟩ := Option.map_eq_some_iff.mp hmatch
  have hlt := closing_lt hclosing
  rw [List.length_append, List.length_reverse, List.length_cons, List.length_reverse] at hlt
  obtain rfl : k = inner.length := by omega
  have hpassed : Nested kind.2 kind.1 (¬ 2 ^ 32 ∣ ·) (0 + 1) inner.reverse := by
    rcases (hinner.reverse.shift fun _ _ ↦ trivial : Nested kind.2 kind.1 (fun _ ↦ True) (0 + 1)
      inner.reverse).closing_append hne.symm with hpassed | ⟨k, hlt, hstops⟩
    · exact hpassed
    · rw [hstops] at hclosing
      rw [List.length_reverse] at hlt
      exact absurd (Option.some.inj hclosing) hlt.ne
  have hget : (pre ++ kind.1 :: (inner ++ kind.2 :: post))[pre.length]? = some kind.1 := by
    rw [List.getElem?_append_right (Nat.le_refl _), Nat.sub_self]
    rfl
  have hpassed := hpassed.reverse
  rw [List.reverse_reverse] at hpassed
  rw [matching_opening hkind hget, List.drop_length_add_append, List.drop_succ_cons, List.drop_zero,
    closing_append hne hpassed, closing_down hne, if_pos (Nat.dvd_zero _), Option.map_some,
    Option.map_some, Nat.zero_add]

theorem onOneLine_append_cons {c : Char} (hc : isContent c = true) (pre post : List Char) :
    onOneLine (pre ++ c :: post) = onOneLine pre ++ c :: onOneLine post := by
  rw [onOneLine, List.filter_append, List.filter_cons_of_pos hc]
  rfl

theorem column_append_cons {c : Char} (hc : isContent c = true) (pre post : List Char) (k : ℕ) :
    column (pre ++ c :: post) (pre.length + 1 + k) =
      (onOneLine pre).length + 1 + (onOneLine (post.take k)).length := by
  rw [column, Nat.add_assoc, List.take_length_add_append, Nat.add_comm 1, List.take_succ_cons,
    onOneLine_append_cons hc, List.length_append, List.length_cons]
  omega

theorem exists_pre {c : Char} (h : text[offset]? = some c) :
    ∃ pre post, text = pre ++ c :: post ∧ offset = pre.length := by
  obtain ⟨hlt, hget⟩ := List.getElem?_eq_some_iff.mp h
  refine ⟨text.take offset, text.drop (offset + 1), ?_, (List.length_take_of_le hlt.le).symm⟩
  rw [← hget, ← List.drop_eq_getElem_cons hlt, List.take_append_drop]

/-- Where a bracket is in the text on one line. -/
theorem onOneLine_bracket {c : Char} (hc : isContent c = true) (pre post : List Char) :
    column (pre ++ c :: post) pre.length = (onOneLine pre).length ∧
      (onOneLine (pre ++ c :: post))[(onOneLine pre).length]? = some c := by
  rw [column, List.take_left, onOneLine_append_cons hc, List.getElem?_append_right (Nat.le_refl _),
    Nat.sub_self]
  exact ⟨rfl, rfl⟩

theorem lines_opening (hkind : kind ∈ kinds) (h : text[offset]? = some kind.1) :
    matchingBracketOffset (onOneLine text) (column text offset) =
      (matchingBracketOffset text offset).map (column text) := by
  obtain ⟨-, -, hup, hdown, -⟩ := kinds_spec hkind
  have hmatch := matching_opening hkind h
  obtain ⟨pre, post, rfl, rfl⟩ := exists_pre h
  obtain ⟨hcolumn, hget⟩ := onOneLine_bracket hup pre post
  rw [List.drop_length_add_append, List.drop_succ_cons, List.drop_zero] at hmatch
  rw [hmatch, hcolumn, matching_opening hkind hget, onOneLine_append_cons hup,
    List.drop_length_add_append, List.drop_succ_cons, List.drop_zero, onOneLine, onOneLine,
    closing_filter hup hdown, Option.map_map, Option.map_map]
  congr 1
  funext k
  exact (column_append_cons hup pre post k).symm

theorem lines_closing (hkind : kind ∈ kinds) (h : text[offset]? = some kind.2) :
    matchingBracketOffset (onOneLine text) (column text offset) =
      (matchingBracketOffset text offset).map (column text) := by
  obtain ⟨-, -, hup, hdown, -⟩ := kinds_spec hkind
  have hmatch := matching_closing hkind h
  obtain ⟨pre, post, rfl, rfl⟩ := exists_pre h
  obtain ⟨hcolumn, hget⟩ := onOneLine_bracket hdown pre post
  rw [List.take_left] at hmatch
  rw [hmatch, hcolumn, matching_closing hkind hget, onOneLine_append_cons hdown, List.take_left]
  have hreverse : (onOneLine pre).reverse = pre.reverse.filter isContent := List.filter_reverse.symm
  rw [hreverse, closing_filter hdown hup, Option.map_map]
  cases hclosing : closing kind.2 kind.1 (2 ^ 32) 0 pre.reverse with
  | none => rfl
  | some k =>
    obtain ⟨later, before, hpre, rfl⟩ := exists_pre (closing_getElem? hclosing)
    have hpre' : pre = before.reverse ++ kind.1 :: later.reverse := by
      rw [← List.reverse_reverse pre, hpre, List.reverse_append, List.reverse_cons,
        List.append_assoc]
      rfl
    have hoffset : pre.length - 1 - later.length = before.reverse.length := by
      rw [hpre', List.length_append, List.length_cons, List.length_reverse, List.length_reverse]
      omega
    rw [Option.map_some, Option.map_some, Option.map_some, Function.comp_apply, hoffset, hpre,
      List.take_left, hpre', column, List.append_assoc, List.take_left,
      onOneLine_append_cons hup, List.length_append, List.length_cons]
    congr 1
    have hlater : (onOneLine later.reverse).length = (later.filter isContent).length := by
      rw [onOneLine, List.filter_reverse, List.length_reverse]
    omega

/-- **Matching brackets find each other exactly when the depth of the nesting stays bounded.** -/
theorem matchesBracket_iff (h : IsBracket text offset) :
    MatchesBracket text offset ↔ StaysBounded text offset := by
  constructor
  · intro hmatches kind hkind
    exact ⟨fun hget ↦ (forall_opening_iff hkind hget).mp (hmatches.opening kind hkind hget),
      fun hget ↦ (forall_closing_iff hkind hget).mp (hmatches.closing kind hkind hget)⟩
  · intro hbounded
    obtain ⟨kind, hkind, hget⟩ := h
    refine ⟨fun kind hkind hget ↦
        (forall_opening_iff hkind hget).mpr ((hbounded kind hkind).1 hget),
      fun kind hkind hget ↦ (forall_closing_iff hkind hget).mpr ((hbounded kind hkind).2 hget),
      fun m hmatch ↦ ?_, ?_⟩
    · rcases hget with hget | hget
      · have hpairs := (forall_opening_iff hkind hget).mpr ((hbounded kind hkind).1 hget)
        exact involution_opening hkind hget ((hpairs m).mp hmatch) hmatch
      · have hpairs := (forall_closing_iff hkind hget).mpr ((hbounded kind hkind).2 hget)
        exact involution_closing hkind hget ((hpairs m).mp hmatch) hmatch
    · rcases hget with hget | hget
      · exact lines_opening hkind hget
      · exact lines_closing hkind hget

end

/-- The depth stays bounded in a text of fewer than `2 ^ 32` characters. -/
theorem staysBounded_of_length {text : List Char} (h : text.length < 2 ^ 32) (offset : ℕ) :
    StaysBounded text offset := by
  intro kind _
  refine ⟨fun hget ↦ neverWraps_of_length ?_, fun hget ↦ neverWraps_of_length ?_⟩
  · have hlt := (List.getElem?_eq_some_iff.mp hget).1
    rw [List.length_drop]
    omega
  · have hlt := (List.getElem?_eq_some_iff.mp hget).1
    rw [List.length_reverse, List.length_take_of_le hlt.le]
    omega

/-- A pair on two lines. -/
theorem matchesBracket_two_lines : MatchesBracket ['(', '\r', '\n', '[', ')'] 0 :=
  (matchesBracket_iff ⟨('(', ')'), by decide, .inl rfl⟩).mpr
    (staysBounded_of_length (by decide) 0)

/-- Behind `2 ^ 32 + 1` brackets the first that closes is taken for the last. -/
theorem deep_brackets :
    ¬ MatchesBracket ('(' :: (List.replicate (2 ^ 32) '(' ++ [')'])) 0 := by
  intro h
  have hkind : ('(', ')') ∈ kinds := by decide
  have hget : ('(' :: (List.replicate (2 ^ 32) '(' ++ [')']))[0]? = some ('(', ')').1 :=
    List.getElem?_cons_zero
  have hmatch := matching_opening hkind hget
  have hdvd : 2 ^ 32 ∣ 0 + 2 ^ 32 := ⟨1, by rw [Nat.zero_add, Nat.mul_one]⟩
  rw [List.drop_succ_cons, List.drop_zero, closing_replicate, closing_down (by decide),
    if_pos hdvd, Option.map_some, Option.map_some] at hmatch
  obtain ⟨pre, inner, post, htext, hinner, hpre, hm⟩ := (h.opening _ hkind hget _).mp hmatch
  obtain rfl := List.length_eq_zero_iff.mp hpre.symm
  have hlength : (List.replicate (2 ^ 32) '(').length = inner.length := by
    rw [List.length_replicate]
    rw [List.length_nil] at hm
    omega
  obtain ⟨rfl, -⟩ := List.append_inj (List.cons.inj htext).2 hlength
  have hcount := hinner.count_eq (by decide)
  rw [List.count_replicate_self, List.count_eq_zero.mpr fun hmem ↦
    absurd (List.eq_of_mem_replicate hmem) (by decide)] at hcount
  exact absurd hcount (by decide)

end EeEditor.EventContext
