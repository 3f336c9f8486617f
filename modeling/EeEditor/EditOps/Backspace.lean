import EeEditor.Sequence.Lines
import EeEditor.Tree.Graphemes
import EeEditor.View.Selection

/-!
# Backspace

`offset_for_delete_backwards` of `xi-core-lib/src/backspace.rs`. The scan reads code points backward
from the caret and counts those to delete. The predicates of `xi_unicode` are given, with the little
that is used of them.

## The invariant of the scan

Whatever state it is in, the code points counted are some of those read, and they do not end in a
newline (`Scan.Reads`). The counter goes down from two to one only.

## Where the scan does not end

Before a variation selector the scan asks the rope for the grapheme cluster, unless the code point
is part of an emoji. The rope finds a cluster that begins in the leaf of the caret or in the leaf
before it, and does not return where the cluster begins before these (`ClusterInReach`).
-/

namespace EeEditor.Backspace

open BTree (Text Outcome Settles GraphemeCursors InReach prevGraphemeOffset bytes charsPrev)

/-! ## What is given -/

/-- The predicates of `xi_unicode`. -/
structure Classification where
  isVariationSelector : Char → Bool
  isRegionalIndicatorSymbol : Char → Bool
  isEmojiModifier : Char → Bool
  isEmojiCombiningEnclosingKeycap : Char → Bool
  isEmoji : Char → Bool
  isEmojiModifierBase : Char → Bool
  isTagSpecChar : Char → Bool
  isEmojiCancelTag : Char → Bool
  isZwj : Char → Bool
  isKeycapBase : Char → Bool
  /-- A newline is never the beginning of a sequence. -/
  newline : ∀ p ∈ [isRegionalIndicatorSymbol, isEmojiCombiningEnclosingKeycap, isEmoji,
    isEmojiModifierBase, isTagSpecChar, isZwj, isKeycapBase], p '\n' = false
  regionalIndicator : ∀ c, isRegionalIndicatorSymbol c = true →
    isVariationSelector c = false ∧ c ≠ '\n' ∧ c ≠ ' '

def inRange (lo hi : ℕ) (c : Char) : Bool := lo ≤ c.toNat && c.toNat ≤ hi

/-- The predicates as they are, over the two tables of emoji. -/
def xiUnicode (emojiTable emojiModifierBaseTable : List Char) (hemoji : '\n' ∉ emojiTable)
    (hbase : '\n' ∉ emojiModifierBaseTable) : Classification where
  isVariationSelector c := inRange 0xFE00 0xFE0F c || inRange 0xE0100 0xE01EF c
  isRegionalIndicatorSymbol := inRange 0x1F1E6 0x1F1FF
  isEmojiModifier := inRange 0x1F3FB 0x1F3FF
  isEmojiCombiningEnclosingKeycap := inRange 0x20E3 0x20E3
  isEmoji c := c ∈ emojiTable
  isEmojiModifierBase c := c ∈ emojiModifierBaseTable
  isTagSpecChar := inRange 0xE0020 0xE007E
  isEmojiCancelTag := inRange 0xE007F 0xE007F
  isZwj := inRange 0x200D 0x200D
  isKeycapBase c := c.isDigit || c = '#' || c = '*'
  newline := by
    simp only [List.mem_cons, List.not_mem_nil, or_false, forall_eq_or_imp, forall_eq]
    refine ⟨by decide, by decide, ?_, ?_, by decide, by decide, by decide⟩
    · exact decide_eq_false hemoji
    · exact decide_eq_false hbase
  regionalIndicator := by
    intro c hc
    rw [inRange, Bool.and_eq_true, decide_eq_true_iff, decide_eq_true_iff] at hc
    refine ⟨?_, ?_, ?_⟩
    · simp [inRange]
      omega
    · rintro rfl
      exact absurd hc.1 (by decide)
    · rintro rfl
      exact absurd hc.1 (by decide)

/-- The offset is between a carriage return and the newline that follows it. -/
def SplitsCrlf (text : Text) (offset : ℕ) : Prop :=
  ∃ u v, text = u ++ '\r' :: '\n' :: v ∧ offset = (bytes (u ++ ['\r'])).length

structure BufferItems where
  tabSize : ℕ
  translateTabsToSpaces : Bool
  useTabStops : Bool

/-! ## The code -/

/-- The code point that begins at an offset. -/
def codePointAt : Text → ℕ → Option Char
  | [], _ => none
  | c :: text, offset =>
    if offset = 0 then some c else codePointAt text (offset - (String.utf8EncodeChar c).length)

def prevCodepoint (text : Text) (offset : ℕ) : Option Char :=
  (charsPrev text offset).bind (codePointAt text)

theorem charsPrev_lt {text : Text} {offset prev : ℕ} (h : charsPrev text offset = some prev) :
    prev < offset := by
  rw [charsPrev] at h
  split_ifs at h with hzero
  obtain rfl := Option.some.inj h
  exact (BTree.prevCharBoundary_spec (Nat.pos_of_ne_zero hzero)).1.2

theorem charsPrev_getD_lt (text : Text) {offset : ℕ} (h : 0 < offset) :
    (charsPrev text offset).getD 0 < offset := by
  cases hprev : charsPrev text offset with
  | none => exact h
  | some prev => exact charsPrev_lt hprev

def codepointCountBetween (text : Text) (start offset : ℕ) : ℕ :=
  if offset > start then
    match hprev : charsPrev text offset with
    | none => 0
    | some prev => 1 + codepointCountBetween text start prev
  else 0
termination_by offset
decreasing_by exact charsPrev_lt hprev

inductive State where
  | start
  | lf
  | beforeKeycap
  | beforeVsAndKeycap
  | beforeEmojiModifier
  | beforeVsAndEmojiModifier
  | beforeVs
  | beforeEmoji
  | beforeZwj
  | beforeVsAndZwj
  | oddNumberedRis
  | evenNumberedRis
  | inTagSequence
  | finished
  deriving DecidableEq

/-- The variables of the scan, without the offset. -/
structure Scan where
  state : State
  deleteCodePointCount : ℕ
  lastSeenVsCodePointCount : ℕ

def stateAfter (cls : Classification) (codePoint : Char) : State :=
  if codePoint = '\n' then .lf
  else if cls.isVariationSelector codePoint then .beforeVs
  else if cls.isRegionalIndicatorSymbol codePoint then .oddNumberedRis
  else if cls.isEmojiModifier codePoint then .beforeEmojiModifier
  else if cls.isEmojiCombiningEnclosingKeycap codePoint then .beforeKeycap
  else if cls.isEmoji codePoint then .beforeEmoji
  else if cls.isEmojiCancelTag codePoint then .inTagSequence
  else .finished

/-- The body of the loop, with the call that counts the code points of the last cluster. An unsigned
difference below zero is a panic. -/
def Scan.step (cls : Classification) (clusterCount : Outcome ℕ) (self : Scan) (codePoint : Char) :
    Outcome Scan :=
  let count := self.deleteCodePointCount
  let lastSeen := self.lastSeenVsCodePointCount
  match self.state with
  | .start => .done ⟨stateAfter cls codePoint, 1, lastSeen⟩
  | .lf => .done ⟨.finished, if codePoint = '\r' then count + 1 else count, lastSeen⟩
  | .oddNumberedRis =>
    if cls.isRegionalIndicatorSymbol codePoint then .done ⟨.evenNumberedRis, count + 1, lastSeen⟩
    else .done ⟨.finished, count, lastSeen⟩
  | .evenNumberedRis =>
    if cls.isRegionalIndicatorSymbol codePoint then
      if count = 0 then .panicked else .done ⟨.oddNumberedRis, count - 1, lastSeen⟩
    else .done ⟨.finished, count, lastSeen⟩
  | .beforeKeycap =>
    if cls.isVariationSelector codePoint then .done ⟨.beforeVsAndKeycap, count, 1⟩
    else .done ⟨.finished, if cls.isKeycapBase codePoint then count + 1 else count, lastSeen⟩
  | .beforeVsAndKeycap =>
    .done ⟨.finished, if cls.isKeycapBase codePoint then count + (lastSeen + 1) else count,
      lastSeen⟩
  | .beforeEmojiModifier =>
    if cls.isVariationSelector codePoint then .done ⟨.beforeVsAndEmojiModifier, count, 1⟩
    else .done ⟨.finished, if cls.isEmojiModifierBase codePoint then count + 1 else count, lastSeen⟩
  | .beforeVsAndEmojiModifier =>
    .done ⟨.finished, if cls.isEmojiModifierBase codePoint then count + (lastSeen + 1) else count,
      lastSeen⟩
  | .beforeVs =>
    if cls.isEmoji codePoint then .done ⟨.beforeEmoji, count + 1, lastSeen⟩
    else if cls.isVariationSelector codePoint then .done ⟨.finished, count, lastSeen⟩
    else if cls.isZwj codePoint || cls.isEmojiCombiningEnclosingKeycap codePoint then
      .done ⟨.finished, count + 1, lastSeen⟩
    else clusterCount.bind fun count ↦ .done ⟨.finished, count, lastSeen⟩
  | .beforeEmoji =>
    if cls.isZwj codePoint then .done ⟨.beforeZwj, count, lastSeen⟩
    else .done ⟨.finished, count, lastSeen⟩
  | .beforeZwj =>
    if cls.isEmoji codePoint then
      .done ⟨if cls.isEmojiModifier codePoint then .beforeEmojiModifier else .beforeEmoji,
        count + 2, lastSeen⟩
    else if cls.isVariationSelector codePoint then .done ⟨.beforeVsAndZwj, count, 1⟩
    else .done ⟨.finished, count, lastSeen⟩
  | .beforeVsAndZwj =>
    if cls.isEmoji codePoint then .done ⟨.beforeEmoji, count + (lastSeen + 2), 0⟩
    else .done ⟨.finished, count, lastSeen⟩
  | .inTagSequence =>
    if cls.isTagSpecChar codePoint then .done ⟨.inTagSequence, count + 1, lastSeen⟩
    else if cls.isEmoji codePoint then .done ⟨.finished, count + 1, lastSeen⟩
    else .done ⟨.finished, 1, lastSeen⟩
  | .finished => .done self

def scanLoop (cls : Classification) (text : Text) (clusterCount : Outcome ℕ) (self : Scan)
    (tmpOffset : ℕ) : Outcome Scan :=
  if _hgoing : self.state ≠ .finished ∧ tmpOffset > 0 then
    let codePoint := (prevCodepoint text tmpOffset).getD '0'
    let tmpOffset' := (charsPrev text tmpOffset).getD 0
    (self.step cls clusterCount codePoint).bind fun next ↦
      scanLoop cls text clusterCount next tmpOffset'
  else .done self
termination_by tmpOffset
decreasing_by exact charsPrev_getD_lt text _hgoing.2

/-- The last loop: code points are taken away from the end of the region. -/
def stepBack (text : Text) (start : ℕ) : ℕ → ℕ
  | 0 => start
  | count + 1 => stepBack text ((charsPrev text start).getD 0) count

def columnOf (text : Text) (offset : ℕ) : ℕ :=
  offset - startOfLine 10 (bytes text) (((bytes text).take offset).count 10)

def tabStart (text : Text) (config : BufferItems) (start : ℕ) : ℕ :=
  let tabOff := columnOf text start % config.tabSize
  let tabSize := if tabOff = 0 then config.tabSize else tabOff
  start - tabSize

def precededBySpaces (text : Text) (tabStart start : ℕ) : Bool :=
  start > 0 && (List.range' tabStart (start - tabStart)).all fun i ↦ (bytes text)[i]? == some 32

/-- The number of code points from the beginning of the last cluster on. -/
def clusterCount (g : GraphemeCursors) (rope : BTree.Tree Text) (end_ fuel : ℕ) : Outcome ℕ :=
  (prevGraphemeOffset g rope end_ fuel).bind fun clusterStart ↦
    .done (codepointCountBetween rope.flat (clusterStart.getD 0) end_)

/-- A tab size of zero is a panic, and so is the counter below zero. -/
def offsetForDeleteBackwards (cls : Classification) (g : GraphemeCursors) (region : SelRegion)
    (rope : BTree.Tree Text) (config : BufferItems) (fuel : ℕ) : Outcome ℕ :=
  if !region.isCaret then .done region.min
  else if config.tabSize = 0 then .panicked
  else
    let tabStart := tabStart rope.flat config region.start
    if precededBySpaces rope.flat tabStart region.start && config.translateTabsToSpaces &&
        config.useTabStops then
      .done tabStart
    else
      (scanLoop cls rope.flat (clusterCount g rope region.end_ fuel) ⟨.start, 0, 0⟩
          region.end_).bind fun scan ↦
        .done (stepBack rope.flat region.end_ scan.deleteCodePointCount)

/-! ## What backspace is for -/

/-- A whole unit is deleted, from an offset to the caret. -/
structure DeletesUnit (cls : Classification) (text : Text) (config : BufferItems)
    (caret offset : ℕ) : Prop where
  lt : offset < caret
  boundary : isCharBoundary (bytes text) offset = true
  crlf : ¬ SplitsCrlf text offset
  regionalIndicators : ∀ before indicators after, text = before ++ (indicators ++ after) →
    caret = (bytes (before ++ indicators)).length → indicators ≠ [] →
    (∀ c ∈ indicators, cls.isRegionalIndicatorSymbol c = true) →
    (∀ c ∈ before.getLast?, cls.isRegionalIndicatorSymbol c = false) →
      offset = (bytes (before ++ indicators.take
        (indicators.length - if indicators.length % 2 = 0 then 2 else 1))).length
  tabStop : precededBySpaces text (tabStart text config caret) caret = true →
    config.translateTabsToSpaces = true → config.useTabStops = true →
      caret - columnOf text caret ≤ offset ∧ caret ≤ offset + config.tabSize ∧
        config.tabSize ∣ columnOf text offset ∧
        ∀ i, offset ≤ i → i < caret → (bytes text)[i]? = some 32

/-- What is before the caret is deleted from the offset on, and some rope has what is left. -/
inductive Backspaces (cls : Classification) (g : GraphemeCursors) (config : BufferItems) :
    BTree.Tree Text × ℕ → BTree.Tree Text × ℕ → Prop
  | delete {rope rope' : BTree.Tree Text} {before deleted after : Text}
      (hrope : rope.flat = before ++ (deleted ++ after)) (hrope' : rope'.flat = before ++ after)
      (hoffset : Settles (offsetForDeleteBackwards cls g
        (.new (bytes (before ++ deleted)).length (bytes (before ++ deleted)).length) rope config)
        (.done (bytes before).length)) :
      Backspaces cls g config (rope, (bytes (before ++ deleted)).length)
        (rope', (bytes before).length)

/-- Backspace again and again, as long as it returns. -/
def Repeats (cls : Classification) (g : GraphemeCursors) (config : BufferItems)
    (run : ℕ → BTree.Tree Text × ℕ) : Prop :=
  ∀ i, Backspaces cls g config (run i) (run (i + 1)) ∨
    run (i + 1) = run i ∧ ∀ state, ¬ Backspaces cls g config (run i) state

/-- The scan asks for the last cluster of a text: there is a variation selector at its end, and
before that no emoji, nor what goes on to one. -/
def AsksCluster (cls : Classification) (before : Text) : Prop :=
  ∃ selector c rest, before.reverse = selector :: c :: rest ∧ selector ≠ '\n' ∧
    cls.isVariationSelector selector = true ∧ cls.isEmoji c = false ∧
    cls.isVariationSelector c = false ∧ cls.isZwj c = false ∧
    cls.isEmojiCombiningEnclosingKeycap c = false

/-- The spaces before the caret are deleted down to the tab stop. -/
def deletesTabStop (config : BufferItems) (text : Text) (caret : ℕ) : Bool :=
  precededBySpaces text (tabStart text config caret) caret && config.translateTabsToSpaces &&
    config.useTabStops

/-- Where no tab stop is deleted and the scan asks for the cluster, it begins within reach. -/
def ClusterInReach (cls : Classification) (g : GraphemeCursors) (config : BufferItems)
    (rope : BTree.Tree Text) (caret : ℕ) : Prop :=
  ∀ before after, rope.flat = before ++ after → caret = (bytes before).length →
    deletesTabStop config rope.flat caret = false → AsksCluster cls before → InReach g rope before

/-! ## The code points before an offset -/

variable {cs rest : List Char} {c : Char} {k : ℕ}

theorem charsPrev_append (u : Text) (c : Char) (after : Text) :
    charsPrev (u ++ c :: after) (bytes (u ++ [c])).length = some (bytes u).length := by
  have hlen : (bytes (u ++ [c])).length = (bytes u).length + (String.utf8EncodeChar c).length := by
    rw [BTree.length_bytes_append, BTree.bytes_cons, BTree.bytes_nil, List.append_nil]
  have hpos := BTree.utf8Size_pos c
  rw [charsPrev, if_neg (by omega)]
  refine congrArg some (IsGreatest.unique (BTree.prevCharBoundary_spec (by omega)) ?_)
  refine ⟨⟨BTree.isCharBoundary_between u (c :: after), by omega⟩, ?_⟩
  rintro q ⟨hq, hlt⟩
  rw [BTree.mem_charBoundaries, BTree.isCharBoundary_append] at hq
  split_ifs at hq with hle
  · exact hle
  · rcases BTree.isCharBoundary_cons.mp hq with hzero | ⟨o, ho, -⟩ <;> omega

theorem codePointAt_append (u : Text) (c : Char) (after : Text) :
    codePointAt (u ++ c :: after) (bytes u).length = some c := by
  induction u with
  | nil => exact if_pos rfl
  | cons d u ih =>
    have hpos := BTree.utf8Size_pos d
    rw [List.cons_append, codePointAt, BTree.bytes_cons, List.length_append, if_neg (by omega),
      Nat.add_sub_cancel_left, ih]

theorem prevCodepoint_append (u : Text) (c : Char) (after : Text) :
    prevCodepoint (u ++ c :: after) (bytes (u ++ [c])).length = some c := by
  rw [prevCodepoint, charsPrev_append]
  exact codePointAt_append u c after

/-- Code points are taken away one by one. -/
theorem stepBack_eq (cs after : List Char) (k : ℕ) :
    stepBack (cs.reverse ++ after) (bytes cs.reverse).length k =
      (bytes (cs.drop k).reverse).length := by
  induction k generalizing cs after with
  | zero => rfl
  | succ k ih =>
    cases cs with
    | nil =>
      have hzero := ih [] after
      rw [List.drop_nil] at hzero ⊢
      exact hzero
    | cons c cs =>
      rw [List.reverse_cons, List.append_assoc, stepBack, List.singleton_append, charsPrev_append]
      exact ih cs (c :: after)

theorem codepointCountBetween_eq (before cs after : List Char) :
    codepointCountBetween (before ++ cs.reverse ++ after) (bytes before).length
      (bytes (before ++ cs.reverse)).length = cs.length := by
  induction cs generalizing after with
  | nil =>
    rw [List.reverse_nil, List.append_nil, codepointCountBetween, if_neg (Nat.lt_irrefl _)]
    rfl
  | cons c cs ih =>
    have hprev := charsPrev_append (before ++ cs.reverse) c after
    have hlt := charsPrev_lt hprev
    have hle := BTree.length_bytes_append before cs.reverse
    rw [List.reverse_cons, ← List.append_assoc before, List.append_assoc _ [c],
      List.singleton_append, codepointCountBetween, if_pos (by omega)]
    split
    · rename_i hnone
      rw [hnone] at hprev
      cases hprev
    · rename_i prev hsome
      obtain rfl := Option.some.inj (hsome.symm.trans hprev)
      rw [ih (c :: after), List.length_cons, Nat.add_comm]

/-- The scan over the code points before the offset, the nearest first. -/
def Scan.run (cls : Classification) (asked : Outcome ℕ) (self : Scan) : List Char → Outcome Scan
  | [] => .done self
  | c :: cs =>
    if self.state = .finished then .done self
    else (self.step cls asked c).bind fun next ↦ next.run cls asked cs

variable {cls : Classification} {asked asked' : Outcome ℕ}

theorem scanLoop_eq (self : Scan) (cs after : List Char) :
    scanLoop cls (cs.reverse ++ after) asked self (bytes cs.reverse).length =
      self.run cls asked cs := by
  induction cs generalizing self after with
  | nil =>
    rw [scanLoop, dif_neg fun h ↦ Nat.lt_irrefl 0 h.2]
    rfl
  | cons c cs ih =>
    have hprev := charsPrev_append cs.reverse c after
    have hlt := charsPrev_lt hprev
    rw [List.reverse_cons, List.append_assoc, List.singleton_append, Scan.run, scanLoop]
    by_cases hfinished : self.state = .finished
    · rw [dif_neg fun h ↦ h.1 hfinished, if_pos hfinished]
    · rw [dif_pos ⟨hfinished, by omega⟩, if_neg hfinished, hprev, prevCodepoint_append]
      exact congrArg (Outcome.bind _) (funext fun next ↦ ih next (c :: after))

/-! ## What is counted -/

/-- So many code points end within a line end. -/
def CutsLineEnd (cs : List Char) (count : ℕ) : Prop :=
  cs[count - 1]? = some '\n' ∧ cs[count]? = some '\r'

/-- There are so many code points, and they end with a whole unit. -/
structure Whole (cs : List Char) (count : ℕ) : Prop where
  pos : 1 ≤ count
  le : count ≤ cs.length
  lineEnd : ¬ CutsLineEnd cs count

/-- The last of so many code points, which are read, is no newline. -/
structure Ends (cs : List Char) (k count : ℕ) : Prop where
  pos : 1 ≤ count
  le : count ≤ k
  newline : cs[count - 1]? ≠ some '\n'

/-- The code points that are passed and not counted, unless the sequence goes on. -/
def State.passed : State → ℕ
  | .beforeZwj => 1
  | .beforeVsAndZwj => 2
  | .beforeVsAndKeycap => 1
  | .beforeVsAndEmojiModifier => 1
  | _ => 0

/-- What is counted of the `k` code points that are read. -/
def Scan.Counted (cs : List Char) (k : ℕ) (self : Scan) : Prop :=
  match self.state with
  | .oddNumberedRis => self.deleteCodePointCount = 1 ∧ (k = 1 ∨ cs[1]? ≠ some '\n')
  | .evenNumberedRis => self.deleteCodePointCount = 2
  | .beforeVsAndKeycap | .beforeVsAndEmojiModifier | .beforeVsAndZwj =>
    self.deleteCodePointCount + self.state.passed = k ∧ self.lastSeenVsCodePointCount = 1
  | _ => self.deleteCodePointCount + self.state.passed = k

/-- The invariant of the scan, when `k` code points are read. -/
def Scan.Reads (cs : List Char) (k : ℕ) (self : Scan) : Prop :=
  match self.state with
  | .start => k = 0
  | .lf => k = 1 ∧ self.deleteCodePointCount = 1
  | .finished => Whole cs self.deleteCodePointCount
  | _ => Ends cs k self.deleteCodePointCount ∧ cs[0]? ≠ some '\n' ∧ self.Counted cs k

theorem Whole.reads {count lastSeen : ℕ} (h : Whole cs count) :
    Scan.Reads cs k ⟨.finished, count, lastSeen⟩ := h

theorem Ends.whole {count : ℕ} (h : Ends cs k count) (hk : k ≤ cs.length) : Whole cs count :=
  ⟨h.pos, h.le.trans hk, fun hcuts ↦ h.newline hcuts.1⟩

theorem Ends.succ {count : ℕ} (h : Ends cs k count) : Ends cs (k + 1) count :=
  ⟨h.pos, Nat.le_succ_of_le h.le, h.newline⟩

/-- The code point that is read is counted with all that are passed. -/
theorem Ends.last {count : ℕ} (hc : cs[k]? = some c) (hne : c ≠ '\n') (hcount : count = k + 1) :
    Ends cs (k + 1) count := by
  subst hcount
  refine ⟨Nat.le_add_left 1 k, Nat.le_refl _, ?_⟩
  rw [Nat.add_sub_cancel, hc]
  exact fun h ↦ hne (Option.some.inj h)

theorem Classification.ne_newline {p : Char → Bool} (hp : p '\n' = false) (h : p c = true) :
    c ≠ '\n' := by
  rintro rfl
  rw [hp] at h
  cases h

theorem stateAfter_reads {lastSeen : ℕ} (hc : cs[0]? = some c) :
    Scan.Reads cs 1 ⟨stateAfter cls c, 1, lastSeen⟩ := by
  rw [stateAfter]
  by_cases hnewline : c = '\n'
  · rw [if_pos hnewline]
    exact ⟨rfl, rfl⟩
  · have hends : Ends cs 1 1 := Ends.last hc hnewline rfl
    have hfirst : cs[0]? ≠ some '\n' := hends.newline
    have hlength : 1 ≤ cs.length := (List.getElem?_eq_some_iff.mp hc).1
    rw [if_neg hnewline]
    split_ifs
    · exact ⟨hends, hfirst, rfl⟩
    · exact ⟨hends, hfirst, rfl, .inl rfl⟩
    · exact ⟨hends, hfirst, rfl⟩
    · exact ⟨hends, hfirst, rfl⟩
    · exact ⟨hends, hfirst, rfl⟩
    · exact ⟨hends, hfirst, rfl⟩
    · exact hends.whole hlength

/-- The last code point ends the sequence, counted or not. -/
theorem Ends.stops {count passed : ℕ} {p : Char → Bool} (h : Ends cs k count)
    (hc : cs[k]? = some c) (hp : p '\n' = false) (hcount : count + passed = k) :
    Whole cs (if p c then count + (passed + 1) else count) := by
  have hlength : k + 1 ≤ cs.length := (List.getElem?_eq_some_iff.mp hc).1
  split_ifs with his
  · exact (Ends.last hc (Classification.ne_newline hp his) (by omega)).whole hlength
  · exact h.whole (Nat.le_of_succ_le hlength)

/-- Between the regional indicators the counter is one and two by turns. -/
theorem Scan.step_indicators {count lastSeen : ℕ} {state : State}
    (hself : Scan.Reads cs k ⟨state, count, lastSeen⟩) (hc : cs[k]? = some c)
    (hstate : state = .oddNumberedRis ∨ state = .evenNumberedRis) :
    ∃ next, Scan.step cls asked ⟨state, count, lastSeen⟩ c = .done next ∧
      next.Reads cs (k + 1) := by
  have hri : cls.isRegionalIndicatorSymbol '\n' = false := cls.newline _ (by simp)
  have hlength : k ≤ cs.length := (List.getElem?_eq_some_iff.mp hc).1.le
  rcases hstate with rfl | rfl
  · obtain ⟨hends, hfirst, hcount, hsecond⟩ := hself
    obtain rfl : count = 1 := hcount
    dsimp only [Scan.step]
    split_ifs with his
    · refine ⟨_, rfl, ⟨Nat.le_succ 1, Nat.succ_le_succ hends.le, ?_⟩, hfirst, rfl⟩
      rcases hsecond with rfl | hsecond
      · exact (Ends.last hc (Classification.ne_newline hri his) rfl).newline
      · exact hsecond
    · exact ⟨_, rfl, (hends.whole hlength).reads⟩
  · obtain ⟨hends, hfirst, hcount⟩ := hself
    obtain rfl : count = 2 := hcount
    dsimp only [Scan.step]
    split_ifs with his hzero
    · cases hzero
    · exact ⟨_, rfl, ⟨Nat.le_refl 1, Nat.le_add_left 1 k, hfirst⟩, hfirst, rfl, .inr hends.newline⟩
    · exact ⟨_, rfl, (hends.whole hlength).reads⟩

/-- Before a variation selector: the cluster is asked for when nothing else is known. -/
theorem Scan.step_beforeVs {count lastSeen : ℕ}
    (hself : Scan.Reads cs k ⟨.beforeVs, count, lastSeen⟩) (hc : cs[k]? = some c)
    (hasked : ∃ n, asked = .done n ∧ Whole cs n) :
    ∃ next, Scan.step cls asked ⟨.beforeVs, count, lastSeen⟩ c = .done next ∧
      next.Reads cs (k + 1) := by
  have hlength : k + 1 ≤ cs.length := (List.getElem?_eq_some_iff.mp hc).1
  obtain ⟨n, rfl, hwhole⟩ := hasked
  obtain ⟨hends, hfirst, hcount⟩ := hself
  obtain rfl : count = k := hcount
  dsimp only [Scan.step]
  split_ifs with his hselector hjoined
  · have hne := Classification.ne_newline (cls.newline cls.isEmoji (by simp)) his
    exact ⟨_, rfl, Ends.last hc hne rfl, hfirst, rfl⟩
  · exact ⟨_, rfl, (hends.whole (Nat.le_of_succ_le hlength)).reads⟩
  · have hne : c ≠ '\n' := by
      rcases Bool.or_eq_true_iff.mp hjoined with h | h
      · exact Classification.ne_newline (cls.newline cls.isZwj (by simp)) h
      · exact Classification.ne_newline
          (cls.newline cls.isEmojiCombiningEnclosingKeycap (by simp)) h
    exact ⟨_, rfl, ((Ends.last hc hne rfl).whole hlength).reads⟩
  · exact ⟨_, rfl, hwhole.reads⟩

variable (cls) in
/-- One code point is read. The counter is not zero where it goes down. -/
theorem Scan.step_reads {self : Scan} (hself : self.Reads cs k) (hc : cs[k]? = some c)
    (hgoing : self.state ≠ .finished) (hasked : ∃ n, asked = .done n ∧ Whole cs n) :
    ∃ next, self.step cls asked c = .done next ∧ next.Reads cs (k + 1) := by
  have hnewline := cls.newline
  simp only [List.mem_cons, List.not_mem_nil, or_false, forall_eq_or_imp, forall_eq] at hnewline
  obtain ⟨-, -, hemoji, hbase, htag, -, hkeycapBase⟩ := hnewline
  have hlength : k + 1 ≤ cs.length := (List.getElem?_eq_some_iff.mp hc).1
  obtain ⟨state, count, lastSeen⟩ := self
  cases state with
  | start =>
    obtain rfl : k = 0 := hself
    exact ⟨_, rfl, stateAfter_reads hc⟩
  | lf =>
    obtain ⟨rfl, rfl⟩ : k = 1 ∧ count = 1 := hself
    refine ⟨_, rfl, ?_⟩
    by_cases hreturn : c = '\r'
    · rw [if_pos hreturn]
      subst hreturn
      exact ((Ends.last hc (by decide) rfl).whole hlength).reads
    · rw [if_neg hreturn]
      refine Whole.reads ⟨Nat.le_refl 1, Nat.le_of_succ_le hlength, ?_⟩
      rw [CutsLineEnd, hc]
      exact fun hcuts ↦ hreturn (Option.some.inj hcuts.2)
  | oddNumberedRis => exact Scan.step_indicators hself hc (.inl rfl)
  | evenNumberedRis => exact Scan.step_indicators hself hc (.inr rfl)
  | beforeVs => exact Scan.step_beforeVs hself hc hasked
  | beforeKeycap =>
    obtain ⟨hends, hfirst, hcount⟩ := hself
    dsimp only [Scan.step]
    by_cases his : cls.isVariationSelector c
    · rw [if_pos his]
      exact ⟨_, rfl, hends.succ, hfirst, congrArg (· + 1) hcount, rfl⟩
    · rw [if_neg his]
      exact ⟨_, rfl, hends.stops hc hkeycapBase hcount⟩
  | beforeEmojiModifier =>
    obtain ⟨hends, hfirst, hcount⟩ := hself
    dsimp only [Scan.step]
    by_cases his : cls.isVariationSelector c
    · rw [if_pos his]
      exact ⟨_, rfl, hends.succ, hfirst, congrArg (· + 1) hcount, rfl⟩
    · rw [if_neg his]
      exact ⟨_, rfl, hends.stops hc hbase hcount⟩
  | beforeVsAndKeycap =>
    obtain ⟨hends, -, hcount, hlast⟩ := hself
    obtain rfl : lastSeen = 1 := hlast
    exact ⟨_, rfl, hends.stops hc hkeycapBase hcount⟩
  | beforeVsAndEmojiModifier =>
    obtain ⟨hends, -, hcount, hlast⟩ := hself
    obtain rfl : lastSeen = 1 := hlast
    exact ⟨_, rfl, hends.stops hc hbase hcount⟩
  | beforeEmoji =>
    obtain ⟨hends, hfirst, hcount⟩ := hself
    dsimp only [Scan.step]
    split_ifs with his
    · exact ⟨_, rfl, hends.succ, hfirst, congrArg (· + 1) hcount⟩
    · exact ⟨_, rfl, (hends.whole (Nat.le_of_succ_le hlength)).reads⟩
  | beforeZwj =>
    obtain ⟨hends, hfirst, hcount⟩ := hself
    obtain rfl : count + 1 = k := hcount
    dsimp only [Scan.step]
    by_cases his : cls.isEmoji c
    · rw [if_pos his]
      have hlast := Ends.last hc (Classification.ne_newline hemoji his) rfl
      refine ⟨_, rfl, ?_⟩
      split_ifs
      · exact ⟨hlast, hfirst, rfl⟩
      · exact ⟨hlast, hfirst, rfl⟩
    · rw [if_neg his]
      split_ifs with hselector
      · exact ⟨_, rfl, hends.succ, hfirst, rfl, rfl⟩
      · exact ⟨_, rfl, (hends.whole (Nat.le_of_succ_le hlength)).reads⟩
  | beforeVsAndZwj =>
    obtain ⟨hends, hfirst, hcount, hlast⟩ := hself
    obtain rfl : count + 2 = k := hcount
    obtain rfl : lastSeen = 1 := hlast
    dsimp only [Scan.step]
    split_ifs with his
    · exact ⟨_, rfl, Ends.last hc (Classification.ne_newline hemoji his) rfl, hfirst, rfl⟩
    · exact ⟨_, rfl, (hends.whole (Nat.le_of_succ_le hlength)).reads⟩
  | inTagSequence =>
    obtain ⟨hends, hfirst, hcount⟩ := hself
    obtain rfl : count = k := hcount
    dsimp only [Scan.step]
    split_ifs with his hstands
    · exact ⟨_, rfl, Ends.last hc (Classification.ne_newline htag his) rfl, hfirst, rfl⟩
    · have hne := Classification.ne_newline hemoji hstands
      exact ⟨_, rfl, ((Ends.last hc hne rfl).whole hlength).reads⟩
    · have hone : Ends cs 1 1 := ⟨Nat.le_refl 1, Nat.le_refl 1, hfirst⟩
      exact ⟨_, rfl, (hone.whole (Nat.le_of_add_left_le hlength)).reads⟩
  | finished => exact absurd rfl hgoing

/-- The text begins, in whatever state. -/
theorem Scan.Reads.whole {self : Scan} (hself : self.Reads cs cs.length) (hne : cs ≠ []) :
    Whole cs self.deleteCodePointCount := by
  have hpos := List.length_pos_iff.mpr hne
  obtain ⟨state, count, lastSeen⟩ := self
  cases state with
  | start =>
    have hzero : cs.length = 0 := hself
    omega
  | lf =>
    obtain ⟨hone, rfl⟩ : cs.length = 1 ∧ count = 1 := hself
    refine ⟨Nat.le_refl 1, hpos, fun hcuts ↦ ?_⟩
    have hlt : 1 < cs.length := (List.getElem?_eq_some_iff.mp hcuts.2).1
    omega
  | finished => exact hself
  | _ => exact hself.1.whole (Nat.le_refl _)

variable (cls) in
theorem Scan.run_reads {self : Scan} (hasked : ∃ n, asked = .done n ∧ Whole cs n) (hne : cs ≠ [])
    (hdrop : cs.drop k = rest) (hk : k ≤ cs.length) (hself : self.Reads cs k) :
    ∃ last, self.run cls asked rest = .done last ∧ Whole cs last.deleteCodePointCount := by
  induction rest generalizing self k with
  | nil =>
    obtain rfl : k = cs.length := Nat.le_antisymm hk (List.drop_eq_nil_iff.mp hdrop)
    exact ⟨self, rfl, hself.whole hne⟩
  | cons c rest ih =>
    have hc : cs[k]? = some c := by
      rw [← List.head?_drop, hdrop]
      rfl
    have hlt := (List.getElem?_eq_some_iff.mp hc).1
    rw [Scan.run]
    by_cases hfinished : self.state = .finished
    · rw [if_pos hfinished]
      refine ⟨self, rfl, ?_⟩
      rw [Scan.Reads, hfinished] at hself
      exact hself
    · obtain ⟨next, hnext, hreads⟩ := self.step_reads cls hself hc hfinished hasked
      rw [if_neg hfinished, hnext]
      refine ih ?_ hlt hreads
      rw [← List.tail_drop, hdrop]
      rfl

theorem Scan.run_finished (count lastSeen : ℕ) (cs : List Char) :
    Scan.run cls asked ⟨.finished, count, lastSeen⟩ cs = .done ⟨.finished, count, lastSeen⟩ := by
  cases cs <;> rfl

/-! ## When the cluster is asked for -/

variable (cls asked asked') in
/-- Only before a variation selector is the cluster asked for, and that is its state but once. -/
theorem Scan.step_congr {self : Scan} (hstart : self.state ≠ .start) (hvs : self.state ≠ .beforeVs)
    (c : Char) : self.step cls asked c = self.step cls asked' c ∧
      ∀ next, self.step cls asked c = .done next → next.state ≠ .start ∧
        next.state ≠ .beforeVs := by
  obtain ⟨state, count, lastSeen⟩ := self
  refine ⟨?_, fun next hnext ↦ ?_⟩
  · cases state <;> first | rfl | exact absurd rfl hvs
  · cases state with
    | start => exact absurd rfl hstart
    | beforeVs => exact absurd rfl hvs
    | _ =>
      dsimp only [Scan.step] at hnext
      (try split_ifs at hnext) <;> cases hnext <;> exact ⟨nofun, nofun⟩

theorem Scan.run_congr {self : Scan} (hstart : self.state ≠ .start) (hvs : self.state ≠ .beforeVs)
    (cs : List Char) : self.run cls asked cs = self.run cls asked' cs := by
  induction cs generalizing self with
  | nil => rfl
  | cons c cs ih =>
    obtain ⟨heq, hnext⟩ := Scan.step_congr cls asked asked' hstart hvs c
    rw [Scan.run, Scan.run, ← heq]
    split_ifs
    · rfl
    · cases hstep : self.step cls asked c with
      | done next =>
        obtain ⟨hstart', hvs'⟩ := hnext next hstep
        exact ih hstart' hvs'
      | panicked => rfl
      | running => rfl

/-- The first code point is a variation selector. -/
theorem stateAfter_eq_beforeVs : stateAfter cls c = .beforeVs ↔
    c ≠ '\n' ∧ cls.isVariationSelector c = true := by
  rw [stateAfter]
  split_ifs <;> simp_all

theorem stateAfter_ne_start : stateAfter cls c ≠ .start := by
  rw [stateAfter]
  split_ifs <;> nofun

theorem Scan.run_start (c : Char) (cs : List Char) : Scan.run cls asked ⟨.start, 0, 0⟩ (c :: cs) =
    Scan.run cls asked ⟨stateAfter cls c, 1, 0⟩ cs := by
  rw [Scan.run, if_neg nofun]
  rfl

/-- The scan is then a call that counts the code points of the cluster. -/
theorem AsksCluster.run (h : AsksCluster cls cs.reverse) :
    Scan.run cls asked ⟨.start, 0, 0⟩ cs =
      asked.bind fun count ↦ .done ⟨.finished, count, 0⟩ := by
  obtain ⟨selector, c, rest, hcs, hnewline, hselector, hemoji, hvs, hzwj, hkeycap⟩ := h
  obtain rfl : cs = selector :: c :: rest := by rw [← hcs, List.reverse_reverse]
  have hstate := stateAfter_eq_beforeVs.mpr ⟨hnewline, hselector⟩
  have hstep : Scan.step cls asked ⟨.beforeVs, 1, 0⟩ c =
      asked.bind fun count ↦ .done ⟨.finished, count, 0⟩ := by
    dsimp only [Scan.step]
    rw [hemoji, hvs, hzwj, hkeycap]
    rfl
  rw [Scan.run_start, hstate, Scan.run, if_neg nofun, hstep]
  cases asked with
  | done n => exact Scan.run_finished n 0 rest
  | panicked => rfl
  | running => rfl

/-- Otherwise what is asked for makes no difference. -/
theorem Scan.run_asks_not (h : ¬ AsksCluster cls cs.reverse) :
    Scan.run cls asked ⟨.start, 0, 0⟩ cs = Scan.run cls asked' ⟨.start, 0, 0⟩ cs := by
  cases cs with
  | nil => rfl
  | cons selector cs =>
    rw [Scan.run_start, Scan.run_start]
    by_cases hstate : stateAfter cls selector = .beforeVs
    · obtain ⟨hnewline, hselector⟩ := stateAfter_eq_beforeVs.mp hstate
      rw [hstate]
      cases cs with
      | nil => rfl
      | cons c rest =>
        rw [Scan.run, Scan.run, if_neg nofun, if_neg nofun]
        dsimp only [Scan.step]
        split_ifs with hemoji hvs hjoined
        · refine Scan.run_congr ?_ ?_ rest <;> nofun
        · refine Scan.run_congr ?_ ?_ rest <;> nofun
        · refine Scan.run_congr ?_ ?_ rest <;> nofun
        · rw [Bool.or_eq_true, not_or] at hjoined
          exact absurd ⟨selector, c, rest, List.reverse_reverse _, hnewline, hselector,
            Bool.eq_false_iff.mpr hemoji, Bool.eq_false_iff.mpr hvs,
            Bool.eq_false_iff.mpr hjoined.1, Bool.eq_false_iff.mpr hjoined.2⟩ h
    · exact Scan.run_congr stateAfter_ne_start hstate cs

/-! ## Regional indicators -/

/-- The counter goes up and down between one and two. -/
theorem Scan.run_indicators {indicators : List Char}
    (hall : ∀ c ∈ indicators, cls.isRegionalIndicatorSymbol c = true)
    (hrest : ∀ c ∈ rest.head?, cls.isRegionalIndicatorSymbol c = false) (lastSeen : ℕ) :
    (∃ last, Scan.run cls asked ⟨.oddNumberedRis, 1, lastSeen⟩ (indicators ++ rest) =
        .done last ∧ last.deleteCodePointCount = if indicators.length % 2 = 0 then 1 else 2) ∧
      ∃ last, Scan.run cls asked ⟨.evenNumberedRis, 2, lastSeen⟩ (indicators ++ rest) =
        .done last ∧ last.deleteCodePointCount = if indicators.length % 2 = 0 then 2 else 1 := by
  induction indicators with
  | nil =>
    cases rest with
    | nil => exact ⟨⟨_, rfl, rfl⟩, _, rfl, rfl⟩
    | cons c rest =>
      have hc : ¬ cls.isRegionalIndicatorSymbol c = true := by
        rw [hrest c rfl]
        exact Bool.false_ne_true
      have hodd : Scan.step cls asked ⟨.oddNumberedRis, 1, lastSeen⟩ c =
          .done ⟨.finished, 1, lastSeen⟩ := if_neg hc
      have heven : Scan.step cls asked ⟨.evenNumberedRis, 2, lastSeen⟩ c =
          .done ⟨.finished, 2, lastSeen⟩ := if_neg hc
      constructor
      · refine ⟨⟨.finished, 1, lastSeen⟩, ?_, rfl⟩
        rw [List.nil_append, Scan.run, if_neg nofun, hodd]
        exact Scan.run_finished 1 lastSeen rest
      · refine ⟨⟨.finished, 2, lastSeen⟩, ?_, rfl⟩
        rw [List.nil_append, Scan.run, if_neg nofun, heven]
        exact Scan.run_finished 2 lastSeen rest
  | cons c indicators ih =>
    rw [List.forall_mem_cons] at hall
    obtain ⟨⟨odd, hodd, hoddCount⟩, even, heven, hevenCount⟩ := ih hall.2
    have hup : Scan.step cls asked ⟨.oddNumberedRis, 1, lastSeen⟩ c =
        .done ⟨.evenNumberedRis, 2, lastSeen⟩ := if_pos hall.1
    have hdown : Scan.step cls asked ⟨.evenNumberedRis, 2, lastSeen⟩ c =
        .done ⟨.oddNumberedRis, 1, lastSeen⟩ := if_pos hall.1
    constructor
    · refine ⟨even, ?_, ?_⟩
      · rw [List.cons_append, Scan.run, if_neg nofun, hup]
        exact heven
      · rw [hevenCount, List.length_cons]
        split_ifs <;> omega
    · refine ⟨odd, ?_, ?_⟩
      · rw [List.cons_append, Scan.run, if_neg nofun, hdown]
        exact hodd
      · rw [hoddCount, List.length_cons]
        split_ifs <;> omega

/-- Two of an even number of indicators are counted, and one of an odd number. -/
theorem run_start_indicators {indicators : List Char} (asked : Outcome ℕ) (hne : indicators ≠ [])
    (hall : ∀ c ∈ indicators, cls.isRegionalIndicatorSymbol c = true)
    (hrest : ∀ c ∈ rest.head?, cls.isRegionalIndicatorSymbol c = false) :
    ∃ last, Scan.run cls asked ⟨.start, 0, 0⟩ (indicators ++ rest) = .done last ∧
      last.deleteCodePointCount = if indicators.length % 2 = 0 then 2 else 1 := by
  obtain ⟨c, indicators, rfl⟩ := List.exists_cons_of_ne_nil hne
  rw [List.forall_mem_cons] at hall
  obtain ⟨hselector, hnewline, -⟩ := cls.regionalIndicator c hall.1
  have hstep : Scan.step cls asked ⟨.start, 0, 0⟩ c = .done ⟨.oddNumberedRis, 1, 0⟩ := by
    rw [Scan.step, stateAfter, if_neg hnewline, if_neg (Bool.eq_false_iff.mp hselector),
      if_pos hall.1]
  obtain ⟨last, hlast, hcount⟩ := (Scan.run_indicators hall.2 hrest 0).1
  refine ⟨last, ?_, ?_⟩
  · rw [List.cons_append, Scan.run, if_neg nofun, hstep]
    exact hlast
  · rw [hcount, List.length_cons]
    split_ifs <;> omega

/-! ## Tab stops -/

variable {text : Text} {config : BufferItems} {start offset : ℕ}

theorem columnOf_eq (h : offset ≤ (bytes text).length) :
    columnOf text offset = (((bytes text).take offset).rtakeWhile (· ≠ 10)).length := by
  have hpref : startOfLine 10 ((bytes text).take offset ++ (bytes text).drop offset)
      (((bytes text).take offset).count 10) + _ = _ := startOfLine_prefix _ _
  rw [List.take_append_drop, List.length_take, Nat.min_eq_left h] at hpref
  rw [columnOf]
  omega

theorem precededBySpaces_iff {tabStart : ℕ} : precededBySpaces text tabStart start = true ↔
    0 < start ∧ ∀ i, tabStart ≤ i → i < start → (bytes text)[i]? = some 32 := by
  rw [precededBySpaces, Bool.and_eq_true, decide_eq_true_iff, List.all_eq_true]
  refine and_congr_right fun _ ↦ ⟨fun h i hle hlt ↦ ?_, fun h i hi ↦ ?_⟩
  · exact beq_iff_eq.mp (h i (List.mem_range'_1.mpr ⟨hle, by omega⟩))
  · obtain ⟨hle, hlt⟩ := List.mem_range'_1.mp hi
    exact beq_iff_eq.mpr (h i hle (by omega))

/-- Over spaces the column grows with the offset. -/
theorem columnOf_spaces (hle : offset ≤ start) (hstart : start ≤ (bytes text).length)
    (hspaces : ∀ i, offset ≤ i → i < start → (bytes text)[i]? = some 32) :
    columnOf text start = columnOf text offset + (start - offset) := by
  obtain ⟨m, rfl⟩ := Nat.exists_eq_add_of_le hle
  have hall : ∀ b ∈ ((bytes text).drop offset).take m, decide (b ≠ 10) = true := by
    intro b hb
    obtain ⟨i, hi⟩ := List.mem_iff_getElem?.mp hb
    rw [List.getElem?_take] at hi
    split_ifs at hi with hlt
    rw [List.getElem?_drop, hspaces (offset + i) (by omega) (by omega)] at hi
    obtain rfl := Option.some.inj hi
    rfl
  rw [columnOf_eq hstart, columnOf_eq (hle.trans hstart), List.take_add,
    rtakeWhile_append_of_pos _ hall, List.length_append, List.length_take, List.length_drop]
  omega

/-- No more than one tab stop is spaces of the line. -/
theorem tabStart_spec (htab : 1 ≤ config.tabSize) (hstart : start ≤ (bytes text).length)
    (hspaces : precededBySpaces text (tabStart text config start) start = true) :
    tabStart text config start < start ∧
      start - columnOf text start ≤ tabStart text config start ∧
      start ≤ tabStart text config start + config.tabSize ∧
      config.tabSize ∣ columnOf text (tabStart text config start) := by
  obtain ⟨hpos, hspaces⟩ := precededBySpaces_iff.mp hspaces
  set size := if columnOf text start % config.tabSize = 0 then config.tabSize
    else columnOf text start % config.tabSize with hsize
  have htabStart : tabStart text config start = start - size := rfl
  rw [htabStart] at hspaces ⊢
  have hmod := Nat.mod_lt (columnOf text start) htab
  have hsizePos : 1 ≤ size ∧ size ≤ config.tabSize := by
    rw [hsize]
    split_ifs <;> omega
  have hbefore : columnOf text start = columnOf text (start - 1) + (start - (start - 1)) :=
    columnOf_spaces (Nat.sub_le _ _) hstart fun i hi hlt ↦ hspaces i (by omega) hlt
  have hsizeLe : size ≤ columnOf text start := by
    rw [hsize]
    split_ifs with hzero
    · exact Nat.le_of_dvd (by omega) (Nat.dvd_of_mod_eq_zero hzero)
    · exact Nat.mod_le _ _
  have hcolumn := columnOf_spaces (Nat.sub_le start size) hstart hspaces
  have hcolumnLe : columnOf text start ≤ start := Nat.sub_le _ _
  have hrest : columnOf text (start - size) = columnOf text start - size := by omega
  refine ⟨by omega, by omega, by omega, ?_⟩
  rw [hrest, hsize]
  split_ifs with hzero
  · exact Nat.dvd_sub (Nat.dvd_of_mod_eq_zero hzero) (Nat.dvd_refl _)
  · exact Nat.dvd_sub_mod _

/-! ## Whole units -/

theorem SplitsCrlf.newline (h : SplitsCrlf text offset) : (bytes text)[offset]? = some 10 := by
  obtain ⟨u, v, rfl, rfl⟩ := h
  rw [List.append_cons, BTree.bytes_append, List.getElem?_append_right (Nat.le_refl _),
    Nat.sub_self]
  rfl

theorem cutsLineEnd_iff (u : List Char) {v : List Char} (after : List Char) (hne : v ≠ []) :
    CutsLineEnd (u ++ v).reverse v.length ↔ SplitsCrlf (u ++ (v ++ after)) (bytes u).length := by
  obtain ⟨c, v, rfl⟩ := List.exists_cons_of_ne_nil hne
  have hcuts : CutsLineEnd (u ++ c :: v).reverse (c :: v).length ↔
      c = '\n' ∧ u.getLast? = some '\r' := by
    have hreverse : (u ++ c :: v).reverse = v.reverse ++ c :: u.reverse := by
      rw [List.reverse_append, List.reverse_cons, List.append_assoc, List.singleton_append]
    have hfirst : (v.reverse ++ c :: u.reverse)[v.length]? = some c := by
      rw [← List.length_reverse, List.getElem?_append_right (Nat.le_refl _), Nat.sub_self]
      rfl
    have hsecond : (v.reverse ++ c :: u.reverse)[v.length + 1]? = u.getLast? := by
      rw [← List.length_reverse, List.getElem?_append_right (Nat.le_add_right _ 1),
        Nat.add_sub_cancel_left, List.getElem?_cons_succ, ← List.head?_eq_getElem?,
        List.head?_reverse]
    rw [CutsLineEnd, hreverse, List.length_cons, Nat.add_sub_cancel, hfirst, hsecond,
      Option.some.injEq]
  rw [hcuts]
  constructor
  · rintro ⟨rfl, hreturn⟩
    obtain ⟨u, rfl⟩ := List.getLast?_eq_some_iff.mp hreturn
    exact ⟨u, v ++ after, by simp, rfl⟩
  · rintro ⟨u', v', htext, hlen⟩
    rw [List.append_cons] at htext
    obtain ⟨rfl, hrest⟩ := BTree.append_unique htext hlen
    exact ⟨List.head_eq_of_cons_eq hrest, List.getLast?_concat⟩

/-- The last cluster is a whole unit. -/
theorem whole_cluster (g : GraphemeCursors) (after : List Char) (hne : cs ≠ []) :
    Whole cs (codepointCountBetween (cs.reverse ++ after) (g.clusterStart cs.reverse)
      (bytes cs.reverse).length) := by
  have hlt := g.clusterStart_lt cs.reverse (List.reverse_ne_nil_iff.mpr hne)
  obtain ⟨u, v, hv, hu⟩ := BTree.exists_split (g.clusterStart_boundary cs.reverse)
  have hvne : v ≠ [] := by
    rintro rfl
    rw [← hu, hv, List.append_nil] at hlt
    exact Nat.lt_irrefl _ hlt
  have hcs : cs = (u ++ v).reverse := by rw [← hv, List.reverse_reverse]
  have hcount := codepointCountBetween_eq u v.reverse after
  rw [List.reverse_reverse, List.length_reverse, ← hv, hu] at hcount
  rw [hcount]
  refine ⟨List.length_pos_iff.mpr hvne, ?_, fun hcuts ↦ ?_⟩
  · rw [hcs, List.length_reverse, List.length_append]
    exact Nat.le_add_left _ _
  · rw [hcs, cutsLineEnd_iff u [] hvne, List.append_nil, ← hv, hu] at hcuts
    obtain ⟨u', v', htext, hlength⟩ := hcuts
    rw [htext] at hlength
    exact g.clusterStart_crlf u' v' hlength

/-- Where the scan begins. -/
theorem reads_start : Scan.Reads cs 0 ⟨.start, 0, 0⟩ := rfl

/-- What is left is a boundary before, and no line end is separated. -/
theorem Whole.deletes {count : ℕ} (h : Whole cs count) (after : List Char) :
    (bytes (cs.drop count).reverse).length < (bytes cs.reverse).length ∧
      isCharBoundary (bytes (cs.reverse ++ after)) (bytes (cs.drop count).reverse).length = true ∧
      ¬ SplitsCrlf (cs.reverse ++ after) (bytes (cs.drop count).reverse).length := by
  have hcs : cs.reverse = (cs.drop count).reverse ++ (cs.take count).reverse := by
    rw [← List.reverse_append, List.take_append_drop]
  have hlength : (cs.take count).reverse.length = count := by
    rw [List.length_reverse, List.length_take, Nat.min_eq_left h.le]
  have hne : (cs.take count).reverse ≠ [] := by
    refine List.ne_nil_of_length_pos ?_
    rw [hlength]
    exact h.pos
  have hcuts := cutsLineEnd_iff (cs.drop count).reverse after hne
  rw [hlength, ← hcs, List.reverse_reverse, ← List.append_assoc, ← hcs] at hcuts
  refine ⟨?_, ?_, fun h' ↦ h.lineEnd (hcuts.mpr h')⟩
  · have hpos : 0 < (bytes (cs.take count).reverse).length := BTree.len_pos hne
    rw [hcs, BTree.length_bytes_append]
    omega
  · rw [hcs, List.append_assoc]
    exact BTree.isCharBoundary_between _ _

/-- A character whose last byte is a space is a space. -/
theorem eq_space {u : List Char} (after : List Char)
    (h : (bytes (u ++ c :: after))[(bytes (u ++ [c])).length - 1]? = some 32) : c = ' ' := by
  have hlen : (bytes (u ++ [c])).length = (bytes u).length + (String.utf8EncodeChar c).length := by
    rw [BTree.length_bytes_append, BTree.bytes_cons, BTree.bytes_nil, List.append_nil]
  have hpos := BTree.utf8Size_pos c
  have hprev := charsPrev_append u c after
  rw [charsPrev, if_neg (by omega)] at hprev
  have hgreatest : IsGreatest _ (BTree.prevCharBoundary (u ++ c :: after) _) :=
    BTree.prevCharBoundary_spec (by omega : 0 < (bytes (u ++ [c])).length)
  rw [Option.some.inj hprev] at hgreatest
  have hle : (bytes (u ++ [c])).length - 1 ≤ (bytes u).length :=
    hgreatest.2 ⟨BTree.isCharBoundary_of_ascii h (by decide), by omega⟩
  have hone : (String.utf8EncodeChar c).length = 1 := by omega
  obtain ⟨b, hb⟩ := List.length_eq_one_iff.mp hone
  rw [show (bytes (u ++ [c])).length - 1 = (bytes u).length by omega, BTree.bytes_append,
    List.getElem?_append_right (Nat.le_refl _), Nat.sub_self, BTree.bytes_cons, hb] at h
  obtain rfl := Option.some.inj h
  have hencode : String.utf8EncodeChar c ++ [] = String.utf8EncodeChar ' ' ++ [] :=
    congrArg (· ++ []) hb
  exact BTree.encode_injective hencode

theorem DeletesUnit.of_tabStop {after : List Char} (htab : 1 ≤ config.tabSize)
    (hspaces : precededBySpaces (cs.reverse ++ after)
      (tabStart (cs.reverse ++ after) config (bytes cs.reverse).length)
      (bytes cs.reverse).length = true) :
    DeletesUnit cls (cs.reverse ++ after) config (bytes cs.reverse).length
      (tabStart (cs.reverse ++ after) config (bytes cs.reverse).length) := by
  have hle : (bytes cs.reverse).length ≤ (bytes (cs.reverse ++ after)).length := by
    rw [BTree.length_bytes_append]
    exact Nat.le_add_right _ _
  obtain ⟨hlt, hline, hsize, hdvd⟩ := tabStart_spec htab hle hspaces
  obtain ⟨hpos, hbytes⟩ := precededBySpaces_iff.mp hspaces
  refine ⟨hlt, BTree.isCharBoundary_of_ascii (hbytes _ (Nat.le_refl _) hlt) (by decide), ?_, ?_,
    fun _ _ _ ↦ ⟨hline, hsize, hdvd, hbytes⟩⟩
  · intro hcrlf
    have hnewline := hcrlf.newline
    rw [hbytes _ (Nat.le_refl _) hlt] at hnewline
    cases hnewline
  · intro before indicators after' htext hcaret hne hall _
    obtain ⟨init, c, rfl⟩ := List.eq_nil_or_concat' indicators |>.resolve_left hne
    have hbyte := hbytes ((bytes cs.reverse).length - 1) (by omega) (by omega)
    have htext' : cs.reverse ++ after = (before ++ init) ++ c :: after' := by
      rw [htext]
      simp
    rw [htext', hcaret, ← List.append_assoc] at hbyte
    obtain rfl := eq_space after' hbyte
    exact absurd rfl (cls.regionalIndicator ' ' (hall ' ' (by simp))).2.2

/-- What a run over indicators leaves. -/
theorem reverse_drop_indicators (before : List Char) {indicators : List Char} {count : ℕ}
    (hcount : count ≤ indicators.length) :
    ((before ++ indicators).reverse.drop count).reverse =
      before ++ indicators.take (indicators.length - count) := by
  rw [List.reverse_append, List.drop_append_of_le_length (by rwa [List.length_reverse]),
    List.reverse_append, List.reverse_reverse, List.drop_reverse, List.reverse_reverse]

theorem DeletesUnit.of_scan {after : List Char} {last : Scan}
    (hspaces : deletesTabStop config (cs.reverse ++ after) (bytes cs.reverse).length = false)
    (hlast : Scan.run cls asked ⟨.start, 0, 0⟩ cs = .done last)
    (hwhole : Whole cs last.deleteCodePointCount) :
    DeletesUnit cls (cs.reverse ++ after) config (bytes cs.reverse).length
      (bytes (cs.drop last.deleteCodePointCount).reverse).length := by
  obtain ⟨hlt, hboundary, hcrlf⟩ := hwhole.deletes after
  refine ⟨hlt, hboundary, hcrlf, ?_, ?_⟩
  · intro before indicators after' htext hcaret hne hall hbefore
    rw [← List.append_assoc] at htext
    obtain ⟨hcs, -⟩ := BTree.append_unique htext hcaret
    obtain rfl : cs = (before ++ indicators).reverse := by rw [← hcs, List.reverse_reverse]
    have hrest : ∀ c ∈ before.reverse.head?, cls.isRegionalIndicatorSymbol c = false := by
      rwa [List.head?_reverse]
    obtain ⟨last', hlast', hcount⟩ := run_start_indicators asked
      (List.reverse_ne_nil_iff.mpr hne) (fun c hc ↦ hall c (List.mem_reverse.mp hc)) hrest
    rw [← List.reverse_append, hlast] at hlast'
    obtain rfl := Outcome.done.inj hlast'
    rw [List.length_reverse] at hcount
    have hpos := List.length_pos_iff.mpr hne
    have hle : last.deleteCodePointCount ≤ indicators.length := by
      rw [hcount]
      split_ifs <;> omega
    rw [reverse_drop_indicators before hle, hcount]
  · intro hspaces' htranslate hstops
    rw [deletesTabStop, hspaces', htranslate, hstops] at hspaces
    cases hspaces

/-! ## One call -/

variable {g : GraphemeCursors} {region : SelRegion} {rope : BTree.Tree Text} {after : List Char}
  {caret : ℕ}

/-- The cluster of a caret is counted just when it is within reach. -/
theorem clusterCount_cases (g : GraphemeCursors) (hrope : rope.flat = cs.reverse ++ after)
    (hne : cs ≠ []) :
    (InReach g rope cs.reverse ∧ ∃ n, Whole cs n ∧
      Settles (clusterCount g rope (bytes cs.reverse).length) (.done n)) ∨
    (¬ InReach g rope cs.reverse ∧
      Settles (clusterCount g rope (bytes cs.reverse).length) .running) := by
  have hwhole := whole_cluster g after hne
  rw [← hrope] at hwhole
  rcases BTree.prevGraphemeOffset_cases g rope hrope (List.reverse_ne_nil_iff.mpr hne) with
    ⟨hreach, hsettles⟩ | ⟨hreach, hsettles⟩
  · exact .inl ⟨hreach, _, hwhole, hsettles.map fun clusterStart ↦
      codepointCountBetween rope.flat (clusterStart.getD 0) (bytes cs.reverse).length⟩
  · exact .inr ⟨hreach, hsettles.bind_running _⟩

theorem clusterInReach_iff {before : Text} (hrope : rope.flat = before ++ after)
    (hcaret : caret = (bytes before).length)
    (hspaces : deletesTabStop config rope.flat caret = false) :
    ClusterInReach cls g config rope caret ↔ (AsksCluster cls before → InReach g rope before) := by
  refine ⟨fun h ↦ h before after hrope hcaret hspaces, fun h u s hu hcaret' _ ↦ ?_⟩
  obtain ⟨rfl, -⟩ := BTree.append_unique (hrope.symm.trans hu) (hcaret.symm.trans hcaret')
  exact h

/-- In the code the edges of a caret are one. -/
theorem offsetForDeleteBackwards_scan (htab : 1 ≤ config.tabSize) (hcaret : region.isCaret = true)
    (hrope : rope.flat = cs.reverse ++ after) (hstart : region.start = (bytes cs.reverse).length)
    (hspaces : deletesTabStop config rope.flat region.start = false) (fuel : ℕ) :
    offsetForDeleteBackwards cls g region rope config fuel =
      (Scan.run cls (clusterCount g rope (bytes cs.reverse).length fuel) ⟨.start, 0, 0⟩ cs).bind
        fun scan ↦ .done (bytes (cs.drop scan.deleteCodePointCount).reverse).length := by
  have hend : region.end_ = (bytes cs.reverse).length :=
    (beq_iff_eq.mp hcaret).symm.trans hstart
  rw [offsetForDeleteBackwards, hcaret, Bool.not_true, if_neg Bool.false_ne_true,
    if_neg (Nat.pos_iff_ne_zero.mp htab)]
  dsimp only
  rw [deletesTabStop] at hspaces
  rw [hspaces, if_neg Bool.false_ne_true, hend, hrope, scanLoop_eq]
  refine congrArg _ (funext fun scan ↦ ?_)
  rw [stepBack_eq]

theorem offsetForDeleteBackwards_tabStop (htab : 1 ≤ config.tabSize)
    (hcaret : region.isCaret = true)
    (hspaces : deletesTabStop config rope.flat region.start = true) (fuel : ℕ) :
    offsetForDeleteBackwards cls g region rope config fuel =
      .done (tabStart rope.flat config region.start) := by
  rw [offsetForDeleteBackwards, hcaret, Bool.not_true, if_neg Bool.false_ne_true,
    if_neg (Nat.pos_iff_ne_zero.mp htab)]
  exact if_pos hspaces

/-- A call returns a whole unit, or the cluster is out of reach and it does not return. -/
theorem offsetForDeleteBackwards_cases (cls : Classification) (g : GraphemeCursors)
    (htab : 1 ≤ config.tabSize) (hcaret : region.isCaret = true) (hpos : 0 < region.start)
    (hboundary : isCharBoundary (bytes rope.flat) region.start = true) :
    (ClusterInReach cls g config rope region.start ∧
      ∃ offset, Settles (offsetForDeleteBackwards cls g region rope config) (.done offset) ∧
        DeletesUnit cls rope.flat config region.start offset) ∨
    (¬ ClusterInReach cls g config rope region.start ∧
      Settles (offsetForDeleteBackwards cls g region rope config) .running) := by
  obtain ⟨before, after, hrope, hlength⟩ := BTree.exists_split hboundary
  obtain ⟨cs, rfl⟩ : ∃ cs : List Char, before = cs.reverse := ⟨before.reverse, by simp⟩
  have hstart := hlength.symm
  have hne : cs ≠ [] := by
    rintro rfl
    exact hpos.ne hlength
  cases hspaces : deletesTabStop config rope.flat region.start with
  | true =>
    refine .inl ⟨fun _ _ _ _ h ↦ ?_, tabStart rope.flat config region.start, ?_, ?_⟩
    · rw [hspaces] at h
      cases h
    · rw [funext (offsetForDeleteBackwards_tabStop htab hcaret hspaces)]
      exact .const _
    · rw [deletesTabStop, Bool.and_eq_true, Bool.and_eq_true] at hspaces
      rw [hrope, hstart] at hspaces ⊢
      exact DeletesUnit.of_tabStop htab hspaces.1.1
  | false =>
    have hunit {asked : Outcome ℕ} {last : Scan}
        (hlast : Scan.run cls asked ⟨.start, 0, 0⟩ cs = .done last)
        (hwhole : Whole cs last.deleteCodePointCount) :
        DeletesUnit cls rope.flat config region.start
          (bytes (cs.drop last.deleteCodePointCount).reverse).length := by
      rw [hrope, hstart] at hspaces ⊢
      exact DeletesUnit.of_scan hspaces hlast hwhole
    rw [clusterInReach_iff hrope hstart hspaces,
      funext (offsetForDeleteBackwards_scan htab hcaret hrope hstart hspaces)]
    by_cases hasks : AsksCluster cls cs.reverse
    · simp only [hasks.run]
      rcases clusterCount_cases g hrope hne with ⟨hreach, n, hwhole, hsettles⟩ |
        ⟨hreach, hsettles⟩
      · refine .inl ⟨fun _ ↦ hreach, _,
          (hsettles.map fun n ↦ (⟨.finished, n, 0⟩ : Scan)).map _, ?_⟩
        have hlast : Scan.run cls (.done n) ⟨.start, 0, 0⟩ cs = .done ⟨.finished, n, 0⟩ := hasks.run
        exact hunit hlast hwhole
      · exact .inr ⟨fun h ↦ hreach (h hasks), (hsettles.bind_running _).bind_running _⟩
    · have hall : Whole cs cs.length :=
        ⟨List.length_pos_iff.mpr hne, Nat.le_refl _,
          fun hcuts ↦ Nat.lt_irrefl _ (List.getElem?_eq_some_iff.mp hcuts.2).1⟩
      obtain ⟨last, hlast, hwhole⟩ := Scan.run_reads cls ⟨_, rfl, hall⟩ hne List.drop_zero
        (Nat.zero_le _) reads_start
      refine .inl ⟨fun h ↦ absurd h hasks, _, ?_, hunit hlast hwhole⟩
      have hrun (fuel : ℕ) : Scan.run cls (clusterCount g rope (bytes cs.reverse).length fuel)
          ⟨.start, 0, 0⟩ cs = .done last := (Scan.run_asks_not hasks).trans hlast
      simp only [hrun]
      exact .const _

/-! ## Again and again -/

variable {state state' : BTree.Tree Text × ℕ} {run : ℕ → BTree.Tree Text × ℕ}

/-- The caret is between two parts of the text. -/
def Stands (state : BTree.Tree Text × ℕ) : Prop :=
  ∃ before after, state.1.flat = before ++ after ∧ state.2 = (bytes before).length

theorem Backspaces.stands (h : Backspaces cls g config state state') :
    Stands state' ∧ state'.2 ≤ state.2 := by
  cases h with
  | delete hrope hrope' hoffset =>
    rename_i before deleted after
    refine ⟨⟨before, after, hrope', rfl⟩, ?_⟩
    rw [BTree.length_bytes_append]
    exact Nat.le_add_right _ _

/-- A step is a call that returned. -/
theorem Backspaces.inReach (htab : 1 ≤ config.tabSize) (hpos : 0 < state.2)
    (h : Backspaces cls g config state state') :
    ClusterInReach cls g config state.1 state.2 ∧ state'.2 < state.2 := by
  cases h with
  | delete hrope hrope' hoffset =>
    rename_i rope rope' before deleted after
    have hboundary := BTree.isCharBoundary_between (before ++ deleted) after
    rw [List.append_assoc, ← hrope] at hboundary
    have hcaret : (SelRegion.new (bytes (before ++ deleted)).length
        (bytes (before ++ deleted)).length).isCaret = true := beq_self_eq_true _
    rcases offsetForDeleteBackwards_cases cls g htab hcaret hpos hboundary with
      ⟨hreach, offset, hsettles, hunit⟩ | ⟨-, hsettles⟩
    · obtain rfl := Outcome.done.inj (hsettles.unique hoffset)
      exact ⟨hreach, hunit.lt⟩
    · cases hsettles.unique hoffset

/-- Some rope of one leaf has what is left. -/
theorem exists_backspaces (htab : 1 ≤ config.tabSize) (hstands : Stands state)
    (hpos : 0 < state.2) (hreach : ClusterInReach cls g config state.1 state.2) :
    ∃ state', Backspaces cls g config state state' := by
  obtain ⟨rope, caret⟩ := state
  obtain ⟨before, after, hrope, rfl⟩ := hstands
  have hboundary := BTree.isCharBoundary_between before after
  rw [← hrope] at hboundary
  have hcaret : (SelRegion.new (bytes before).length (bytes before).length).isCaret = true :=
    beq_self_eq_true _
  rcases offsetForDeleteBackwards_cases cls g htab hcaret hpos hboundary with
    ⟨-, offset, hsettles, hunit⟩ | ⟨hnot, -⟩
  · obtain ⟨u, s, htext, rfl⟩ := BTree.exists_split hunit.boundary
    obtain ⟨deleted, rfl⟩ : ∃ deleted, before = u ++ deleted := by
      rcases List.append_eq_append_iff.mp (hrope.symm.trans htext) with ⟨w, rfl, -⟩ | ⟨w, hw, -⟩
      · have hlt := hunit.lt
        change (bytes (before ++ w)).length < (bytes before).length at hlt
        rw [BTree.length_bytes_append] at hlt
        omega
      · exact ⟨w, hw⟩
    rw [List.append_assoc] at hrope
    exact ⟨(⟨0, u ++ after, .inl rfl⟩, _), .delete hrope (List.append_nil _) hsettles⟩
  · exact absurd hreach hnot

theorem Repeats.stands (hrun : Repeats cls g config run) (h : Stands (run 0)) (i : ℕ) :
    Stands (run i) := by
  induction i with
  | zero => exact h
  | succ i ih =>
    rcases hrun i with hstep | ⟨hstay, -⟩
    · exact hstep.stands.1
    · rwa [hstay]

theorem Repeats.antitone (hrun : Repeats cls g config run) : Antitone fun i ↦ (run i).2 := by
  refine antitone_nat_of_succ_le fun i ↦ ?_
  rcases hrun i with hstep | ⟨hstay, -⟩
  · exact hstep.stands.2
  · rw [hstay]

/-- Where a call does not return, nothing comes after. -/
theorem Repeats.stays (hrun : Repeats cls g config run) {i : ℕ}
    (h : ∀ state, ¬ Backspaces cls g config (run i) state) (j : ℕ) : run (i + j) = run i := by
  induction j with
  | zero => rfl
  | succ j ih =>
    rcases hrun (i + j) with hstep | ⟨hstay, -⟩
    · rw [ih] at hstep
      exact absurd hstep (h _)
    · exact hstay.trans ih

/-- The beginning is reached just when every call on the way finds its cluster within reach. -/
theorem Repeats.reaches_iff (htab : 1 ≤ config.tabSize) (hrun : Repeats cls g config run)
    (hstands : Stands (run 0)) : (∃ n, (run n).2 = 0) ↔
      ∀ n, 0 < (run n).2 → ClusterInReach cls g config (run n).1 (run n).2 := by
  constructor
  · rintro ⟨n, hn⟩ i hi
    rcases hrun i with hstep | ⟨-, hnone⟩
    · exact (hstep.inReach htab hi).1
    · have hzero : (run (i + n)).2 = 0 :=
        Nat.le_zero.mp ((hrun.antitone (Nat.le_add_left n i)).trans_eq hn)
      rw [hrun.stays hnone n] at hzero
      exact absurd hzero hi.ne'
  · intro hreach
    suffices hsuffices : ∀ caret i, (run i).2 = caret → ∃ n, (run n).2 = 0 from
      hsuffices _ 0 rfl
    intro caret
    induction caret using Nat.strong_induction_on with
    | _ caret ih =>
      rintro i rfl
      rcases Nat.eq_zero_or_pos (run i).2 with hzero | hpos
      · exact ⟨i, hzero⟩
      · obtain ⟨state, hstate⟩ :=
          exists_backspaces htab (hrun.stands hstands i) hpos (hreach i hpos)
        rcases hrun i with hstep | ⟨-, hnone⟩
        · exact ih _ (hstep.inReach htab hpos).2 (i + 1) rfl
        · exact absurd hstate (hnone state)

/-- Backspace removes a whole unit just when it finds the cluster that it asks for, and repeated it
comes to the beginning just when each call does. -/
theorem backspace_deletesUnit_iff (cls : Classification) (g : GraphemeCursors)
    (config : BufferItems) (rope : BTree.Tree Text) (region : SelRegion) (htab : 1 ≤ config.tabSize)
    (hcaret : region.isCaret = true) (hpos : 0 < region.start)
    (hboundary : isCharBoundary (bytes rope.flat) region.start = true) :
    ((∃ offset, Settles (offsetForDeleteBackwards cls g region rope config) (.done offset) ∧
      DeletesUnit cls rope.flat config region.start offset) ↔
        ClusterInReach cls g config rope region.start) ∧
    ∀ run : ℕ → BTree.Tree Text × ℕ, run 0 = (rope, region.start) → Repeats cls g config run →
      ((∃ n, (run n).2 = 0) ↔
        ∀ n, 0 < (run n).2 → ClusterInReach cls g config (run n).1 (run n).2) := by
  refine ⟨?_, fun run hzero hrun ↦ hrun.reaches_iff htab ?_⟩
  · rcases offsetForDeleteBackwards_cases cls g htab hcaret hpos hboundary with
      ⟨hreach, hunit⟩ | ⟨hreach, hsettles⟩
    · exact ⟨fun _ ↦ hreach, fun _ ↦ hunit⟩
    · refine ⟨?_, fun h ↦ absurd h hreach⟩
      rintro ⟨offset, hoffset, -⟩
      cases hsettles.unique hoffset
  · obtain ⟨before, after, hrope, hlength⟩ := BTree.exists_split hboundary
    rw [hzero]
    exact ⟨before, after, hrope, hlength.symm⟩

/-! ## Combining marks -/

/-- No emoji. -/
def noEmoji : Classification := xiUnicode [] [] List.not_mem_nil List.not_mem_nil

/-- There is always a step to a rope of one leaf. -/
theorem exists_repeats (cls : Classification) (g : GraphemeCursors) (config : BufferItems)
    (state : BTree.Tree Text × ℕ) : ∃ run, run 0 = state ∧ Repeats cls g config run ∧
      ∀ n, run n = state ∨ (run n).1.height = 0 := by
  have hnext (s : BTree.Tree Text × ℕ) : ∃ s', (Backspaces cls g config s s' ∧ s'.1.height = 0) ∨
      s' = s ∧ ∀ state, ¬ Backspaces cls g config s state := by
    by_cases h : ∃ s', Backspaces cls g config s s'
    · obtain ⟨s', hstep⟩ := h
      cases hstep with
      | delete hrope hrope' hoffset =>
        exact ⟨(⟨0, _, .inl rfl⟩, _), .inl ⟨.delete hrope (List.append_nil _) hoffset, rfl⟩⟩
    · exact ⟨s, .inr ⟨rfl, not_exists.mp h⟩⟩
  choose next hnext using hnext
  refine ⟨fun n ↦ next^[n] state, rfl, fun n ↦ ?_, fun n ↦ ?_⟩
  · dsimp only
    rw [Function.iterate_succ_apply']
    exact (hnext _).imp_left And.left
  · induction n with
    | zero => exact .inl rfl
    | succ n ih =>
      dsimp only at ih ⊢
      rw [Function.iterate_succ_apply']
      rcases hnext (next^[n] state) with ⟨-, hheight⟩ | ⟨hstay, -⟩
      · exact .inr hheight
      · rwa [hstay]

def marks (n : ℕ) : Text := List.replicate n '\u0301'

theorem length_marks (n : ℕ) : (bytes (marks n)).length = n * 2 :=
  BTree.length_bytes_replicate n '\u0301'

/-- The scan asks for the cluster of a selector behind a mark. -/
theorem asksCluster_marks (u : Text) : AsksCluster noEmoji (u ++ ['\u0301', '\uFE00']) :=
  ⟨'\uFE00', '\u0301', u.reverse, List.reverse_append, by decide⟩

/-- A letter with marks and a selector, in two leaves of 1023 and 511 bytes. -/
def nearRope : BTree.Tree Text :=
  .ofLeaves ['a' :: marks 511, marks 253 ++ ['\u0301', '\uFE00']] (by decide) fun l hl ↦ by
    simp only [List.mem_cons, List.not_mem_nil, or_false] at hl
    rcases hl with rfl | rfl
    · exact BTree.len_pos (List.cons_ne_nil _ _)
    · exact BTree.len_pos (List.append_ne_nil_of_right_ne_nil _ (List.cons_ne_nil _ _))

theorem leaves_nearRope :
    nearRope.leaves = ['a' :: marks 511, marks 253 ++ ['\u0301', '\uFE00']] :=
  BTree.Tree.leaves_ofLeaves _ _ _

theorem length_nearRope : (bytes nearRope.flat).length = 1534 := by
  have hflat : nearRope.flat = 'a' :: marks 511 ++ (marks 253 ++ ['\u0301', '\uFE00']) := by
    rw [BTree.Tree.flat, leaves_nearRope]
    change 'a' :: marks 511 ++ (marks 253 ++ ['\u0301', '\uFE00'] ++ []) = _
    rw [List.append_nil]
  rw [hflat, BTree.length_bytes_append, BTree.length_bytes_append, BTree.bytes_cons,
    List.length_append, length_marks, length_marks]
  rfl

theorem clusterInReach_nearRope : ClusterInReach noEmoji BTree.oneCluster ⟨4, true, true⟩ nearRope
    1534 := by
  intro before after _ _ _ _ pre l post hleaves _ _
  have hlength := congrArg List.length hleaves
  rw [leaves_nearRope, List.length_append, List.length_cons] at hlength
  change 2 = _ at hlength
  have hpre : pre.dropLast = [] := by
    refine List.eq_nil_of_length_eq_zero ?_
    rw [List.length_dropLast]
    rw [List.length_cons] at hlength
    omega
  rw [hpre]
  exact .inl rfl

theorem backspace_deletesUnit_near :
    (∃ offset, Settles (offsetForDeleteBackwards noEmoji BTree.oneCluster (.new 1534 1534)
        nearRope ⟨4, true, true⟩) (.done offset) ∧
      DeletesUnit noEmoji nearRope.flat ⟨4, true, true⟩ 1534 offset) ∧
    ∃ run, run 0 = (nearRope, 1534) ∧ Repeats noEmoji BTree.oneCluster ⟨4, true, true⟩ run ∧
      ∃ n, (run n).2 = 0 := by
  have hboundary : isCharBoundary (bytes nearRope.flat) _ = true := isCharBoundary_length
  rw [length_nearRope] at hboundary
  have hiff := backspace_deletesUnit_iff noEmoji BTree.oneCluster ⟨4, true, true⟩ nearRope
    (.new 1534 1534) (by decide) (by decide) (by decide) hboundary
  refine ⟨hiff.1.mpr clusterInReach_nearRope, ?_⟩
  obtain ⟨run, hzero, hrun, hall⟩ :=
    exists_repeats noEmoji BTree.oneCluster ⟨4, true, true⟩ (nearRope, 1534)
  refine ⟨run, hzero, hrun, (hiff.2 run hzero hrun).mpr fun n _ ↦ ?_⟩
  rcases hall n with heq | hheight
  · rw [heq]
    exact clusterInReach_nearRope
  · exact fun _ _ _ _ _ _ ↦ BTree.inReach_of_leaf hheight _

/-- A letter with marks and a selector, in three leaves of 1023, 670 and 511 bytes. -/
def farRope : BTree.Tree Text :=
  .ofLeaves ['a' :: marks 511, marks 335, marks 253 ++ ['\u0301', '\uFE00']] (by decide)
    fun l hl ↦ by
      simp only [List.mem_cons, List.not_mem_nil, or_false] at hl
      rcases hl with rfl | rfl | rfl
      · exact BTree.len_pos (List.cons_ne_nil _ _)
      · exact (length_marks 335).trans_gt (by decide)
      · exact BTree.len_pos (List.append_ne_nil_of_right_ne_nil _ (List.cons_ne_nil _ _))

theorem leaves_farRope :
    farRope.leaves = ['a' :: marks 511, marks 335] ++ [marks 253 ++ ['\u0301', '\uFE00']] :=
  BTree.Tree.leaves_ofLeaves _ _ _

theorem flat_farRope : farRope.flat =
    ('a' :: marks 511 ++ (marks 335 ++ marks 253)) ++ ['\u0301', '\uFE00'] := by
  rw [BTree.Tree.flat, leaves_farRope]
  change 'a' :: marks 511 ++ (marks 335 ++ (marks 253 ++ ['\u0301', '\uFE00'] ++ [])) = _
  rw [List.append_nil, List.append_assoc, List.append_assoc]

theorem length_farRope : (bytes farRope.flat).length = 2204 := by
  rw [flat_farRope, BTree.length_bytes_append, BTree.length_bytes_append,
    BTree.length_bytes_append, BTree.bytes_cons, List.length_append, length_marks, length_marks,
    length_marks]
  rfl

/-- The cluster begins in the first of three leaves, and backspace does not return. -/
theorem backspace_marks_forever : isCharBoundary (bytes farRope.flat) 2204 = true ∧
    Settles (offsetForDeleteBackwards noEmoji BTree.oneCluster (.new 2204 2204) farRope
      ⟨4, false, true⟩) .running ∧
    ¬ ∃ offset, Settles (offsetForDeleteBackwards noEmoji BTree.oneCluster (.new 2204 2204) farRope
        ⟨4, false, true⟩) (.done offset) ∧
      DeletesUnit noEmoji farRope.flat ⟨4, false, true⟩ 2204 offset := by
  have hboundary : isCharBoundary (bytes farRope.flat) _ = true := isCharBoundary_length
  rw [length_farRope] at hboundary
  have hfar : ¬ ClusterInReach noEmoji BTree.oneCluster ⟨4, false, true⟩ farRope 2204 := by
    intro h
    have hasks := asksCluster_marks ('a' :: marks 511 ++ (marks 335 ++ marks 253))
    rw [← flat_farRope] at hasks
    have hreach := h farRope.flat [] (List.append_nil _).symm length_farRope.symm
      (by rw [deletesTabStop, Bool.and_false, Bool.false_and]) hasks
    have hprefix (pre post : List Text) : BTree.lenOf pre ≤ BTree.lenOf (pre ++ post) := by
      rw [BTree.lenOf_append]
      exact Nat.le_add_right _ _
    have hle : BTree.lenOf ['a' :: marks 511, marks 335] ≤ (bytes farRope.flat).length := by
      refine Nat.le_trans ?_ (BTree.len_concat farRope.leaves).ge
      rw [leaves_farRope]
      exact hprefix _ _
    rcases hreach _ _ [] leaves_farRope hle (.inr rfl) with hnil | hlt
    · exact List.cons_ne_nil 'a' _ hnil
    · exact Nat.not_lt_zero _ hlt
  have htab : 1 ≤ (⟨4, false, true⟩ : BufferItems).tabSize := by decide
  have hcaret : (SelRegion.new 2204 2204).isCaret = true := by decide
  rcases offsetForDeleteBackwards_cases noEmoji BTree.oneCluster htab hcaret (by decide)
    hboundary with ⟨hreach, -⟩ | ⟨-, hsettles⟩
  · exact absurd hreach hfar
  · refine ⟨hboundary, hsettles, ?_⟩
    rintro ⟨offset, hoffset, -⟩
    cases hsettles.unique hoffset

end EeEditor.Backspace
