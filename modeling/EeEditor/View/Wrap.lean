import EeEditor.Sequence.Filling
import EeEditor.View.LineBreaks

/-!
# Wrapping a line twice

A line of a rope is wrapped by `RewrapCtx::wrap_one_line` in `xi-core-lib/src/linewrap.rs`, one row
a call; a line of a file that is not loaded is wrapped by `wrap_row_intervals` in
`xi-core-lib/src/view/render.rs`, in one pass. Both fill rows with the words between two
opportunities to break, and come to the same rows. Widths are those of `CodepointMono`: a codepoint
is one unit wide.
-/

namespace EeEditor.BTree

variable (tables : LineBreakTables)

/-! ## Lines of a file -/

/-- The loop of `wrap_row_intervals` that collects the breaks. -/
def collectBreaks (chunk : Text) (lb : LineBreakLeafIter) : ℕ → Outcome (List (ℕ × Bool))
  | 0 => .running
  | fuel + 1 =>
    match lb.next tables chunk with
    | none => .panicked
    | some ((next, hard), lb) =>
      if Leaf.len chunk ≤ next then .done [(min next (Leaf.len chunk), hard)]
      else (collectBreaks chunk lb fuel).bind fun breaks ↦
        .done ((min next (Leaf.len chunk), hard) :: breaks)

/-- The loop of `wrap_row_intervals` over the breaks. -/
def pushRows (chunk : Text) (maxWidth : ℕ) :
    List (ℕ × Bool) → (rowStart rowWidth pos : ℕ) → Option (List (ℕ × ℕ))
  | [], rowStart, _, _ => some (if rowStart < Leaf.len chunk then [(rowStart, Leaf.len chunk)]
                            else [])
  | (next, hard) :: breaks, rowStart, rowWidth, pos =>
    match sliceText chunk pos next with
    | none => none
    | some word =>
      let width := word.length
      if hard then
        if rowWidth ≠ 0 ∧ maxWidth < width + rowWidth then
          (pushRows chunk maxWidth breaks next 0 next).map fun rows ↦
            (rowStart, pos) :: (pos, next) :: rows
        else (pushRows chunk maxWidth breaks next 0 next).map ((rowStart, next) :: ·)
      else if rowWidth = 0 ∧ maxWidth ≤ width then
        (pushRows chunk maxWidth breaks next 0 next).map ((rowStart, next) :: ·)
      else if maxWidth < rowWidth + width then
        (pushRows chunk maxWidth breaks pos width next).map ((rowStart, pos) :: ·)
      else pushRows chunk maxWidth breaks rowStart (rowWidth + width) next

def wrapRowIntervals (chunk : Text) (cols : ℕ) (fuel : ℕ) : Outcome (List (ℕ × ℕ)) :=
  if chunk = [] then .done [(0, 0)]
  else (Outcome.ofOption (LineBreakLeafIter.new tables chunk 0)).bind fun lb ↦
    (collectBreaks tables chunk lb fuel).bind fun breaks ↦
      Outcome.ofOption (pushRows chunk cols breaks 0 0 0)

/-! ## Lines of a rope -/

variable {h : ℕ} {root : Node Text h}

/-- A break that may be taken: the end of a word, the width to which its token is resolved, and
whether the break is hard. -/
structure PotentialBreak where
  pos : ℕ
  width : ℕ
  hard : Bool

structure RewrapCtx (root : Node Text h) where
  lbCursor : LineBreakCursor root
  lbCursorPos : ℕ
  potBreaks : List PotentialBreak
  potBreakIx : ℕ
  maxWidth : ℕ

def maxPotBreaks : ℕ := 10000

namespace RewrapCtx

def new (root : Node Text h) (maxWidth start : ℕ) : Option (RewrapCtx root) := do
  let lbCursor ← LineBreakCursor.new tables root start
  return ⟨lbCursor, start, [], 0, maxWidth⟩

/-- The loop of `refill_pot_breaks`, with the room that is left in the list. -/
def refillLoop (fuel : ℕ) : (room : ℕ) → LineBreakCursor root → (pos : ℕ) → List PotentialBreak →
    Outcome (LineBreakCursor root × ℕ × List PotentialBreak)
  | 0, lbCursor, pos, potBreaks => .done (lbCursor, pos, potBreaks)
  | room + 1, lbCursor, pos, potBreaks =>
    if root.len ≤ pos then .done (lbCursor, pos, potBreaks)
    else (lbCursor.next tables fuel).bind fun ((next, hard), lbCursor) ↦
      match sliceText (concat (root.leaves h)) pos next with
      | none => .panicked
      | some word =>
        refillLoop fuel room lbCursor next (potBreaks ++ [⟨next, word.length, hard⟩])

def refillPotBreaks (self : RewrapCtx root) (fuel : ℕ) : Outcome (RewrapCtx root) :=
  (refillLoop tables fuel maxPotBreaks self.lbCursor self.lbCursorPos []).bind
    fun (lbCursor, lbCursorPos, potBreaks) ↦
      .done { self with lbCursor, lbCursorPos, potBreaks, potBreakIx := 0 }

def advance (self : RewrapCtx root) : RewrapCtx root :=
  { self with potBreakIx := self.potBreakIx + 1 }

/-- What a round of `wrap_one_line` returns at a break, if it does not go on to the next one. -/
def rowEnd (self : RewrapCtx root) (potBreak : PotentialBreak) (lineWidth pos : ℕ) :
    Option (Option ℕ × RewrapCtx root) :=
  if potBreak.hard = false then
    if lineWidth = 0 ∧ self.maxWidth ≤ potBreak.width then
      -- soft breaks at the end of the text do not count
      some (if potBreak.pos = root.len then (none, self) else (some potBreak.pos, self.advance))
    else if self.maxWidth < lineWidth + potBreak.width then some (some pos, self)
    else none
  else if lineWidth ≠ 0 ∧ self.maxWidth < potBreak.width + lineWidth then some (some pos, self)
  else some (some potBreak.pos, self.advance)

/-- The loop of `wrap_one_line`. -/
def wrapOneLineLoop (self : RewrapCtx root) (lineWidth pos : ℕ) :
    ℕ → Outcome (Option ℕ × RewrapCtx root)
  | 0 => .running
  | fuel + 1 =>
    if root.len ≤ pos then .done (none, self)
    else (if self.potBreaks.length ≤ self.potBreakIx then self.refillPotBreaks tables fuel
        else .done self).bind fun self ↦
      match self.potBreaks[self.potBreakIx]? with
      | none => .panicked
      | some potBreak =>
        match self.rowEnd potBreak lineWidth pos with
        | some r => .done r
        | none => wrapOneLineLoop self.advance (lineWidth + potBreak.width) potBreak.pos fuel

def wrapOneLine (self : RewrapCtx root) (start : ℕ) (fuel : ℕ) :
    Outcome (Option ℕ × RewrapCtx root) :=
  self.wrapOneLineLoop tables 0 start fuel

/-- The loop of `do_wrap_task` from a position, as the rows that it makes. -/
def wrapLoop (self : RewrapCtx root) (pos : ℕ) : ℕ → Outcome (List (ℕ × ℕ))
  | 0 => .running
  | fuel + 1 =>
    (self.wrapOneLine tables pos fuel).bind fun (newNext, self) ↦
      match newNext with
      | none => .done [(pos, root.len)]
      | some next =>
        if next = root.len then .done [(pos, next)]
        else (wrapLoop self next fuel).bind fun rows ↦ .done ((pos, next) :: rows)

end RewrapCtx

/-- The rows of a rope that is wrapped from its beginning. -/
def rewrapRows (root : Node Text h) (cols : ℕ) (fuel : ℕ) : Outcome (List (ℕ × ℕ)) :=
  (Outcome.ofOption (RewrapCtx.new tables root cols 0)).bind fun ctx ↦ ctx.wrapLoop tables 0 fuel

/-! ## The words of a text -/

/-- A word takes the bytes of its encoding and is as wide as it has codepoints; a hard break closes
the row. -/
def toWord (w : Text × Bool) : Word := ⟨Leaf.len w.1, w.1.length, w.2⟩

/-- The breaks after the words. -/
def stops (p : ℕ) : List (Text × Bool) → List (ℕ × Bool)
  | [] => []
  | (w, hard) :: ws => (p + Leaf.len w, hard) :: stops (p + Leaf.len w) ws

variable {tables} {chunk word rest : Text} {state : UInt8} {ws : List (Text × Bool)} {p cols : ℕ}

theorem proper_map_toWord (hws : ∀ w ∈ ws, w.1 ≠ []) : Word.Proper (ws.map toWord) := by
  intro w hw
  obtain ⟨v, hv, rfl⟩ := List.mem_map.mp hw
  exact ⟨len_pos (hws v hv), List.length_pos_of_ne_nil (hws v hv)⟩

theorem extent_toWord (ws : List (Text × Bool)) :
    extent Word.size (ws.map toWord) = Leaf.len (joined ws) := by
  induction ws with
  | nil => rfl
  | cons w ws ih =>
    rw [List.map_cons, extent_cons, ih]
    exact (len_append w.1 (joined ws)).symm

theorem sliceText_append (a w b : Text) :
    sliceText (a ++ (w ++ b)) (Leaf.len a) (Leaf.len a + Leaf.len w) = some w := by
  rw [← List.append_assoc, ← len_append, sliceText, splitOff_append, Option.bind_eq_bind,
    Option.bind_some]
  dsimp only
  rw [splitOff_append]
  rfl

/-! ## Both wrap alike -/

/-- The breaks that are collected are those after the words. -/
theorem collectBreaks_stops {u : Text} {lb : LineBreakLeafIter} (hchunk : chunk = u ++ rest)
    (hix : lb.ix = Leaf.len u) (hp : p + Leaf.len word = Leaf.len u) :
    Settles (collectBreaks tables chunk lb)
      (.done (stops p (wordsFrom tables false lb.state word rest))) := by
  induction hn : rest.length using Nat.strong_induction_on generalizing u rest lb p word with
  | h n ih =>
    subst hn
    have hnext := LineBreakLeafIter.next_append tables hix rest
    rcases nextLoop_cases tables lb.state lb.ix rest with
      ⟨a, c, b, state', hard, hrest, hloop, hwords⟩ | ⟨state', hloop, hwords⟩
    · have hstop : p + Leaf.len (word ++ a) = lb.ix + Leaf.len a := by
        rw [len_append]
        omega
      have hpos : 0 < Leaf.len (c :: b) := len_pos (List.cons_ne_nil c b)
      have hlt : lb.ix + Leaf.len a < Leaf.len chunk := by
        rw [hchunk, hrest, len_append, len_append]
        omega
      have hchunk' : chunk = u ++ (a ++ [c]) ++ b := by
        rw [hchunk, hrest, List.append_assoc, List.append_assoc]
        rfl
      have hix' : lb.ix + Leaf.len (a ++ [c]) = Leaf.len (u ++ (a ++ [c])) := by
        rw [len_append u, hix]
      have hp' : p + Leaf.len (word ++ a) + Leaf.len [c] = Leaf.len (u ++ (a ++ [c])) := by
        rw [hstop, ← hix', len_append a, Nat.add_assoc]
      have hless : b.length < rest.length := by
        rw [hrest, List.length_append, List.length_cons]
        omega
      have hsettles : Settles (collectBreaks tables chunk ⟨lb.ix + Leaf.len (a ++ [c]), state'⟩)
          (.done (stops (p + Leaf.len (word ++ a)) (wordsFrom tables false state' [c] b))) :=
        ih b.length hless hchunk' hix' hp' rfl
      have hall := hwords word [] false
      rw [List.append_nil, List.append_nil] at hall
      rw [hall, stops]
      refine (hsettles.map fun breaks ↦ (p + Leaf.len (word ++ a), hard) :: breaks).succ
        fun fuel ↦ ?_
      rw [collectBreaks, hchunk, hnext, hloop, ← hchunk]
      dsimp only
      rw [if_neg (Nat.not_le.mpr hlt), Nat.min_eq_left hlt.le, hstop]
    · have hall := hwords word [] false
      rw [List.append_nil, wordsFrom] at hall
      have hend : lb.ix + Leaf.len rest = Leaf.len chunk := by rw [hchunk, len_append, hix]
      have hstop : p + Leaf.len (word ++ rest) = Leaf.len chunk := by
        rw [len_append]
        omega
      rw [hall, stops, stops, hstop]
      refine ⟨1, fun k ↦ ?_⟩
      rw [Nat.add_comm, collectBreaks, hchunk, hnext, hloop, ← hchunk]
      dsimp only
      rw [hend, if_pos (Nat.le_refl _), Nat.min_self]

/-- The pass over the breaks makes the rows of the words. -/
theorem pushRows_eq {a : Text} {rowStart rowWidth : ℕ} (hchunk : chunk = a ++ joined ws)
    (hws : ∀ w ∈ ws, w.1 ≠ []) (hcols : 0 < cols) :
    pushRows chunk cols (stops (Leaf.len a) ws) rowStart rowWidth (Leaf.len a) =
      some (Word.rows cols rowStart rowWidth (Leaf.len a) (ws.map toWord)) := by
  induction ws generalizing a rowStart rowWidth with
  | nil =>
    have hlen : Leaf.len chunk = Leaf.len a := by
      rw [hchunk, joined, List.flatMap_nil, List.append_nil]
    rw [stops, pushRows, hlen]
    rfl
  | cons w ws ih =>
    obtain ⟨word, hard⟩ := w
    have hproper := proper_map_toWord hws
    have hslice : sliceText chunk (Leaf.len a) (Leaf.len a + Leaf.len word) = some word := by
      rw [hchunk]
      exact sliceText_append a word (joined ws)
    have hrest : ∀ start width,
        pushRows chunk cols (stops (Leaf.len a + Leaf.len word) ws) start width
          (Leaf.len a + Leaf.len word) = some (Word.rows cols start width
            (Leaf.len a + Leaf.len word) (ws.map toWord)) := by
      intro start width
      rw [← len_append]
      refine ih ?_ fun w hw ↦ hws w (List.mem_cons_of_mem _ hw)
      rw [hchunk, List.append_assoc]
      rfl
    rw [stops, pushRows, hslice]
    simp only [hrest, Option.map_some]
    rw [List.map_cons] at hproper ⊢
    cases hard with
    | true =>
      rw [if_pos rfl, Word.rows]
      simp only [toWord, true_or, if_true, Nat.add_comm word.length rowWidth]
      split <;> rfl
    | false =>
      rw [if_neg Bool.false_ne_true]
      split
      case isTrue hwide =>
        obtain ⟨rfl, hwide⟩ := hwide
        rw [Word.rows_fresh, if_pos (.inr hwide)]
        rfl
      case isFalse hnarrow =>
        split
        case isTrue hover =>
          -- the word that does not fit is left open, even if it fills the row
          have hwidth : rowWidth ≠ 0 := by
            rintro rfl
            exact hnarrow ⟨rfl, by omega⟩
          rw [Word.rows_overflow hwidth hover, Word.rows_fresh_open hproper hcols rfl]
          rfl
        case isFalse hfits =>
          rw [Word.rows, if_neg fun hover ↦ hfits hover.2, if_neg]
          · rfl
          · rintro (hclosed | hwide)
            · cases hclosed
            · exact hnarrow hwide

/-- The breaks that may be taken after the words. -/
def potBreaksOf (p : ℕ) : List (Text × Bool) → List PotentialBreak
  | [] => []
  | (w, hard) :: ws => ⟨p + Leaf.len w, w.length, hard⟩ :: potBreaksOf (p + Leaf.len w) ws

namespace RewrapCtx

open LineBreakCursor

/-- The words from `a` on are still to come: some wait in the list, the others are read when it is
used up. -/
structure Holds (tables : LineBreakTables) (ctx : RewrapCtx root) (a : Text)
    (ws : List (Text × Bool)) : Prop where
  text : concat (root.leaves h) = a ++ joined ws
  nonempty : ∀ w ∈ ws, w.1 ≠ []
  split : ∃ ws₁ ws₂, ws = ws₁ ++ ws₂ ∧
    ctx.potBreaks.drop ctx.potBreakIx = potBreaksOf (Leaf.len a) ws₁ ∧
    ctx.lbCursorPos = Leaf.len (a ++ joined ws₁) ∧ Yields tables ctx.lbCursor ctx.lbCursorPos ws₂

variable {a w : Text} {hard : Bool} {self : RewrapCtx root} {lbCursor : LineBreakCursor root}

theorem len_root (root : Node Text h) : root.len = Leaf.len (concat (root.leaves h)) := by
  rw [len_concat, Node.len_eq]

/-- Refilling reads as many words as there is room for. -/
theorem refillLoop_settles (room : ℕ) (hyields : Yields tables lbCursor (Leaf.len a) ws)
    (htext : concat (root.leaves h) = a ++ joined ws) (hws : ∀ w ∈ ws, w.1 ≠ [])
    (potBreaks : List PotentialBreak) :
    ∃ lbCursor', Settles (fun fuel ↦ refillLoop tables fuel room lbCursor (Leaf.len a) potBreaks)
        (.done (lbCursor', Leaf.len (a ++ joined (ws.take room)),
          potBreaks ++ potBreaksOf (Leaf.len a) (ws.take room))) ∧
      Yields tables lbCursor' (Leaf.len (a ++ joined (ws.take room))) (ws.drop room) := by
  induction room generalizing lbCursor a ws potBreaks with
  | zero =>
    refine ⟨lbCursor, ?_, ?_⟩
    · rw [List.take_zero, potBreaksOf, List.append_nil, joined, List.flatMap_nil, List.append_nil]
      exact .const _
    · rw [List.take_zero, joined, List.flatMap_nil, List.append_nil]
      exact hyields
  | succ room ih =>
    have hlen := len_root root
    rw [htext, len_append] at hlen
    cases ws with
    | nil =>
      have hend : root.len ≤ Leaf.len a := hlen.le
      refine ⟨lbCursor, ?_, ?_⟩
      · simp only [refillLoop, if_pos hend]
        rw [List.take_nil, potBreaksOf, List.append_nil, joined, List.flatMap_nil, List.append_nil]
        exact .const _
      · rw [List.take_nil, joined, List.flatMap_nil, List.append_nil]
        exact hyields
    | cons v ws =>
      obtain ⟨w, hard⟩ := v
      have hpos : 0 < Leaf.len w := len_pos (hws (w, hard) List.mem_cons_self)
      have hsize : Leaf.len (joined ((w, hard) :: ws)) = Leaf.len w + Leaf.len (joined ws) :=
        len_append w (joined ws)
      have hnotEnd : ¬ root.len ≤ Leaf.len a := by omega
      have hslice : sliceText (concat (root.leaves h)) (Leaf.len a) (Leaf.len a + Leaf.len w) =
          some w := by
        rw [htext]
        exact sliceText_append a w (joined ws)
      have htext' : concat (root.leaves h) = a ++ w ++ joined ws := by
        rw [htext, List.append_assoc]
        rfl
      obtain ⟨next, hnext, hyields⟩ := hyields.next
      rw [← len_append] at hyields
      obtain ⟨lbCursor', hsettles, hyields'⟩ := ih hyields htext'
        (fun w hw ↦ hws w (List.mem_cons_of_mem _ hw))
        (potBreaks ++ [⟨Leaf.len a + Leaf.len w, w.length, hard⟩])
      rw [List.append_assoc] at hyields'
      refine ⟨lbCursor', ?_, hyields'⟩
      simp only [refillLoop, if_neg hnotEnd]
      refine hnext.bind ?_
      dsimp only
      rw [hslice]
      dsimp only
      rw [List.take_succ_cons, potBreaksOf]
      rw [List.append_assoc, len_append a w, List.append_assoc] at hsettles
      exact hsettles

/-- A word that waits is at the index, and is passed over by `advance`. -/
theorem Holds.head {ws₁ ws₂ : List (Text × Bool)} (hself : self.Holds tables a ((w, hard) :: ws))
    (hws : ws = ws₁ ++ ws₂)
    (hdrop : self.potBreaks.drop self.potBreakIx = potBreaksOf (Leaf.len a) ((w, hard) :: ws₁))
    (hpos : self.lbCursorPos = Leaf.len (a ++ joined ((w, hard) :: ws₁)))
    (hyields : Yields tables self.lbCursor self.lbCursorPos ws₂) :
    self.potBreaks[self.potBreakIx]? = some ⟨Leaf.len a + Leaf.len w, w.length, hard⟩ ∧
      self.advance.Holds tables (a ++ w) ws := by
  refine ⟨?_, ?_, fun w hw ↦ hself.nonempty w (List.mem_cons_of_mem _ hw), ws₁, ws₂, hws, ?_, ?_,
    hyields⟩
  · have hget := congrArg (·[0]?) hdrop
    rwa [List.getElem?_drop] at hget
  · rw [hself.text, List.append_assoc]
    rfl
  · rw [advance, ← List.tail_drop, hdrop, len_append]
    rfl
  · rw [List.append_assoc]
    exact hpos

/-- The next word is at hand, after the list has been filled again if it was used up. -/
theorem Holds.prepare (hself : self.Holds tables a ((w, hard) :: ws)) :
    ∃ self' : RewrapCtx root, Settles (fun fuel ↦ if self.potBreaks.length ≤ self.potBreakIx then
        self.refillPotBreaks tables fuel else .done self) (.done self') ∧
      self'.maxWidth = self.maxWidth ∧ self'.Holds tables a ((w, hard) :: ws) ∧
      self'.potBreaks[self'.potBreakIx]? = some ⟨Leaf.len a + Leaf.len w, w.length, hard⟩ ∧
      self'.advance.Holds tables (a ++ w) ws := by
  obtain ⟨ws₁, ws₂, hws, hdrop, hpos, hyields⟩ := hself.split
  cases ws₁ with
  | cons v ws₁ =>
    obtain ⟨rfl, htail⟩ := List.cons.inj hws
    have hlt : ¬ self.potBreaks.length ≤ self.potBreakIx := by
      intro hge
      rw [List.drop_of_length_le hge] at hdrop
      cases hdrop
    refine ⟨self, ?_, rfl, hself, hself.head htail hdrop hpos hyields⟩
    simp only [if_neg hlt]
    exact .const _
  | nil =>
    have hge : self.potBreaks.length ≤ self.potBreakIx := List.drop_eq_nil_iff.mp hdrop
    obtain ⟨n, hn⟩ : ∃ n, maxPotBreaks = n + 1 := ⟨9999, rfl⟩
    rw [joined, List.flatMap_nil, List.append_nil] at hpos
    rw [List.nil_append] at hws
    rw [hpos, ← hws] at hyields
    obtain ⟨lbCursor, hsettles, hyields'⟩ :=
      refillLoop_settles (n + 1) hyields hself.text hself.nonempty []
    rw [List.nil_append] at hsettles
    have hheld : Holds tables (RewrapCtx.mk lbCursor
        (Leaf.len (a ++ joined (((w, hard) :: ws).take (n + 1))))
        (potBreaksOf (Leaf.len a) (((w, hard) :: ws).take (n + 1))) 0 self.maxWidth) a
        ((w, hard) :: ws) :=
      ⟨hself.text, hself.nonempty, _, _, (List.take_append_drop (n + 1) _).symm, rfl, rfl, hyields'⟩
    refine ⟨RewrapCtx.mk lbCursor _ _ 0 self.maxWidth, ?_, rfl, hheld,
      hheld.head (List.take_append_drop n ws).symm rfl rfl hyields'⟩
    simp only [if_pos hge, refillPotBreaks, hn, hpos]
    exact hsettles.map fun x ↦ RewrapCtx.mk x.1 x.2.1 x.2.2 0 self.maxWidth

theorem Holds.len_le (hself : self.Holds tables a ws) : Leaf.len a ≤ root.len := by
  rw [len_root, hself.text, len_append]
  exact Nat.le_add_right _ _

theorem Holds.eq_nil (hself : self.Holds tables a ws) (hend : Leaf.len a = root.len) : ws = [] := by
  cases ws with
  | nil => rfl
  | cons v ws =>
    have hpos : 0 < Leaf.len v.1 := len_pos (hself.nonempty v List.mem_cons_self)
    have hsize : Leaf.len (joined (v :: ws)) = Leaf.len v.1 + Leaf.len (joined ws) :=
      len_append v.1 (joined ws)
    have hlen := len_root root
    rw [hself.text, len_append] at hlen
    omega

/-- A round reads the next word, and returns or goes on. -/
theorem Holds.round (hself : self.Holds tables a ((w, hard) :: ws)) (lineWidth : ℕ) :
    ∃ self' : RewrapCtx root, self'.maxWidth = self.maxWidth ∧
      self'.Holds tables a ((w, hard) :: ws) ∧ self'.advance.Holds tables (a ++ w) ws ∧
      match self'.rowEnd ⟨Leaf.len a + Leaf.len w, w.length, hard⟩ lineWidth (Leaf.len a) with
      | some r => Settles (self.wrapOneLineLoop tables lineWidth (Leaf.len a)) (.done r)
      | none => ∀ r, Settles (self'.advance.wrapOneLineLoop tables (lineWidth + w.length)
          (Leaf.len (a ++ w))) r → Settles (self.wrapOneLineLoop tables lineWidth (Leaf.len a))
            r := by
  obtain ⟨self', hsettles, hmax, hself', hhead, hnext⟩ := hself.prepare
  have hnotEnd : ¬ root.len ≤ Leaf.len a := fun hge ↦
    absurd (hself.eq_nil (Nat.le_antisymm hself.len_le hge)) (List.cons_ne_nil _ _)
  refine ⟨self', hmax, hself', hnext, ?_⟩
  split
  case h_1 r hend =>
    obtain ⟨n, hn⟩ := hsettles
    refine ⟨n + 1, fun k ↦ ?_⟩
    have hn' := hn k
    dsimp only at hn'
    rw [Nat.add_right_comm, wrapOneLineLoop, if_neg hnotEnd, hn', Outcome.done_bind, hhead]
    dsimp only
    rw [hend]
  case h_2 hon =>
    intro r hr
    obtain ⟨n, hn⟩ := hsettles
    obtain ⟨m, hm⟩ := hr
    refine ⟨n + m + 1, fun k ↦ ?_⟩
    have hn' := hn (m + k)
    have hm' := hm (n + k)
    dsimp only at hn'
    rw [Nat.add_right_comm, wrapOneLineLoop, if_neg hnotEnd, Nat.add_assoc, hn', Outcome.done_bind,
      hhead]
    dsimp only
    rw [hon]
    dsimp only
    rw [← len_append, ← Nat.add_assoc, Nat.add_comm n m, Nat.add_assoc, hm']

/-- A call of `wrap_one_line` ends the row that is open, and keeps the words after it. -/
theorem Holds.wrapOneLineLoop_rows {start lineWidth : ℕ} (hself : self.Holds tables a ws)
    (hcols : self.maxWidth = cols) (hstart : start ≤ Leaf.len a)
    (hopen : lineWidth ≠ 0 → start < Leaf.len a) (hclosed : lineWidth = 0 → ws ≠ []) :
    (∃ self' : RewrapCtx root, ∃ b ws',
      Settles (self.wrapOneLineLoop tables lineWidth (Leaf.len a))
        (.done (some (Leaf.len b), self')) ∧
      self'.maxWidth = cols ∧ self'.Holds tables b ws' ∧ start < Leaf.len b ∧
      Word.rows cols start lineWidth (Leaf.len a) (ws.map toWord) =
        (start, Leaf.len b) :: Word.rows cols (Leaf.len b) 0 (Leaf.len b) (ws'.map toWord)) ∨
    ∃ self' : RewrapCtx root,
      Settles (self.wrapOneLineLoop tables lineWidth (Leaf.len a)) (.done (none, self')) ∧
      Word.rows cols start lineWidth (Leaf.len a) (ws.map toWord) = [(start, root.len)] := by
  have hlen := len_root root
  induction ws generalizing self a lineWidth with
  | nil =>
    rw [hself.text, joined, List.flatMap_nil, List.append_nil] at hlen
    have hwidth : lineWidth ≠ 0 := fun hzero ↦ hclosed hzero rfl
    refine .inr ⟨self, ⟨1, fun k ↦ ?_⟩, ?_⟩
    · rw [Nat.add_comm, wrapOneLineLoop, if_pos hlen.le]
    · rw [List.map_nil, Word.rows, if_pos (hopen hwidth), hlen]
  | cons v ws ih =>
    obtain ⟨w, hard⟩ := v
    have hne : w ≠ [] := hself.nonempty (w, hard) List.mem_cons_self
    have hpos : 0 < Leaf.len w := len_pos hne
    have hwide : 0 < w.length := List.length_pos_of_ne_nil hne
    have hnext : Leaf.len a + Leaf.len w = Leaf.len (a ++ w) := (len_append a w).symm
    obtain ⟨self', hmax, hself', hadvance, hround⟩ := hself.round lineWidth
    rw [hcols] at hmax
    have hmax' : self'.advance.maxWidth = cols := hmax
    have hword : toWord (w, hard) = ⟨Leaf.len w, w.length, hard⟩ := rfl
    rw [List.map_cons, hword]
    have hlt : start < Leaf.len (a ++ w) := by omega
    rw [rowEnd, hmax] at hround
    dsimp only at hround
    cases hard with
    | true =>
      rw [if_neg (by decide)] at hround
      by_cases hover : lineWidth ≠ 0 ∧ cols < w.length + lineWidth
      · rw [if_pos hover] at hround
        refine .inl ⟨self', a, _, hround, hmax, hself', hopen hover.1, ?_⟩
        exact Word.rows_overflow hover.1 (Nat.add_comm w.length lineWidth ▸ hover.2)
      · rw [if_neg hover, hnext] at hround
        refine .inl ⟨_, a ++ w, ws, hround, hmax', hadvance, hlt, ?_⟩
        rw [Nat.add_comm] at hover
        rw [Word.rows, if_neg hover, if_pos (.inl rfl), ← hnext]
    | false =>
      rw [if_pos rfl] at hround
      by_cases hfull : lineWidth = 0 ∧ cols ≤ w.length
      · rw [if_pos hfull, hnext] at hround
        obtain ⟨rfl, hfull⟩ := hfull
        rw [Word.rows_fresh, if_pos (.inr hfull), hnext]
        by_cases hend : Leaf.len (a ++ w) = root.len
        · rw [if_pos hend] at hround
          refine .inr ⟨_, hround, ?_⟩
          rw [hadvance.eq_nil hend, List.map_nil, Word.rows, if_neg (Nat.lt_irrefl _), hend]
        · rw [if_neg hend] at hround
          exact .inl ⟨_, a ++ w, ws, hround, hmax', hadvance, hlt, rfl⟩
      · rw [if_neg hfull] at hround
        by_cases hover : cols < lineWidth + w.length
        · have hwidth : lineWidth ≠ 0 := by
            rintro rfl
            exact hfull ⟨rfl, by omega⟩
          rw [if_pos hover] at hround
          exact .inl ⟨self', a, _, hround, hmax, hself', hopen hwidth,
            Word.rows_overflow hwidth hover⟩
        · rw [if_neg hover] at hround
          have hrows : Word.rows cols start lineWidth (Leaf.len a)
              (⟨Leaf.len w, w.length, false⟩ :: ws.map toWord) =
                Word.rows cols start (lineWidth + w.length) (Leaf.len (a ++ w))
                  (ws.map toWord) := by
            rw [Word.rows, if_neg fun h ↦ hover h.2, if_neg, ← hnext]
            rintro (hclosed | hwide)
            · cases hclosed
            · exact hfull hwide
          have hne' : lineWidth + w.length ≠ 0 := by omega
          rw [hrows]
          rcases ih hadvance hmax' hlt.le (fun _ ↦ hlt)
            (fun hzero ↦ absurd hzero hne') with
            ⟨next, b, ws', hsettles, hrest⟩ | ⟨next, hsettles, hrest⟩
          · exact .inl ⟨next, b, ws', hround _ hsettles, hrest⟩
          · exact .inr ⟨next, hround _ hsettles, hrest⟩

/-- The rows of the calls that follow one another. -/
theorem Holds.wrapLoop_rows (hself : self.Holds tables a ws) (hcols : self.maxWidth = cols)
    (hws : ws ≠ []) :
    Settles (self.wrapLoop tables (Leaf.len a))
      (.done (Word.rows cols (Leaf.len a) 0 (Leaf.len a) (ws.map toWord))) := by
  induction hn : root.len - Leaf.len a using Nat.strong_induction_on generalizing self a ws with
  | h n ih =>
    rcases hself.wrapOneLineLoop_rows hcols (Nat.le_refl _) (fun hne ↦ absurd rfl hne)
      (fun _ ↦ hws) with ⟨self', b, ws', hsettles, hmax, hself', hlt, hrows⟩ |
        ⟨self', hsettles, hrows⟩
    · obtain ⟨m, hm⟩ := hsettles
      rw [hrows]
      by_cases hend : Leaf.len b = root.len
      · rw [hself'.eq_nil hend, List.map_nil, Word.rows, if_neg (Nat.lt_irrefl _)]
        refine ⟨m + 1, fun k ↦ ?_⟩
        rw [Nat.add_right_comm, wrapLoop, wrapOneLine, hm, Outcome.done_bind]
        dsimp only
        rw [if_pos hend]
      · have hws' : ws' ≠ [] := by
          rintro rfl
          rw [len_root, hself'.text, joined, List.flatMap_nil, List.append_nil] at hend
          exact hend rfl
        have hle := hself'.len_le
        obtain ⟨m', hm'⟩ := ih _ (by omega) hself' hmax hws' rfl
        refine ⟨m + m' + 1, fun k ↦ ?_⟩
        have hone := hm (m' + k)
        have hrest := hm' (m + k)
        rw [Nat.add_right_comm, wrapLoop, wrapOneLine, Nat.add_assoc, hone, Outcome.done_bind]
        dsimp only
        rw [if_neg hend, ← Nat.add_assoc, Nat.add_comm m m', Nat.add_assoc, hrest]
        rfl
    · obtain ⟨m, hm⟩ := hsettles
      rw [hrows]
      refine ⟨m + 1, fun k ↦ ?_⟩
      rw [Nat.add_right_comm, wrapLoop, wrapOneLine, hm, Outcome.done_bind]

end RewrapCtx

/-- A line of a file that is not loaded is wrapped like a rope of the same text: both passes end,
and with the same rows, which follow one another from the beginning of the line to its end. -/
theorem wrapRowIntervals_rewrap (tables : LineBreakTables) (t : Tree Text) (cols : ℕ)
    (hcols : 0 < cols) :
    ∃ rows, Settles (wrapRowIntervals tables t.flat cols) (.done rows) ∧
      Settles (rewrapRows tables t.root cols) (.done rows) ∧
      Word.Consecutive 0 rows (Leaf.len t.flat) := by
  cases htext : t.flat with
  | nil =>
    have hlen : t.root.len = 0 := (RewrapCtx.len_root t.root).trans (congrArg Leaf.len htext)
    obtain ⟨lbCursor, hnew⟩ := LineBreakCursor.new_empty tables t.integrity htext
    refine ⟨[(0, 0)], .const _, ⟨2, fun k ↦ ?_⟩, rfl, Nat.le_refl 0, rfl⟩
    rw [rewrapRows, RewrapCtx.new, hnew, Nat.add_comm]
    change Outcome.bind (RewrapCtx.wrapOneLineLoop tables _ 0 0 (k + 1)) _ = _
    rw [RewrapCtx.wrapOneLineLoop, if_pos hlen.le, Outcome.done_bind, hlen]
  | cons c s =>
    obtain ⟨lbCursor, last, hnew, hyields⟩ := LineBreakCursor.new_yields tables t.integrity htext
    obtain ⟨ws, w, hws⟩ := wordsFrom_last tables (tables.linebreakProperty c) [c] s
    have hne : ∀ last, ∀ v ∈ ws ++ [(w, last)], v.1 ≠ [] := by
      intro last v hv
      rw [← hws last] at hv
      exact ne_nil_of_mem_wordsFrom (List.cons_ne_nil c []) hv
    have hjoined : ∀ last, joined (ws ++ [(w, last)]) = c :: s := fun last ↦ by
      rw [← hws last, joined_wordsFrom]
      rfl
    have hrows : Word.rows cols 0 0 0 ((ws ++ [(w, false)]).map toWord) =
        Word.rows cols 0 0 0 ((ws ++ [(w, last)]).map toWord) := by
      have hproper := proper_map_toWord (hne false)
      rw [List.map_append] at hproper
      rw [List.map_append, List.map_append]
      exact Word.rows_last hproper (Nat.le_refl 0) last
    rw [hws last] at hyields
    refine ⟨Word.rows cols 0 0 0 ((ws ++ [(w, last)]).map toWord), ?_, ?_, ?_⟩
    · have hbreaks : Settles (collectBreaks tables (c :: s)
          ⟨(String.utf8EncodeChar c).length, tables.linebreakProperty c⟩)
          (.done (stops 0 (ws ++ [(w, false)]))) := by
        rw [← hws false]
        exact collectBreaks_stops rfl (len_cons c []).symm (Nat.zero_add _)
      have hpush : pushRows (c :: s) cols (stops 0 (ws ++ [(w, false)])) 0 0 0 =
          some (Word.rows cols 0 0 0 ((ws ++ [(w, false)]).map toWord)) :=
        pushRows_eq (a := []) (hjoined false).symm (hne false) hcols
      change Settles (fun fuel ↦ wrapRowIntervals tables (c :: s) cols fuel) _
      simp only [wrapRowIntervals, if_neg (List.cons_ne_nil c s), LineBreakLeafIter.new_cons]
      refine hbreaks.bind ?_
      rw [hpush, hrows]
      exact .const _
    · have hself : RewrapCtx.Holds tables ⟨lbCursor, 0, [], 0, cols⟩ [] (ws ++ [(w, last)]) :=
        ⟨htext.trans (hjoined last).symm, hne last, [], _, rfl, rfl, rfl, hyields⟩
      have hwrap := hself.wrapLoop_rows rfl (List.append_ne_nil_of_right_ne_nil ws (by simp))
      change Settles (fun fuel ↦ rewrapRows tables t.root cols fuel) _
      simp only [rewrapRows, RewrapCtx.new, hnew]
      exact hwrap
    · have hcover := Word.consecutive_rows 0 cols ((ws ++ [(w, last)]).map toWord)
        (Nat.le_refl 0)
      rw [extent_toWord, hjoined, Nat.zero_add] at hcover
      exact hcover

/-- The entries of the tables for letters with single spaces between them. -/
def letterTables : LineBreakTables where
  linebreakProperty c := if c = ' ' then 26 else 2
  linebreakStateMap state := if state = 68 then 64 else state
  linebreakStateMachine i := if i = 2 * 54 + 26 then 68 else if i = 64 * 54 + 2 then 130 else 2

/-- The words of four leaves. -/
def wordLeaves : Tree Text := .tower "ab cd ef ".toList (by decide) 1

theorem wrapRowIntervals_rewrap_words :
    ∃ rows, Settles (wrapRowIntervals letterTables wordLeaves.flat 5) (.done rows) ∧
      Settles (rewrapRows letterTables wordLeaves.root 5) (.done rows) ∧
      Word.Consecutive 0 rows (Leaf.len wordLeaves.flat) :=
  wrapRowIntervals_rewrap letterTables wordLeaves 5 (by decide)

end EeEditor.BTree
