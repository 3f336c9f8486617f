import EeEditor.Tree.LeafWalk

/-!
# Opportunities to break a line

The model of `LineBreakLeafIter` in `xi-unicode/src/lib.rs` and of `LineBreakCursor` in
`xi-core-lib/src/linewrap.rs`. A state machine reads the codepoints of a leaf and is carried on from
leaf to leaf, so a rope is cut into the words into which its text is cut. The tables of the machine
are generated and are a parameter here.
-/

namespace EeEditor.BTree

/-- The tables of `xi-unicode/src/tables.rs`. -/
structure LineBreakTables where
  linebreakProperty : Char → UInt8
  linebreakStateMap : UInt8 → UInt8
  linebreakStateMachine : ℕ → UInt8

/-- `N_LINEBREAK_CATEGORIES`. -/
def nLinebreakCategories : ℕ := 54

structure LineBreakLeafIter where
  ix : ℕ
  state : UInt8

variable (tables : LineBreakTables)

/-- The entry of the state machine for a codepoint that is read. -/
def LineBreakTables.entry (state : UInt8) (c : Char) : UInt8 :=
  tables.linebreakStateMachine ((tables.linebreakStateMap state).toNat * nLinebreakCategories +
    (tables.linebreakProperty c).toNat)

/-- `linebreak_property_str`: the property of the codepoint at an offset, and its length. -/
def linebreakPropertyStr (s : Text) (ix : ℕ) : Option (UInt8 × ℕ) :=
  match splitOff s ix with
  | some (_, c :: _) => some (tables.linebreakProperty c, (String.utf8EncodeChar c).length)
  | _ => none

namespace LineBreakLeafIter

def new (s : Text) (ix : ℕ) : Option LineBreakLeafIter :=
  if ix = Leaf.len s then some ⟨ix, 0⟩
  else (linebreakPropertyStr tables s ix).map fun (lb, len) ↦ ⟨ix + len, lb⟩

theorem new_cons (c : Char) (s : Text) : new tables (c :: s) 0 =
    some ⟨(String.utf8EncodeChar c).length, tables.linebreakProperty c⟩ := by
  rw [new, if_neg (len_pos (List.cons_ne_nil c s)).ne, linebreakPropertyStr, splitOff]
  dsimp only
  rw [Option.map_some, Nat.zero_add]

/-- The loop of `next` over what is left of the leaf. A break is hard if the two topmost bits of the
entry are set. -/
def nextLoop (self : LineBreakLeafIter) : Text → (ℕ × Bool) × LineBreakLeafIter
  | [] => ((self.ix, false), { self with ix := 0 })
  | c :: rest =>
    let new := tables.entry self.state c
    let ix := self.ix + (String.utf8EncodeChar c).length
    if 0x80 ≤ new then ((self.ix, 0xc0 ≤ new), ⟨ix, new &&& 0x3f⟩)
    else nextLoop ⟨ix, new⟩ rest

def next (self : LineBreakLeafIter) (s : Text) : Option ((ℕ × Bool) × LineBreakLeafIter) :=
  (splitOff s self.ix).map fun (_, rest) ↦ self.nextLoop tables rest

end LineBreakLeafIter

/-! ## Words -/

/-- The words of a text, where `word` has been read of the first one. The flag tells a hard break
after it; `last` is the flag of the last one, which ends with the text. -/
@[grind =] def wordsFrom (last : Bool) (state : UInt8) (word : Text) : Text → List (Text × Bool)
  | [] => [(word, last)]
  | c :: rest =>
    let new := tables.entry state c
    if 0x80 ≤ new then (word, 0xc0 ≤ new) :: wordsFrom last (new &&& 0x3f) [c] rest
    else wordsFrom last new (word ++ [c]) rest

/-- The text of the words. -/
def joined (ws : List (Text × Bool)) : Text := ws.flatMap Prod.fst

variable {tables} {last : Bool} {state : UInt8} {word rest more : Text} {ix : ℕ}

theorem joined_wordsFrom (word rest : Text) :
    joined (wordsFrom tables last state word rest) = word ++ rest := by
  induction rest generalizing state word with
  | nil => rw [wordsFrom, joined, List.flatMap_singleton, List.append_nil]
  | cons c rest ih =>
    rw [wordsFrom]
    split
    · change word ++ joined _ = _
      rw [ih]
      rfl
    · rw [ih, List.append_assoc]
      rfl

theorem ne_nil_of_mem_wordsFrom (hword : word ≠ []) {w : Text × Bool}
    (hw : w ∈ wordsFrom tables last state word rest) : w.1 ≠ [] := by
  induction rest generalizing state word with
  | nil =>
    rw [wordsFrom, List.mem_singleton] at hw
    exact hw ▸ hword
  | cons c rest ih =>
    rw [wordsFrom] at hw
    split at hw
    · rcases List.mem_cons.mp hw with rfl | hw
      · exact hword
      · exact ih (List.cons_ne_nil c []) hw
    · exact ih (by simp) hw

/-- The flag of the last word is not looked at before. -/
theorem wordsFrom_last (tables : LineBreakTables) (state : UInt8) (word rest : Text) :
    ∃ ws w, ∀ last, wordsFrom tables last state word rest = ws ++ [(w, last)] := by
  induction rest generalizing state word with
  | nil => exact ⟨[], word, fun _ ↦ rfl⟩
  | cons c rest ih =>
    by_cases hbreak : 0x80 ≤ tables.entry state c
    · obtain ⟨ws, w, hws⟩ := ih (tables.entry state c &&& 0x3f) [c]
      refine ⟨(word, decide (0xc0 ≤ tables.entry state c)) :: ws, w, fun last ↦ ?_⟩
      rw [wordsFrom, if_pos hbreak, hws, List.cons_append]
    · obtain ⟨ws, w, hws⟩ := ih (tables.entry state c) (word ++ [c])
      refine ⟨ws, w, fun last ↦ ?_⟩
      rw [wordsFrom, if_neg hbreak, hws]

variable (tables) in
/-- The first break in what is left of a leaf, or none: then the word goes on in the next leaf. -/
theorem nextLoop_cases (state : UInt8) (ix : ℕ) (rest : Text) :
    (∃ a c b state' hard, rest = a ++ c :: b ∧
      LineBreakLeafIter.nextLoop tables ⟨ix, state⟩ rest =
        ((ix + Leaf.len a, hard), ⟨ix + Leaf.len (a ++ [c]), state'⟩) ∧
      ∀ word more last, wordsFrom tables last state word (rest ++ more) =
        (word ++ a, hard) :: wordsFrom tables last state' [c] (b ++ more)) ∨
    ∃ state', LineBreakLeafIter.nextLoop tables ⟨ix, state⟩ rest =
        ((ix + Leaf.len rest, false), ⟨0, state'⟩) ∧
      ∀ word more last, wordsFrom tables last state word (rest ++ more) =
        wordsFrom tables last state' (word ++ rest) more := by
  induction rest generalizing state ix with
  | nil =>
    refine .inr ⟨state, rfl, fun word more last ↦ ?_⟩
    rw [List.append_nil, List.nil_append]
  | cons c rest ih =>
    simp only [LineBreakLeafIter.nextLoop, List.cons_append, wordsFrom]
    by_cases hbreak : 0x80 ≤ tables.entry state c
    · refine .inl ⟨[], c, rest, _, _, rfl, by rw [if_pos hbreak, List.nil_append, len_cons]; rfl,
        fun word more last ↦ ?_⟩
      rw [if_pos hbreak, List.append_nil]
    · simp only [if_neg hbreak]
      rcases ih (tables.entry state c) (ix + (String.utf8EncodeChar c).length) with
        ⟨a, c', b, state', hard, rfl, hloop, hwords⟩ | ⟨state', hloop, hwords⟩
      · refine .inl ⟨c :: a, c', b, state', hard, rfl, ?_, fun word more last ↦ ?_⟩
        · rw [hloop, List.cons_append, len_cons, len_cons, Nat.add_assoc, Nat.add_assoc]
        · rw [hwords, List.append_assoc, List.singleton_append]
      · refine .inr ⟨state', ?_, fun word more last ↦ ?_⟩
        · rw [hloop, len_cons, Nat.add_assoc]
        · rw [hwords, List.append_assoc, List.singleton_append]

variable (tables) in
theorem LineBreakLeafIter.next_append {self : LineBreakLeafIter} {u : Text}
    (hix : self.ix = Leaf.len u) (r : Text) :
    self.next tables (u ++ r) = some (self.nextLoop tables r) := by
  rw [next, hix, splitOff_append]
  rfl

/-! ## Words of a rope -/

variable {h : ℕ} {root : Node Text h}

/-- Words over a rope; `lb_iter` reads the leaf of the cursor. -/
structure LineBreakCursor (root : Node Text h) where
  inner : Cursor root
  lbIter : LineBreakLeafIter
  lastByte : UInt8

namespace LineBreakCursor

def new (tables : LineBreakTables) (root : Node Text h) (pos : ℕ) :
    Option (LineBreakCursor root) := do
  let inner := Cursor.new root pos
  let lbIter ← match inner.getLeaf with
    | some (s, offset) => LineBreakLeafIter.new tables s offset
    | none => some ⟨0, 0⟩
  return ⟨inner, lbIter, 0⟩

/-- The next break, and whether it is hard: the last one is if the text ends with a newline. -/
def next (tables : LineBreakTables) (self : LineBreakCursor root) :
    ℕ → Outcome ((ℕ × Bool) × LineBreakCursor root)
  | 0 => .running
  | fuel + 1 =>
    match self.inner.getLeaf with
    | some (s, offset) =>
      match self.lbIter.next tables s with
      | none => .panicked
      | some ((next, hard), lbIter) =>
        if next < Leaf.len s then
          .done ((self.inner.pos - offset + next, hard), { self with lbIter })
        else
          let lastByte := (bytes s).getLast?.getD self.lastByte
          LineBreakCursor.next tables ⟨self.inner.nextLeaf, lbIter, lastByte⟩ fuel
    | none => .done ((self.inner.pos, isNewline self.lastByte), self)

/-- The cursor has read `word` of the word from `p`, and `rest` is to come. -/
def Reads (self : LineBreakCursor root) (p : ℕ) (word rest : Text) : Prop :=
  ∃ pre u r post, self.inner.Begins pre (u ++ r) post ∧ self.lbIter.ix = Leaf.len u ∧
    rest = r ++ concat post ∧ p + Leaf.len word = lenOf pre + Leaf.len u

/-- The calls of `next` from here cut off these words, up to the end of the rope. -/
inductive Yields (tables : LineBreakTables) : LineBreakCursor root → ℕ → List (Text × Bool) → Prop
  | done {self : LineBreakCursor root} : Yields tables self root.len []
  | word {self rest : LineBreakCursor root} {p : ℕ} {w : Text} {hard : Bool}
      {ws : List (Text × Bool)}
      (next : Settles (self.next tables) (.done ((p + Leaf.len w, hard), rest)))
      (yields : Yields tables rest (p + Leaf.len w) ws) : Yields tables self p ((w, hard) :: ws)

variable {self : LineBreakCursor root} {p : ℕ}

theorem Yields.next {w : Text} {hard : Bool} {ws : List (Text × Bool)}
    (hself : Yields tables self p ((w, hard) :: ws)) :
    ∃ rest, Settles (self.next tables) (.done ((p + Leaf.len w, hard), rest)) ∧
      Yields tables rest (p + Leaf.len w) ws := by
  cases hself with
  | word hnext hyields => exact ⟨_, hnext, hyields⟩

variable (tables) in
theorem next_none (hleaf : self.inner.leaf = none) :
    Settles (self.next tables) (.done ((self.inner.pos, isNewline self.lastByte), self)) := by
  refine ⟨1, fun k ↦ ?_⟩
  rw [Nat.add_comm, next, Cursor.getLeaf, hleaf]
  rfl

/-- A break inside the leaf. -/
theorem next_inside {pre post : List Text} {l : Text} {o : ℕ} {hard : Bool}
    {lbIter : LineBreakLeafIter} (hbegins : self.inner.Begins pre l post)
    (hnext : self.lbIter.next tables l = some ((o, hard), lbIter)) (ho : o < Leaf.len l) :
    Settles (self.next tables) (.done ((lenOf pre + o, hard), { self with lbIter })) := by
  refine ⟨1, fun k ↦ ?_⟩
  rw [Nat.add_comm, next, hbegins.getLeaf]
  dsimp only
  rw [hnext]
  dsimp only
  rw [if_pos ho, Cursor.pos, hbegins.position, Nat.sub_zero]

/-- No break up to the end of the leaf. -/
theorem next_outside {pre post : List Text} {l : Text} {hard : Bool} {lbIter : LineBreakLeafIter}
    {r : Outcome ((ℕ × Bool) × LineBreakCursor root)} (hbegins : self.inner.Begins pre l post)
    (hnext : self.lbIter.next tables l = some ((Leaf.len l, hard), lbIter))
    (hr : Settles (next tables ⟨self.inner.nextLeaf, lbIter,
      (bytes l).getLast?.getD self.lastByte⟩) r) :
    Settles (self.next tables) r := by
  refine hr.succ fun fuel ↦ ?_
  rw [next, hbegins.getLeaf]
  dsimp only
  rw [hnext]
  dsimp only
  rw [if_neg (Nat.lt_irrefl _)]

/-- A break inside the leaf of the cursor. -/
theorem Reads.next_inside {pre post : List Text} {u r : Text}
    (hbegins : self.inner.Begins pre (u ++ r) post) (hix : self.lbIter.ix = Leaf.len u)
    (hp : p + Leaf.len word = lenOf pre + Leaf.len u) {a b : Text} {c : Char} {state' : UInt8}
    {hard : Bool} (hr : r = a ++ c :: b)
    (hloop : self.lbIter.nextLoop tables r =
      ((self.lbIter.ix + Leaf.len a, hard), ⟨self.lbIter.ix + Leaf.len (a ++ [c]), state'⟩)) :
    ∃ next, Settles (self.next tables) (.done ((p + Leaf.len (word ++ a), hard), next)) ∧
      next.Reads (p + Leaf.len (word ++ a)) [c] (b ++ concat post) ∧
        next.lbIter.state = state' := by
  have hsplit : u ++ r = u ++ (a ++ [c]) ++ b := by
    rw [hr, List.append_assoc, List.append_assoc]; rfl
  have hnext := LineBreakLeafIter.next_append tables hix r
  have hpos : 0 < Leaf.len (c :: b) := len_pos (List.cons_ne_nil c b)
  have hstop : p + Leaf.len (word ++ a) = lenOf pre + (self.lbIter.ix + Leaf.len a) := by
    rw [len_append]
    omega
  rw [hloop] at hnext
  have hlt : self.lbIter.ix + Leaf.len a < Leaf.len (u ++ r) := by
    rw [hr, len_append, len_append]
    omega
  refine ⟨_, hstop ▸ LineBreakCursor.next_inside hbegins hnext hlt, ?_, rfl⟩
  refine ⟨pre, u ++ (a ++ [c]), b, post, hsplit ▸ hbegins, ?_, rfl, ?_⟩
  · rw [len_append u, hix]
  · rw [len_append u, len_append a, hstop]
    omega

variable (tables) in
/-- The next word: it ends inside the rope, or with it. -/
theorem Reads.next (hroot : h = 0 ∨ root.Inner h) (hself : self.Reads p word rest) :
    (∃ w hard c b next, Settles (self.next tables) (.done ((p + Leaf.len w, hard), next)) ∧
      next.Reads (p + Leaf.len w) [c] b ∧ (c :: b).length ≤ rest.length ∧
      ∀ last, wordsFrom tables last self.lbIter.state word rest =
        (w, hard) :: wordsFrom tables last next.lbIter.state [c] b) ∨
    ∃ w hard next, Settles (self.next tables) (.done ((root.len, hard), next)) ∧
      p + Leaf.len w = root.len ∧
      ∀ last, wordsFrom tables last self.lbIter.state word rest = [(w, last)] := by
  obtain ⟨pre, u, r, post, hbegins, hix, rfl, hp⟩ := hself
  induction post generalizing self pre u r word with
  | nil =>
    have hnext := LineBreakLeafIter.next_append tables hix r
    rcases nextLoop_cases tables self.lbIter.state self.lbIter.ix r with
      ⟨a, c, b, state', hard, hr, hloop, hwords⟩ | ⟨state', hloop, hwords⟩
    · obtain ⟨next, hsettles, hreads, rfl⟩ := next_inside hbegins hix hp hr hloop
      refine .inl ⟨word ++ a, hard, c, _, next, hsettles, hreads, ?_, fun last ↦ hwords word _ last⟩
      rw [hr]
      simp only [List.length_append, List.length_cons]
      omega
    · rw [hloop, hix, ← len_append] at hnext
      obtain ⟨hleaf, hposition⟩ := hbegins.nextLeaf hroot
      have hsize := hbegins.at_leaf.len
      have hsettles := next_outside hbegins hnext (next_none tables hleaf)
      rw [Cursor.pos, hposition] at hsettles
      refine .inr ⟨word ++ r, _, _, hsettles, ?_, fun last ↦ (hwords word [] last).trans rfl⟩
      · rw [len_append] at hsize ⊢
        rw [lenOf_nil] at hsize
        omega
  | cons l post ih =>
    have hnext := LineBreakLeafIter.next_append tables hix r
    rcases nextLoop_cases tables self.lbIter.state self.lbIter.ix r with
      ⟨a, c, b, state', hard, hr, hloop, hwords⟩ | ⟨state', hloop, hwords⟩
    · obtain ⟨next, hsettles, hreads, rfl⟩ := next_inside hbegins hix hp hr hloop
      refine .inl ⟨word ++ a, hard, c, _, next, hsettles, hreads, ?_, fun last ↦ hwords word _ last⟩
      rw [hr]
      simp only [List.length_append, List.length_cons]
      omega
    · rw [hloop, hix, ← len_append] at hnext
      have hp' : p + Leaf.len (word ++ r) = lenOf (pre ++ [u ++ r]) + Leaf.len ([] : Text) := by
        rw [lenOf_append, lenOf_cons, lenOf_nil, len_append, len_append]
        change _ = _ + 0
        omega
      have hbegins' : (LineBreakCursor.mk self.inner.nextLeaf ⟨0, state'⟩
          ((bytes (u ++ r)).getLast?.getD self.lastByte)).inner.Begins (pre ++ [u ++ r]) ([] ++ l)
          post := hbegins.nextLeaf hroot
      rcases ih (pre ++ [u ++ r]) [] l hbegins' rfl hp' with
        ⟨w, hard, c, b, next, hsettles, hreads, hle, hrest⟩ | ⟨w, hard, next, hsettles, hw, hrest⟩
      · refine .inl ⟨w, hard, c, b, next, next_outside hbegins hnext hsettles, hreads, ?_,
          fun last ↦ ?_⟩
        · rw [List.length_append]
          exact hle.trans (Nat.le_add_left _ _)
        · rw [hwords]
          exact hrest last
      · refine .inr ⟨w, hard, next, next_outside hbegins hnext hsettles, hw, fun last ↦ ?_⟩
        rw [hwords]
        exact hrest last

variable (tables) in
/-- The words that are still to come are those of the text that is left. -/
theorem Reads.yields (hroot : h = 0 ∨ root.Inner h) (hself : self.Reads p word rest) :
    ∃ last, Yields tables self p (wordsFrom tables last self.lbIter.state word rest) := by
  induction hn : rest.length using Nat.strong_induction_on generalizing self p word rest with
  | h n ih =>
    rcases hself.next tables hroot with
      ⟨w, hard, c, b, next, hsettles, hreads, hle, hwords⟩ | ⟨w, hard, next, hsettles, hw, hwords⟩
    · rw [List.length_cons, hn] at hle
      obtain ⟨last, hyields⟩ := ih b.length hle hreads rfl
      exact ⟨last, hwords last ▸ .word hsettles hyields⟩
    · refine ⟨hard, hwords hard ▸ .word (hw ▸ hsettles) (hw ▸ .done)⟩

/-- A cursor in an empty rope. -/
theorem new_empty (tables : LineBreakTables) (hroot : h = 0 ∨ root.Inner h)
    (htext : concat (root.leaves h) = []) : ∃ self, new tables root 0 = some self := by
  obtain ⟨l, post, hbegins⟩ := Cursor.begins_new hroot
  rw [hbegins.at_leaf.leaves, List.nil_append, concat_cons] at htext
  obtain ⟨rfl, -⟩ := List.append_eq_nil_iff.mp htext
  refine ⟨⟨Cursor.new root 0, ⟨0, 0⟩, 0⟩, ?_⟩
  rw [new, hbegins.getLeaf]
  rfl

/-- A cursor at the beginning of a rope. -/
theorem new_yields (tables : LineBreakTables) (hroot : h = 0 ∨ root.Inner h) {c : Char} {s : Text}
    (htext : concat (root.leaves h) = c :: s) :
    ∃ self last, new tables root 0 = some self ∧
      Yields tables self 0 (wordsFrom tables last (tables.linebreakProperty c) [c] s) := by
  obtain ⟨l, post, hbegins⟩ := Cursor.begins_new hroot
  have hleaves := hbegins.at_leaf.leaves
  rw [List.nil_append] at hleaves
  rw [hleaves, concat_cons] at htext
  obtain ⟨r, rfl, rfl⟩ : ∃ r, l = c :: r ∧ s = r ++ concat post := by
    cases l with
    | nil =>
      -- an empty leaf is the whole tree
      cases post with
      | nil => cases htext
      | cons l' post =>
        have hpos := Cursor.pos_of_leaves hroot hleaves (Nat.succ_lt_succ (Nat.succ_pos _)) []
          List.mem_cons_self
        exact absurd hpos (Nat.lt_irrefl 0)
    | cons c' r =>
      obtain ⟨rfl, rfl⟩ := List.cons.inj htext
      exact ⟨r, rfl, rfl⟩
  have hnew : new tables root 0 = some ⟨Cursor.new root 0,
      ⟨(String.utf8EncodeChar c).length, tables.linebreakProperty c⟩, 0⟩ := by
    rw [new, hbegins.getLeaf]
    dsimp only
    rw [LineBreakLeafIter.new_cons]
    rfl
  have hreads : Reads ⟨Cursor.new root 0, ⟨(String.utf8EncodeChar c).length,
      tables.linebreakProperty c⟩, 0⟩ 0 [c] (r ++ concat post) :=
    ⟨[], [c], r, post, hbegins, (len_cons c []).symm, rfl, rfl⟩
  obtain ⟨last, hyields⟩ := hreads.yields tables hroot
  exact ⟨_, last, hnew, hyields⟩

end LineBreakCursor

end EeEditor.BTree
