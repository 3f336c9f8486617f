import Mathlib
import EeEditor.Tree.FindExact

/-!
# Case-insensitive searches

Where a search in lowercase finds the first position that matches. A candidate sticks if it is a
single byte at the end of a leaf that is longer and the first character that differs is in the next
leaf, not at its end. The scanner for a pattern that does not begin with ASCII looks for its first
character as it stands, so that it finds nothing unless that is in lowercase.
-/

namespace EeEditor.BTree

variable {h : ℕ} {root : Node Text h} {c d : Cursor root} {pre post : List Text}
  {l u s a b pat : Text}
  {ch x y : Char} {o p q r k : ℕ} {needles : List UInt8} {lower : LowercaseMapping}

/-! ## The lowercase mapping -/

/-- What the searches rely on of the standard mapping: ASCII is mapped within ASCII, to which only
the dotted capital I and the Kelvin sign are mapped from outside; what is in lowercase stays; and
a text is mapped as its first character is. -/
structure LowercaseMapping.Standard (lower : LowercaseMapping) : Prop where
  char_ne_nil : ∀ c, lower.char c ≠ []
  ascii : ∀ c, c.toNat < 128 → lower.char c = [c.toLower]
  ascii_preimage : ∀ c x, (lower.char c).head? = some x → x.toNat < 128 →
    c.toNat < 128 ∨ (x = 'i' ∧ c = 'İ') ∨ (x = 'k' ∧ c = '\u212A')
  idempotent : ∀ c x, (lower.char c).head? = some x → (lower.char x).head? = some x
  str_head : ∀ c s, (lower.str (c :: s)).head? = (lower.char c).head?

/-- The lowercase of a text, character by character. -/
def lowered (lower : LowercaseMapping) (s : Text) : Text := s.flatMap lower.char

@[simp] theorem lowered_nil : lowered lower [] = [] := rfl

@[simp] theorem lowered_cons : lowered lower (ch :: s) = lower.char ch ++ lowered lower s :=
  List.flatMap_cons

@[simp] theorem lowered_append : lowered lower (s ++ a) = lowered lower s ++ lowered lower a :=
  List.flatMap_append

/-- The lowercase of a character against a pattern. -/
theorem compareLower_cases (hpat : pat ≠ []) (lcs : Text) :
    (compareLower lcs pat = .complete ∧ pat <+: lcs) ∨
      (∃ rest, rest ≠ [] ∧ pat = lcs ++ rest ∧ compareLower lcs pat = .continues rest) ∨
      (compareLower lcs pat = .differs ∧ ¬ pat <+: lcs ∧ ¬ lcs <+: pat) := by
  induction lcs generalizing pat with
  | nil => exact .inr (.inl ⟨pat, hpat, rfl, rfl⟩)
  | cons lc lcs ih =>
    obtain ⟨ch, pat, rfl⟩ := List.exists_cons_of_ne_nil hpat
    by_cases hch : ch = lc
    · subst hch
      rcases eq_or_ne pat [] with rfl | hne
      · exact .inl ⟨by simp [compareLower], by simp⟩
      have hempty : pat.isEmpty = false := by
        rw [← Bool.not_eq_true, List.isEmpty_iff]
        exact hne
      have hstep : compareLower (ch :: lcs) (ch :: pat) = compareLower lcs pat := by
        simp [compareLower, hempty]
      rw [hstep]
      simp only [List.cons_prefix_cons, true_and, List.cons_append, List.cons.injEq]
      exact ih hne
    · right; right
      refine ⟨by simp [compareLower, hch], ?_, ?_⟩
      · rw [List.cons_prefix_cons]
        exact fun h ↦ hch h.1
      · rw [List.cons_prefix_cons]
        exact fun h ↦ hch h.1.symm

/-! ## Comparing -/

/-- The character at which a text after `x` differs from a pattern in lowercase. -/
def DiffersAt (lower : LowercaseMapping) (pat x : Text) (ch : Char) : Prop :=
  lowered lower x <+: pat ∧ ¬ pat <+: lowered lower (x ++ [ch]) ∧
    ¬ lowered lower (x ++ [ch]) <+: pat

theorem differsAt_cons {x rest : Text} :
    DiffersAt lower (lower.char y ++ rest) (y :: x) ch ↔ DiffersAt lower rest x ch := by
  simp only [DiffersAt, List.cons_append, lowered_cons, List.prefix_append_right_inj]

/-- A character that differs in what is left of a leaf, not at its end unless that is the end of the
rope. -/
def DiffersIn (lower : LowercaseMapping) (pat s : Text) (post : List Text) : Prop :=
  ∃ x ch w, s = x ++ ch :: w ∧ (w ≠ [] ∨ post = []) ∧ DiffersAt lower pat x ch

theorem DiffersIn.cons {rest : Text} (hrest : DiffersIn lower rest s post) :
    DiffersIn lower (lower.char y ++ rest) (y :: s) post := by
  obtain ⟨x, ch, w, rfl, hw, hdiffers⟩ := hrest
  exact ⟨y :: x, ch, w, rfl, hw, differsAt_cons.mpr hdiffers⟩

theorem nextCodepoint_cons (hc : c.Between pre u (ch :: s) post) :
    c.nextCodepoint = .done ((c.next baseMetric).1, some ch) := by
  simp only [Cursor.nextCodepoint, hc.getLeaf, strFrom_append, Outcome.ofOption, Outcome.done_bind,
    List.head?_cons]

/-- At the end there is no character, and the cursor becomes invalid. -/
theorem nextCodepoint_nil (hc : c.Between pre u [] post) :
    ∃ e : Cursor root, e.leaf = none ∧ e.Sound ∧ c.nextCodepoint = .done (e, none) := by
  refine ⟨(c.next baseMetric).1, ?_, ?_, ?_⟩
  · rw [Cursor.next_eq, if_pos (.inl hc.last.2.ge)]
  · rw [Cursor.next_eq, if_pos (.inl hc.last.2.ge)]
    exact hc.stands.at_leaf.invalidate _
  · simp only [Cursor.nextCodepoint, hc.getLeaf, strFrom_append, Outcome.ofOption,
      Outcome.done_bind,
      List.head?_nil]

/-- The comparison of a character. -/
theorem compareCaseiLoop_succ (hc : c.Between pre u (ch :: s) post) (fuel : ℕ) :
    compareCaseiLoop lower k (fuel + 1) pat c = match compareLower (lower.char ch) pat with
      | .differs => .done ((c.next baseMetric).1.giveUp k, none)
      | .complete => .done ((c.next baseMetric).1, some k)
      | .continues rest => compareCaseiLoop lower k fuel rest (c.next baseMetric).1 := by
  rw [compareCaseiLoop, nextCodepoint_cons hc]
  rfl

theorem compareCaseiLoop_nil (hc : c.Between pre u [] post) :
    ∃ e : Cursor root, e.leaf = none ∧ e.Sound ∧
      Settles (fun fuel ↦ compareCaseiLoop lower k fuel pat c) (.done (e.giveUp k, none)) := by
  obtain ⟨e, hnone, hsound, he⟩ := nextCodepoint_nil hc
  refine ⟨e, hnone, hsound, 1, fun fuel ↦ ?_⟩
  dsimp only
  rw [Nat.add_comm, compareCaseiLoop, he]
  rfl

theorem compareCaseiLoop_differs (hc : c.Between pre u (ch :: s) post)
    (hcompare : compareLower (lower.char ch) pat = .differs) :
    Settles (fun fuel ↦ compareCaseiLoop lower k fuel pat c)
      (.done ((c.next baseMetric).1.giveUp k, none)) := by
  refine ⟨1, fun fuel ↦ ?_⟩
  dsimp only
  rw [Nat.add_comm, compareCaseiLoop_succ hc, hcompare]

theorem compareCaseiLoop_complete (hc : c.Between pre u (ch :: s) post)
    (hcompare : compareLower (lower.char ch) pat = .complete) :
    Settles (fun fuel ↦ compareCaseiLoop lower k fuel pat c)
      (.done ((c.next baseMetric).1, some k)) := by
  refine ⟨1, fun fuel ↦ ?_⟩
  dsimp only
  rw [Nat.add_comm, compareCaseiLoop_succ hc, hcompare]

theorem compareCaseiLoop_continues {rest : Text} {out : Outcome (Cursor root × Option ℕ)}
    (hc : c.Between pre u (ch :: s) post)
    (hcompare : compareLower (lower.char ch) pat = .continues rest)
    (hout : Settles (fun fuel ↦ compareCaseiLoop lower k fuel rest (c.next baseMetric).1) out) :
    Settles (fun fuel ↦ compareCaseiLoop lower k fuel pat c) out := by
  obtain ⟨n, hn⟩ := hout
  refine ⟨n + 1, fun fuel ↦ ?_⟩
  dsimp only at hn ⊢
  rw [Nat.add_right_comm, compareCaseiLoop_succ hc, hcompare]
  exact hn fuel

/-- The text from a cursor on. -/
def ahead (s : Text) (post : List Text) : Text := s ++ concat post

/-- What is ahead after a character. -/
theorem Cursor.Between.next_ahead (hroot : h = 0 ∨ root.Inner h)
    (hc : c.Between pre u (ch :: s) post) : ∃ pre' u' s' post',
      (c.next baseMetric).1.Between pre' u' s' post' ∧ ahead s' post' = ahead s post := by
  rcases hc.next hroot with ⟨-, hd⟩ | ⟨l', post', rfl, rfl, hd⟩
  · exact ⟨_, _, _, _, hd, rfl⟩
  · exact ⟨_, _, _, _, hd, rfl⟩

/-- A pattern that the lowercase ahead begins with is found. -/
theorem compareCaseiLoop_matches (hroot : h = 0 ∨ root.Inner h) (hc : c.Between pre u s post)
    (hpat : pat ≠ []) (hpref : pat <+: lowered lower (ahead s post)) :
    ∃ e, Settles (fun fuel ↦ compareCaseiLoop lower k fuel pat c) (.done (e, some k)) := by
  obtain ⟨n, hn⟩ : ∃ n, (ahead s post).length = n := ⟨_, rfl⟩
  induction n generalizing c pre u s post pat with
  | zero =>
    rw [List.eq_nil_of_length_eq_zero hn, lowered_nil, List.prefix_nil] at hpref
    exact absurd hpref hpat
  | succ n ih =>
    cases s with
    | nil =>
      obtain ⟨rfl, -⟩ := hc.last
      cases hn
    | cons ch s =>
      obtain ⟨pre', u', s', post', hnext, hahead⟩ := hc.next_ahead hroot
      have hsplit : ahead (ch :: s) post = ch :: ahead s post := rfl
      rw [hsplit] at hn hpref
      rcases compareLower_cases hpat (lower.char ch) with ⟨hcompare, -⟩ |
        ⟨rest, hrest, rfl, hcompare⟩ | ⟨-, hnot, hnot'⟩
      · exact ⟨_, compareCaseiLoop_complete hc hcompare⟩
      · rw [lowered_cons, List.prefix_append_right_inj, ← hahead] at hpref
        obtain ⟨e, he⟩ := ih hnext hrest hpref (by rw [hahead]; exact Nat.succ.inj hn)
        exact ⟨e, compareCaseiLoop_continues hc hcompare he⟩
      · rw [lowered_cons] at hpref
        rcases List.prefix_or_prefix_of_prefix hpref (List.prefix_append _ _) with h | h
        · exact absurd h hnot
        · exact absurd h hnot'

/-- Where the cursor is when the comparison fails: in the leaf where it began, which has the
character that differs, or in a later one. -/
theorem compareCaseiLoop_fails (hroot : h = 0 ∨ root.Inner h) (hc : c.Between pre u s post)
    (hpat : pat ≠ []) (hpref : ¬ pat <+: lowered lower (ahead s post)) :
    ∃ e : Cursor root, e.Sound ∧
      (e.leaf.isSome → (e.offsetOfLeaf = lenOf pre ∧ DiffersIn lower pat s post) ∨
        (post ≠ [] ∧ lenOf pre + Leaf.len (u ++ s) ≤ e.offsetOfLeaf)) ∧
      Settles (fun fuel ↦ compareCaseiLoop lower k fuel pat c) (.done (e.giveUp k, none)) := by
  obtain ⟨n, hn⟩ : ∃ n, (ahead s post).length = n := ⟨_, rfl⟩
  induction n generalizing c pre u s post pat with
  | zero =>
    obtain rfl : s = [] := (List.append_eq_nil_iff.mp (List.eq_nil_of_length_eq_zero hn)).1
    obtain ⟨e, hnone, hsound, hsettles⟩ := compareCaseiLoop_nil hc
    refine ⟨e, hsound, fun hsome ↦ ?_, hsettles⟩
    rw [hnone] at hsome
    cases hsome
  | succ n ih =>
    cases s with
    | nil =>
      obtain ⟨rfl, -⟩ := hc.last
      cases hn
    | cons ch s =>
      have hsplit : ahead (ch :: s) post = ch :: ahead s post := rfl
      have hassoc : u ++ ch :: s = u ++ [ch] ++ s := by rw [List.append_assoc]; rfl
      rw [hsplit] at hn hpref
      rcases compareLower_cases hpat (lower.char ch) with ⟨-, hdone⟩ | ⟨rest, hrest, rfl,
        hcompare⟩ |
        ⟨hcompare, hnot, hnot'⟩
      · rw [lowered_cons] at hpref
        exact absurd (hdone.trans (List.prefix_append _ _)) hpref
      · rw [lowered_cons, List.prefix_append_right_inj] at hpref
        rcases hc.next hroot with ⟨-, hnext⟩ | ⟨l', post', rfl, rfl, hnext⟩
        · obtain ⟨e, he, hwhere, hsettles⟩ := ih hnext hrest hpref (Nat.succ.inj hn)
          refine ⟨e, he, fun hsome ↦ ?_, compareCaseiLoop_continues hc hcompare hsettles⟩
          rw [hassoc]
          exact (hwhere hsome).imp (fun hin ↦ ⟨hin.1, hin.2.cons⟩) id
        · obtain ⟨e, he, hwhere, hsettles⟩ := ih hnext hrest hpref (Nat.succ.inj hn)
          refine ⟨e, he, fun hsome ↦ .inr ⟨List.cons_ne_nil _ _, ?_⟩,
            compareCaseiLoop_continues hc hcompare hsettles⟩
          have hwhere := hwhere hsome
          rw [lenOf_append, lenOf_cons, lenOf_nil] at hwhere
          omega
      · rcases hc.next hroot with ⟨hrest, hnext⟩ | ⟨l', post', rfl, rfl, hnext⟩
        · refine ⟨_, hnext.stands.sound, fun _ ↦ .inl ⟨hnext.stands.at_leaf.offset, [], ch, s, rfl,
            hrest, List.nil_prefix, ?_, ?_⟩, compareCaseiLoop_differs hc hcompare⟩
          · simpa using hnot
          · simpa using hnot'
        · refine ⟨_, hnext.stands.sound, fun _ ↦ .inr ⟨List.cons_ne_nil _ _, ?_⟩,
            compareCaseiLoop_differs hc hcompare⟩
          rw [hnext.stands.at_leaf.offset, lenOf_append, lenOf_cons, lenOf_nil, Nat.add_zero]

/-- The comparison fails in the leaf that has the character that differs. -/
theorem compareCaseiLoop_differsIn (hroot : h = 0 ∨ root.Inner h) (hc : c.Between pre u s post)
    (hpat : pat ≠ []) (hdiffers : DiffersIn lower pat s post) :
    ∃ e : Cursor root, e.Sound ∧ e.leaf.isSome ∧ e.offsetOfLeaf = lenOf pre ∧
      Settles (fun fuel ↦ compareCaseiLoop lower k fuel pat c) (.done (e.giveUp k, none)) := by
  obtain ⟨x, ch, w, rfl, hw, hdiffers⟩ := hdiffers
  induction x generalizing c u pat with
  | nil =>
    obtain ⟨-, hnot, hnot'⟩ := hdiffers
    simp only [List.nil_append, lowered_cons, lowered_nil, List.append_nil] at hnot hnot'
    rcases compareLower_cases hpat (lower.char ch) with ⟨-, hdone⟩ | ⟨rest, -,
      rfl, -⟩ | ⟨hcompare, -⟩
    · exact absurd hdone hnot
    · exact absurd (List.prefix_append _ _) hnot'
    · rcases hc.next hroot with ⟨-, hnext⟩ | ⟨l', post', rfl, rfl, -⟩
      · refine ⟨_, hnext.stands.sound, ?_, hnext.stands.at_leaf.offset,
          compareCaseiLoop_differs hc hcompare⟩
        rw [hnext.stands.leaf]
        rfl
      · rcases hw with hw | hw
        · exact absurd rfl hw
        · cases hw
  | cons y x ih =>
    have hpref := hdiffers.1
    rw [lowered_cons] at hpref
    rcases compareLower_cases hpat (lower.char y) with ⟨-, hdone⟩ | ⟨rest, hrest, rfl, hcompare⟩ |
      ⟨-, -, hnot⟩
    · refine absurd (hdone.trans ?_) hdiffers.2.1
      rw [List.cons_append, lowered_cons]
      exact List.prefix_append _ _
    · rcases hc.next hroot with ⟨-, hnext⟩ | ⟨l', post', hnil, -⟩
      · obtain ⟨e, he, hsome, hoffset, hsettles⟩ := ih hrest hnext (differsAt_cons.mp hdiffers)
        exact ⟨e, he, hsome, hoffset, compareCaseiLoop_continues hc hcompare hsettles⟩
      · simp at hnil
    · exact absurd ((List.prefix_append _ _).trans hpref) hnot

/-! ## Matches -/

/-- The lowercase of the text from a position on begins with a pattern. -/
def LowerOccurs (root : Node Text h) (lower : LowercaseMapping) (pat : Text) (q : ℕ) : Prop :=
  ∃ u s, concat (root.leaves h) = u ++ s ∧ q = Leaf.len u ∧ pat <+: lowered lower s

/-- The text is a single byte at the end of a leaf that is longer, where the pattern begins, and the
first character that differs is in the next leaf, not at its end unless that is the end of the
rope. -/
def CaseiSticksAt (root : Node Text h) (lower : LowercaseMapping) (pat : Text) (q : ℕ) : Prop :=
  ∃ ch rest pre u l post, pat = lower.char ch ++ rest ∧ (String.utf8EncodeChar ch).length = 1 ∧
    root.leaves h = pre ++ (u ++ [ch]) :: l :: post ∧ q = lenOf pre + Leaf.len u ∧ u ≠ [] ∧
      DiffersIn lower rest l post

/-- The text before and after a cursor. -/
theorem Cursor.Between.concat (hc : c.Between pre u s post) :
    concat (root.leaves h) = (concat pre ++ u) ++ ahead s post := by
  rw [hc.stands.at_leaf.leaves, concat_append, concat_cons]
  change _ ++ (u ++ s ++ _) = _
  rw [ahead, List.append_assoc, List.append_assoc]

theorem lowerOccurs_iff (hc : c.Between pre u s post) :
    LowerOccurs root lower pat c.position ↔ pat <+: lowered lower (ahead s post) := by
  have hlen : c.position = Leaf.len (BTree.concat pre ++ u) := by
    rw [hc.position, len_append, len_concat]
  constructor
  · rintro ⟨u', s', heq, hq, hpref⟩
    obtain ⟨-, rfl⟩ := append_unique (hc.concat.symm.trans heq) (hlen.symm.trans hq)
    exact hpref
  · exact fun hpref ↦ ⟨_, _, hc.concat, hlen, hpref⟩

/-- A character of the text begins at a position. -/
def CharAt (root : Node Text h) (q : ℕ) (ch : Char) : Prop :=
  ∃ u s, concat (root.leaves h) = u ++ ch :: s ∧ q = Leaf.len u

theorem CharAt.byte (hch : CharAt root q ch) :
    (bytes (concat (root.leaves h)))[q]? = (String.utf8EncodeChar ch)[0]? := by
  obtain ⟨u, s, hflat, rfl⟩ := hch
  rw [hflat, bytes_append]
  change (bytes u ++ bytes (ch :: s))[(bytes u).length]? = _
  rw [List.getElem?_append_right (Nat.le_refl _), Nat.sub_self, bytes_cons,
    List.getElem?_append_left (utf8Size_pos ch)]

theorem CharAt.lt (hch : CharAt root q ch) : q < root.len := by
  obtain ⟨u, s, hflat, rfl⟩ := hch
  have hpos := utf8Size_pos ch
  rw [Node.len_eq, ← len_concat, hflat, len_append, len_cons]
  omega

theorem CharAt.boundary (hch : CharAt root q ch) :
    isCharBoundary (bytes (concat (root.leaves h))) q = true := by
  obtain ⟨b, rest, hb, hfirst, -⟩ := utf8EncodeChar_eq_cons ch
  exact isCharBoundary_iff.mpr (.inr (.inr ⟨b, by rw [hch.byte, hb]; rfl, hfirst⟩))

/-- A character that begins in a part of a leaf is one of that part. -/
theorem CharAt.mem (hch : CharAt root q ch)
    (hleaves : root.leaves h = pre ++ (u ++ (a ++ b)) :: post)
    (hle : lenOf pre + Leaf.len u ≤ q) (hlt : q < lenOf pre + Leaf.len u + Leaf.len a) :
    ch ∈ a := by
  have hboundary := hch.boundary
  obtain ⟨o, rfl⟩ := Nat.exists_eq_add_of_le hle
  have hsize := len_append u (a ++ b)
  have hsize' := len_append a b
  rw [hleaves, Nat.add_assoc] at hboundary
  have hleaf := isCharBoundary_leaf (show Leaf.len u + o ≤ Leaf.len (u ++ (a ++ b)) by omega)
    hboundary
  obtain ⟨v, w, hvw, hv⟩ := exists_split hleaf
  obtain ⟨u', s', hflat, hq⟩ := hch
  have hflat' : concat (root.leaves h) = (concat pre ++ v) ++ (w ++ concat post) := by
    rw [hleaves, concat_append, concat_cons, hvw]
    change _ ++ (v ++ w ++ _) = _
    rw [List.append_assoc, List.append_assoc]
  have hlen : Leaf.len (concat pre ++ v) = Leaf.len u' := by
    rw [len_append, len_concat, ← hq, Nat.add_assoc]
    exact congrArg _ hv
  obtain ⟨-, hw⟩ := append_unique (hflat'.symm.trans hflat) hlen
  change Leaf.len v = Leaf.len u + o at hv
  -- the part up to the character, and the part from it on
  rcases List.append_eq_append_iff.mp hvw with ⟨x, rfl, hx⟩ | ⟨x, rfl, rfl⟩
  · have hsize'' := len_append u x
    rcases List.append_eq_append_iff.mp hx with ⟨y, rfl, rfl⟩ | ⟨y, rfl, hy⟩
    · have := len_append a y
      omega
    · cases y with
      | nil =>
        rw [List.append_nil] at hlt
        omega
      | cons ch' y =>
        rw [List.cons_append] at hy
        rw [hy, List.cons_append, List.cons.injEq] at hw
        exact List.mem_append_right _ (hw.1 ▸ List.mem_cons_self)
  · have hsize'' := len_append v x
    cases a with
    | nil =>
      rw [show Leaf.len ([] : Text) = 0 from rfl] at hlt
      omega
    | cons ch' a =>
      have hx : x = [] := by
        by_contra hne
        have := len_pos hne
        omega
      subst hx
      rw [List.nil_append, List.cons_append, List.cons_append, List.cons.injEq] at hw
      exact hw.1 ▸ List.mem_cons_self

/-- A pattern that begins with the lowercase of a character. -/
theorem head_of_prefix (hlower : lower.Standard) {rest : Text} (hpat : pat ≠ [])
    (hpref : pat <+: lower.char ch ++ rest) : (lower.char ch).head? = pat.head? := by
  obtain ⟨x, pat, rfl⟩ := List.exists_cons_of_ne_nil hpat
  obtain ⟨y, ys, hy⟩ := List.exists_cons_of_ne_nil (hlower.char_ne_nil ch)
  rw [hy, List.cons_append, List.cons_prefix_cons] at hpref
  rw [hy, hpref.1]
  rfl

/-- The character at a position that the scanner must not pass over. -/
theorem charAt_of_lowerOccurs (hlower : lower.Standard) (hpat : pat ≠ [])
    (hq : LowerOccurs root lower pat q ∨ CaseiSticksAt root lower pat q) :
    ∃ ch, CharAt root q ch ∧ (lower.char ch).head? = pat.head? := by
  rcases hq with ⟨u, s, hflat, rfl, hpref⟩ | ⟨ch, rest, pre, u, l, post, rfl, -, hleaves, rfl, -⟩
  · cases s with
    | nil => exact absurd (List.prefix_nil.mp hpref) hpat
    | cons ch s => exact ⟨ch, ⟨u, s, hflat, rfl⟩, head_of_prefix hlower hpat (by simpa using hpref)⟩
  · refine ⟨ch, ⟨concat pre ++ u, concat (l :: post), ?_, ?_⟩, ?_⟩
    · rw [hleaves, concat_append, concat_cons]
      change _ ++ (u ++ [ch] ++ _) = _
      rw [List.append_assoc, List.append_assoc]
      rfl
    · rw [len_append, len_concat]
    · obtain ⟨y, ys, hy⟩ := List.exists_cons_of_ne_nil (hlower.char_ne_nil ch)
      rw [hy]
      rfl

theorem DiffersIn.ne_nil (hdiffers : DiffersIn lower pat s post) : pat ≠ [] := by
  rintro rfl
  obtain ⟨x, ch, w, -, -, -, hnot, -⟩ := hdiffers
  exact hnot List.nil_prefix

theorem DiffersIn.not_prefix (hdiffers : DiffersIn lower pat s post) {rest : Text} :
    ¬ pat <+: lowered lower (s ++ rest) := by
  obtain ⟨x, ch, w, rfl, -, -, hnot, hnot'⟩ := hdiffers
  intro hpref
  have hsplit : x ++ ch :: w ++ rest = x ++ [ch] ++ (w ++ rest) := by simp
  rw [hsplit, lowered_append] at hpref
  rcases List.prefix_or_prefix_of_prefix hpref (List.prefix_append _ _) with h | h
  · exact hnot h
  · exact hnot' h

theorem CaseiSticksAt.not_lowerOccurs (hsticks : CaseiSticksAt root lower pat q) :
    ¬ LowerOccurs root lower pat q := by
  obtain ⟨ch, rest, pre, u, l, post, rfl, -, hleaves, rfl, -, hdiffers⟩ := hsticks
  rintro ⟨u', s', hflat, hq, hpref⟩
  have hflat' : concat (root.leaves h) = (concat pre ++ u) ++ ch :: (l ++ concat post) := by
    rw [hleaves, concat_append, concat_cons, concat_cons]
    change _ ++ (u ++ [ch] ++ (l ++ _)) = _
    rw [List.append_assoc, List.append_assoc]
    rfl
  obtain ⟨-, rfl⟩ := append_unique (hflat'.symm.trans hflat) (by rw [len_append, len_concat, hq])
  rw [lowered_cons, List.prefix_append_right_inj] at hpref
  exact hdiffers.not_prefix hpref

/-! ## The matcher -/

theorem compareCursorStrCasei_eq (hpat : pat ≠ []) (c : Cursor root) :
    compareCursorStrCasei lower pat c
      = fun fuel ↦ compareCaseiLoop lower c.position fuel pat c := by
  funext fuel
  rw [compareCursorStrCasei, if_neg (by rwa [List.isEmpty_iff])]
  rfl

/-- A single byte at the end of a leaf, where the pattern begins: the comparison goes on in the next
leaf. -/
theorem compareCaseiLoop_last {rest : Text} {out : Outcome (Cursor root × Option ℕ)}
    (hlower : lower.Standard) (hrest : rest ≠ []) (hc : c.Between pre u (ch :: s) post)
    (hout : Settles (fun fuel ↦ compareCaseiLoop lower k fuel rest (c.next baseMetric).1) out) :
    Settles (fun fuel ↦ compareCaseiLoop lower k fuel (lower.char ch ++ rest) c) out := by
  have hne : lower.char ch ++ rest ≠ [] :=
    List.append_ne_nil_of_left_ne_nil (hlower.char_ne_nil ch) _
  rcases compareLower_cases hne (lower.char ch) with ⟨-, hdone⟩ | ⟨rest', -, heq, hcompare⟩ |
    ⟨-, -, hnot⟩
  · have hlen := hdone.length_le
    have hpos := List.length_pos_of_ne_nil hrest
    rw [List.length_append] at hlen
    omega
  · obtain rfl := List.append_cancel_left heq
    exact compareCaseiLoop_continues hc hcompare hout
  · exact absurd (List.prefix_append _ _) hnot

/-- A comparison that fails leaves the cursor after its candidate unless that sticks. -/
theorem casei_failed (hroot : h = 0 ∨ root.Inner h) (hlower : lower.Standard) (hpat : pat ≠ [])
    (hfirst : (String.utf8EncodeChar ch).length = 1 → ∃ rest, pat = lower.char ch ++ rest)
    (hc : c.Between pre u (ch :: s) post) (hmatch : ¬ LowerOccurs root lower pat c.position)
    (hsticks : ¬ CaseiSticksAt root lower pat c.position) :
    ∃ d, Settles (compareCursorStrCasei lower pat c) (.done (d, none)) ∧
      d.Ready (c.position + (String.utf8EncodeChar ch).length) := by
  have hleaves := hc.stands.at_leaf.leaves
  have hposition := hc.position
  have hsize := len_append u (ch :: s)
  have hpos := utf8Size_pos ch
  rw [len_cons] at hsize
  rw [lowerOccurs_iff hc] at hmatch
  rw [compareCursorStrCasei_eq hpat]
  by_cases hlast : (String.utf8EncodeChar ch).length = 1 ∧ s = [] ∧ post ≠ []
  · obtain ⟨hone, rfl, hpost⟩ := hlast
    obtain ⟨rest, rfl⟩ := hfirst hone
    have hrest : rest ≠ [] := by
      rintro rfl
      exact hmatch (by rw [List.append_nil]; exact List.prefix_append _ _)
    rcases hc.next hroot with ⟨hnot | hnot, -⟩ | ⟨l, post', -, rfl, hnext⟩
    · exact absurd rfl hnot
    · exact absurd hnot hpost
    have hsplit : ahead [ch] (l :: post') = ch :: ahead l post' := rfl
    rw [hsplit, lowered_cons, List.prefix_append_right_inj] at hmatch
    obtain ⟨e, he, hwhere, hsettles⟩ := compareCaseiLoop_fails (k := c.position) hroot hnext hrest
      hmatch
    refine ⟨_, compareCaseiLoop_last hlower hrest hc hsettles, he.giveUp hroot hleaves hposition ?_⟩
    rintro ⟨hsome, hq, pre', l', post'', hleaves', hlen, hne⟩
    have hposs := Cursor.pos_of_leaves hroot hleaves (by simp; omega)
    have hpos' := hposs l' (by
      rw [← hleaves, hleaves']
      exact List.mem_append_right pre' List.mem_cons_self)
    have hpos'' := hposs l (by simp)
    rw [show Leaf.len ([] : Text) = 0 from rfl] at hsize
    rcases hwhere hsome with ⟨hoffset, hdiffers⟩ | ⟨-, hoffset⟩
    · obtain ⟨hpre, rfl, -⟩ := Cursor.eq_of_holds (hleaves.symm.trans hleaves') (p := c.position)
        (by omega) (by omega) (by omega) (by omega)
      refine hsticks ⟨ch, rest, pre, u, l, post', rfl, hone, hleaves, hposition, ?_, hdiffers⟩
      rintro rfl
      rw [show Leaf.len ([] : Text) = 0 from rfl] at hsize
      omega
    · rw [lenOf_append, lenOf_cons, lenOf_nil, List.nil_append] at hoffset
      omega
  · obtain ⟨e, he, hwhere, hsettles⟩ :=
      compareCaseiLoop_fails (k := c.position) hroot hc hpat hmatch
    refine ⟨_, hsettles, he.giveUp hroot hleaves hposition ?_⟩
    rintro ⟨hsome, hq, -⟩
    rcases hwhere hsome with ⟨hoffset, -⟩ | ⟨hpost, hoffset⟩
    · omega
    · refine hlast ⟨by omega, ?_, hpost⟩
      by_contra hs
      have := len_pos hs
      omega

theorem casei_stuck (hroot : h = 0 ∨ root.Inner h) (hlower : lower.Standard)
    (hc : c.Between pre u s post) (hsticks : CaseiSticksAt root lower pat c.position) :
    ∃ d r, Settles (compareCursorStrCasei lower pat c) (.done (d, none)) ∧ r ≤ c.position ∧
      d.Ready r := by
  obtain ⟨ch, rest, pre', u', l, post', rfl, hch, hleaves, hq, hu, hdiffers⟩ := hsticks
  obtain ⟨rfl, rfl, rfl, rfl⟩ := hc.of_last hleaves hq
  rcases hc.next hroot with ⟨hnot | hnot, -⟩ | ⟨l', post'', -, heq, hnext⟩
  · exact absurd rfl hnot
  · cases hnot
  obtain ⟨rfl, rfl⟩ := List.cons.inj heq
  obtain ⟨e, he, hsome, hoffset, hsettles⟩ := compareCaseiLoop_differsIn (k := c.position) hroot
    hnext hdiffers.ne_nil hdiffers
  have hsize := len_append u [ch]
  have hpos := len_pos hu
  rw [len_cons, hch, show Leaf.len ([] : Text) = 0 from rfl] at hsize
  rw [lenOf_append, lenOf_cons, lenOf_nil] at hoffset
  have hstrays : e.Strays c.position :=
    ⟨hsome, by omega, pre, u ++ [ch], l :: post', hleaves, by omega, by omega⟩
  obtain ⟨r, hr, hready⟩ := he.giveUp_strays hroot hleaves hq hstrays
  rw [compareCursorStrCasei_eq (List.append_ne_nil_of_left_ne_nil (hlower.char_ne_nil ch) _)]
  exact ⟨_, r, compareCaseiLoop_last hlower hdiffers.ne_nil hc hsettles, hr, hready⟩

/-- What a case-insensitive search relies on, whatever the scanner. -/
theorem caseiSearch {scanner : Text → Option ℕ} (hroot : h = 0 ∨ root.Inner h)
    (hlower : lower.Standard) (hpat : pat ≠ [])
    (hhit : ∀ {s off}, scanner s = some off → ∃ a ch b, s = a ++ ch :: b ∧ off = Leaf.len a)
    (hpasses : ∀ {pre u a b post}, root.leaves h = pre ++ (u ++ (a ++ b)) :: post →
      (scanner (a ++ b) = none ∧ b = []) ∨ scanner (a ++ b) = some (Leaf.len a) →
      ∀ q ch, lenOf pre + Leaf.len u ≤ q → q < lenOf pre + Leaf.len u + Leaf.len a →
        CharAt root q ch → (lower.char ch).head? ≠ pat.head?)
    (hfirst : ∀ {u ch s}, Hits scanner u (ch :: s) → (String.utf8EncodeChar ch).length = 1 →
      ∃ rest, pat = lower.char ch ++ rest) :
    Search root scanner (compareCursorStrCasei lower pat) (LowerOccurs root lower pat)
      (CaseiSticksAt root lower pat) (fun _ _ ↦ True) := by
  refine ⟨?_, CaseiSticksAt.not_lowerOccurs, ?_, hhit, ?_, ?_, ?_, ?_⟩
  · intro q hq
    obtain ⟨ch, hch, -⟩ := charAt_of_lowerOccurs hlower hpat hq
    exact hch.boundary
  · intro q hq
    obtain ⟨ch, hch, -⟩ := charAt_of_lowerOccurs hlower hpat hq
    exact hch.lt
  · intro pre u a b post hleaves hscan q hle hlt
    rw [← not_or]
    intro hq
    obtain ⟨ch, hch, hhead⟩ := charAt_of_lowerOccurs hlower hpat hq
    exact hpasses hleaves hscan q ch hle hlt hch hhead
  · intro c pre u s post hc _ hmatch
    obtain ⟨e, he⟩ := compareCaseiLoop_matches (k := c.position) hroot hc hpat
      ((lowerOccurs_iff hc).mp hmatch)
    rw [compareCursorStrCasei_eq hpat]
    exact ⟨e, he, trivial⟩
  · exact fun hc hhits hmatch hsticks ↦
      casei_failed hroot hlower hpat (hfirst hhits) hc hmatch hsticks
  · exact fun hc _ hsticks ↦ casei_stuck hroot hlower hc hsticks

/-! ## ASCII -/

/-- What is scanned for: the ASCII characters with the given lowercase, and the first byte of the
exception if there is one. -/
theorem needlesFor_ascii {b : UInt8} (hb : b.toNat < 128)
    (hupper : ¬ (65 ≤ b.toNat ∧ b.toNat ≤ 90)) :
    ∃ needles, needlesFor b = some needles ∧ (∀ y ∈ needles, isContinuation y = false) ∧
      (∀ y : UInt8, y.toNat < 128 → (y ∈ needles ↔
        (if 65 ≤ y.toNat ∧ y.toNat ≤ 90 then y.toNat + 32 else y.toNat) = b.toNat)) ∧
      (b = 105 → 0xC4 ∈ needles) ∧ (b = 107 → 0xE2 ∈ needles) := by
  have hne : ∀ {y : UInt8} {n : ℕ}, y.toNat = n → n < 128 → isContinuation y = false := by
    intro y n hy hn
    simp [isContinuation, UInt8.le_iff_toNat_le]
    omega
  rw [needlesFor]
  split
  · subst b
    refine ⟨_, rfl, by simp [isContinuation], fun y hy ↦ ?_, fun _ ↦ by decide,
      fun h ↦ absurd h (by decide)⟩
    simp only [List.mem_cons, List.not_mem_nil, or_false, ← UInt8.toNat_inj, UInt8.reduceToNat]
    split <;> omega
  split
  · subst b
    refine ⟨_, rfl, by simp [isContinuation], fun y hy ↦ ?_, fun h ↦ absurd h (by decide),
      fun _ ↦ by decide⟩
    simp only [List.mem_cons, List.not_mem_nil, or_false, ← UInt8.toNat_inj, UInt8.reduceToNat]
    split <;> omega
  rename_i hi hk
  split
  · rename_i hletter
    simp only [isAsciiLowercase, Bool.and_eq_true, decide_eq_true_eq, UInt8.le_iff_toNat_le,
      UInt8.reduceToNat] at hletter
    have hsub : (b - 0x20).toNat = b.toNat - 32 := by
      rw [UInt8.toNat_sub_of_le]
      · rfl
      · rw [UInt8.le_iff_toNat_le]
        change 32 ≤ _
        omega
    refine ⟨_, rfl, ?_, fun y hy ↦ ?_, fun h ↦ absurd h hi, fun h ↦ absurd h hk⟩
    · intro y hy
      simp only [List.mem_cons, List.not_mem_nil, or_false] at hy
      rcases hy with rfl | rfl
      · exact hne rfl hb
      · exact hne hsub (by omega)
    · simp only [List.mem_cons, List.not_mem_nil, or_false, ← UInt8.toNat_inj, hsub]
      split <;> omega
  · rename_i hletter
    simp only [isAsciiLowercase, Bool.and_eq_true, decide_eq_true_eq, UInt8.le_iff_toNat_le,
      UInt8.reduceToNat] at hletter
    rw [if_pos (show b < 0x80 from UInt8.lt_iff_toNat_lt.mpr hb)]
    refine ⟨_, rfl, ?_, fun y hy ↦ ?_, fun h ↦ absurd h hi, fun h ↦ absurd h hk⟩
    · intro y hy
      rw [List.mem_singleton.mp hy]
      exact hne rfl hb
    · rw [List.mem_singleton, ← UInt8.toNat_inj]
      split <;> omega
/-- A character outside ASCII begins with a byte that is not scanned for. -/
theorem needlesFor_eq_none {b : UInt8} {bs : List UInt8} (hx : 128 ≤ x.toNat)
    (hb : String.utf8EncodeChar x = b :: bs) : needlesFor b = none := by
  have hge : 128 ≤ b.toNat := by
    by_contra hlt
    obtain ⟨b', rest, hb', -, -, hascii⟩ := utf8EncodeChar_eq_cons x
    obtain ⟨rfl, rfl⟩ := List.cons.inj (hb.symm.trans hb')
    have hrest := hascii (UInt8.lt_iff_toNat_lt.mpr (Nat.lt_of_not_le hlt))
    have := ascii_of_length (show (String.utf8EncodeChar x).length = 1 by rw [hb, hrest]; rfl)
    omega
  have hne : ∀ n : UInt8, n.toNat < 128 → b ≠ n := by
    rintro n hn rfl
    omega
  rw [needlesFor, if_neg (hne _ (by decide)), if_neg (hne _ (by decide)), if_neg, if_neg]
  · rw [UInt8.lt_iff_toNat_lt]
    exact Nat.not_lt.mpr hge
  · simp only [isAsciiLowercase, Bool.and_eq_true, decide_eq_true_eq, UInt8.le_iff_toNat_le,
      UInt8.reduceToNat]
    omega

/-! ## Scanning for a character -/

theorem scanLowercase_spec (lower : LowercaseMapping) (probe : Char) (s : Text) :
    match scanLowercase lower probe s with
    | some off => ∃ a ch b, s = a ++ ch :: b ∧ off = Leaf.len a ∧
        (lower.char ch).head? = some probe ∧ ∀ y ∈ a, (lower.char y).head? ≠ some probe
    | none => ∀ y ∈ s, (lower.char y).head? ≠ some probe := by
  induction s with
  | nil => nofun
  | cons ch s ih =>
    rw [scanLowercase]
    by_cases hch : (lower.char ch).head? = some probe
    · rw [if_pos hch]
      exact ⟨[], ch, s, rfl, rfl, hch, nofun⟩
    · rw [if_neg hch]
      cases hscan : scanLowercase lower probe s with
      | none =>
        rw [hscan] at ih
        exact List.forall_mem_cons.mpr ⟨hch, ih⟩
      | some off =>
        rw [hscan] at ih
        obtain ⟨a, ch', b, rfl, rfl, hch', hbefore⟩ := ih
        exact ⟨ch :: a, ch', b, rfl, (len_cons ch a).symm, hch',
          List.forall_mem_cons.mpr ⟨hch, hbefore⟩⟩

/-- The character at a candidate, and those before it. -/
theorem scanLowercase_at {probe : Char}
    (hscan : scanLowercase lower probe (a ++ s) = some (Leaf.len a)) :
    (∃ ch b, s = ch :: b ∧ (lower.char ch).head? = some probe) ∧
      ∀ y ∈ a, (lower.char y).head? ≠ some probe := by
  have hspec := scanLowercase_spec lower probe (a ++ s)
  rw [hscan] at hspec
  obtain ⟨a', ch, b, heq, hlen, hch, hbefore⟩ := hspec
  obtain ⟨rfl, rfl⟩ := append_unique heq hlen
  exact ⟨⟨ch, b, rfl, hch⟩, hbefore⟩

/-! ## The searches -/

theorem ne_nil_of_head (hx : pat.head? = some x) : pat ≠ [] := by
  rintro rfl
  cases hx

/-- The search for a pattern that begins with ASCII. -/
theorem asciiSearch (hroot : h = 0 ∨ root.Inner h) (hlower : lower.Standard) {b : UInt8}
    {bs : List UInt8} (hx : pat.head? = some x) (hascii : x.toNat < 128)
    (hlow : (lower.char x).head? = some x) (hb : bytes pat = b :: bs) :
    ∃ needles, needlesFor b = some needles ∧
      Search root (memchrOf needles) (compareCursorStrCasei lower pat) (LowerOccurs root lower pat)
        (CaseiSticksAt root lower pat) (fun _ _ ↦ True) := by
  obtain ⟨rest, rfl⟩ := List.head?_eq_some_iff.mp hx
  obtain ⟨b', hxb, hbx⟩ := encode_ascii hascii
  rw [bytes_cons, hxb] at hb
  obtain ⟨rfl, -⟩ := List.cons.inj hb
  have hfixed : x.toLower = x := by
    rw [hlower.ascii x hascii] at hlow
    exact Option.some_inj.mp hlow
  have hupper : ¬ (65 ≤ b'.toNat ∧ b'.toNat ≤ 90) := by
    intro hrange
    have := toNat_toLower x
    rw [hfixed, ← hbx, if_pos hrange] at this
    omega
  obtain ⟨needles, hneedles, hcont, hmem, hi, hk⟩ := needlesFor_ascii (by omega) hupper
  -- the ASCII characters with the lowercase `x` are those that begin with a needle
  have hlowercase : ∀ {ch : Char} {y : UInt8}, ch.toNat < 128 → y.toNat = ch.toNat →
      (y ∈ needles ↔ lower.char ch = [x]) := by
    intro ch y hch hy
    rw [hlower.ascii ch hch, hmem y (by omega), hy, ← toNat_toLower, hbx, List.cons.injEq,
      and_iff_left rfl, Char.toNat_inj]
  refine ⟨needles, hneedles, caseiSearch hroot hlower (ne_nil_of_head hx)
    (memchrOf_some hcont) ?_ ?_⟩
  · intro pre u a b post hleaves hscan q ch hle hlt hch hhead
    refine memchrOf_passes (P := fun q ↦ ∃ ch, CharAt root q ch ∧ (lower.char ch).head? = some x) ?_
      hleaves hscan q hle hlt ⟨ch, hch, hhead⟩
    rintro q ⟨ch, hch, hhead⟩
    rw [hch.byte]
    rcases hlower.ascii_preimage ch x hhead hascii with hch' | ⟨rfl, rfl⟩ | ⟨rfl, rfl⟩
    · obtain ⟨y, hy, hyn⟩ := encode_ascii hch'
      refine ⟨y, (hlowercase hch' hyn).mpr ?_, by rw [hy]; rfl⟩
      rw [hlower.ascii ch hch'] at hhead ⊢
      rw [Option.some_inj.mp hhead]
    · exact ⟨0xC4, hi (UInt8.toNat_inj.mp hbx), rfl⟩
    · exact ⟨0xE2, hk (UInt8.toNat_inj.mp hbx), rfl⟩
  · rintro u ch s ⟨u', a, -, hscan⟩ hone
    obtain ⟨y, hy, hget⟩ := memchrOf_byte hscan
    obtain ⟨y', hy', hyn⟩ := encode_ascii (ascii_of_length hone)
    rw [bytes_cons, hy'] at hget
    obtain rfl := Option.some_inj.mp hget
    rw [(hlowercase (ascii_of_length hone) hyn).mp hy]
    exact ⟨rest, rfl⟩

/-- The search for a pattern that begins outside ASCII and in lowercase. -/
theorem lowercaseSearch (hroot : h = 0 ∨ root.Inner h) (hlower : lower.Standard)
    (hx : pat.head? = some x) (hascii : 128 ≤ x.toNat) :
    Search root (scanLowercase lower x) (compareCursorStrCasei lower pat)
      (LowerOccurs root lower pat) (CaseiSticksAt root lower pat) (fun _ _ ↦ True) := by
  refine caseiSearch hroot hlower (ne_nil_of_head hx) ?_ ?_ ?_
  · intro s off hscan
    have hspec := scanLowercase_spec lower x s
    rw [hscan] at hspec
    obtain ⟨a, ch, b, rfl, hoff, -⟩ := hspec
    exact ⟨a, ch, b, rfl, hoff⟩
  · intro pre u a b post hleaves hscan q ch hle hlt hch hhead
    have hmem := hch.mem hleaves hle hlt
    rw [hx] at hhead
    rcases hscan with ⟨hnone, rfl⟩ | hsome
    · have hspec := scanLowercase_spec lower x (a ++ [])
      rw [hnone, List.append_nil] at hspec
      exact hspec ch hmem hhead
    · exact (scanLowercase_at hsome).2 ch hmem hhead
  · rintro u ch s ⟨u', a, -, hscan⟩ hone
    obtain ⟨⟨ch', b, heq, hhead⟩, -⟩ := scanLowercase_at hscan
    obtain ⟨rfl, rfl⟩ := List.cons.inj heq
    have hch := ascii_of_length hone
    rw [hlower.ascii ch hch, List.head?_cons, Option.some_inj] at hhead
    have := toNat_toLower ch
    rw [hhead] at this
    split at this <;> omega

/-- A pattern that begins outside ASCII and not in lowercase. -/
def Blind (lower : LowercaseMapping) (pat : Text) : Prop :=
  ∃ c x, pat.head? = some c ∧ (lower.char c).head? = some x ∧ 128 ≤ x.toNat ∧ x ≠ c

/-- What is not in lowercase is not found. -/
theorem blindSearch (hlower : lower.Standard) {c : Char} (hx : (lower.char c).head? = some x)
    (hne : x ≠ c) (matcher : Matcher root) :
    Search root (scanLowercase lower c) matcher (fun _ ↦ False) (fun _ ↦ False)
      (fun _ _ ↦ True) := by
  have hnone : ∀ s, scanLowercase lower c s = none := by
    intro s
    have hspec := scanLowercase_spec lower c s
    cases hscan : scanLowercase lower c s with
    | none => rfl
    | some off =>
      rw [hscan] at hspec
      obtain ⟨a, ch, b, -, -, hhead, -⟩ := hspec
      have hfixed := hlower.idempotent ch c hhead
      exact absurd (Option.some_inj.mp (hx.symm.trans hfixed)) hne
  refine ⟨nofun, nofun, nofun, ?_, fun _ _ _ _ _ ↦ ⟨id, id⟩, fun _ _ h ↦ h.elim, ?_,
    fun _ _ h ↦ h.elim⟩
  · intro s off hscan
    rw [hnone] at hscan
    cases hscan
  · rintro c' pre u ch s post - ⟨u', a, -, hscan⟩
    rw [hnone] at hscan
    cases hscan

/-- The comparison succeeds at a codepoint. -/
def MatchesCasei (root : Node Text h) (lower : LowercaseMapping) (pat : Text) (q : ℕ) : Prop :=
  isCharBoundary (bytes (concat (root.leaves h))) q = true ∧
    ∃ d, Settles (compareCursorStrCasei lower pat (Cursor.new root q)) (.done (d, some q))

/-- The comparison succeeds just where the lowercase of the text begins with the pattern. -/
theorem matchesCasei_iff (hroot : h = 0 ∨ root.Inner h) (hpat : pat ≠ []) :
    MatchesCasei root lower pat q ↔ LowerOccurs root lower pat q := by
  by_cases hq : isCharBoundary (bytes (concat (root.leaves h))) q = true
  · have hle : q ≤ root.len := by
      rw [Node.len_eq, lenOf_eq]
      exact isCharBoundary_le hq
    obtain ⟨pre, l, post, hstands, hposition⟩ := Cursor.NoneAbove.descend
      (c := (⟨q, fun _ ↦ none, none, 0⟩ : Cursor root)) hroot (fun _ _ _ ↦ rfl) hle
    change (Cursor.new root q).position = q at hposition
    obtain ⟨u, s, -, hc⟩ := Cursor.Stands.between (c := Cursor.new root q) hstands
      (by rw [hposition]; exact hq)
    have hiff : LowerOccurs root lower pat (Cursor.new root q).position ↔ _ := lowerOccurs_iff hc
    have heq : compareCursorStrCasei lower pat (Cursor.new root q) = _ :=
      compareCursorStrCasei_eq hpat _
    rw [hposition] at hiff heq
    rw [MatchesCasei, and_iff_right hq, heq, hiff]
    constructor
    · rintro ⟨d, hd⟩
      by_contra hnot
      obtain ⟨e, -, -, he⟩ := compareCaseiLoop_fails (k := q) hroot hc hpat hnot
      have := hd.unique he
      injection this with this
      cases congrArg Prod.snd this
    · exact compareCaseiLoop_matches hroot hc hpat
  · refine iff_of_false (fun hmatch ↦ hq hmatch.1) ?_
    rintro ⟨u, s, hflat, rfl, -⟩
    refine hq ?_
    rw [hflat, isCharBoundary_append]
    change (if (bytes u).length ≤ _ then _ else _) = true
    rw [if_pos (Nat.le_refl _)]
    exact isCharBoundary_length

/-- A valid cursor on a boundary, from which a search starts. -/
theorem ready_of_reached {t : Tree Text} {c : Cursor t.root} (hc : Cursor.Reached textMetrics c)
    (hpos : isCharBoundary (bytes t.flat) c.pos = true) (hleaf : c.leaf.isSome) :
    c.Ready c.pos := by
  obtain ⟨pre, l, post, hstands⟩ := (hc.sound t.integrity textMetrics_lawful).stands hleaf
  obtain ⟨u, s, -, hbetween⟩ := hstands.between hpos
  exact hbetween.ready rfl

/-- What a search in lowercase for a pattern is made of. -/
theorem exists_searches_casei (root : Node Text h) (hlower : lower.Standard) (ch : Char)
    (rest : Text) :
    ∃ x b bs bs', (lower.char ch).head? = some x ∧ (lower.str (ch :: rest)).head? = some x ∧
      String.utf8EncodeChar x = b :: bs ∧ bytes (lower.str (ch :: rest)) = b :: bs' ∧
      Searches lower .caseInsensitive (ch :: rest) (scannerFor lower ch b)
        (compareCursorStrCasei lower (lower.str (ch :: rest)) : Matcher root) := by
  obtain ⟨x, xs, hxs⟩ := List.exists_cons_of_ne_nil (hlower.char_ne_nil ch)
  have hx : (lower.char ch).head? = some x := by rw [hxs]; rfl
  have hhead : (lower.str (ch :: rest)).head? = some x := (hlower.str_head ch rest).trans hx
  obtain ⟨rest', hrest'⟩ := List.head?_eq_some_iff.mp hhead
  obtain ⟨b, bs, hb, -⟩ := utf8EncodeChar_eq_cons x
  have hbytes : bytes (lower.str (ch :: rest)) = b :: (bs ++ bytes rest') := by
    rw [hrest', bytes_cons, hb, List.cons_append]
  refine ⟨x, b, bs, _, hx, hhead, hb, hbytes, ?_⟩
  intro n c
  funext fuel
  simp only [findProgress, hbytes]

/-- A pattern that begins outside ASCII and not in lowercase is never found. -/
theorem findsFirst_blind (t : Tree Text) (hlen : t.len < usizeMax) {c : Cursor t.root}
    (hready : c.Ready c.pos) (hlower : lower.Standard) (hblind : Blind lower pat)
    {Match : ℕ → Prop} :
    FindsFirst lower .caseInsensitive pat c Match (fun _ _ ↦ True) ↔
      ∀ q, c.pos ≤ q → ¬ Match q := by
  obtain ⟨ch, x, hch, hx, hge, hne⟩ := hblind
  obtain ⟨rest, rfl⟩ := List.head?_eq_some_iff.mp hch
  obtain ⟨x', b, bs, bs', hx', -, hb, -, hsearch⟩ := exists_searches_casei t.root hlower ch rest
  obtain rfl := Option.some_inj.mp (hx.symm.trans hx')
  rw [scannerFor, needlesFor_eq_none hge hb] at hsearch
  have hnothing := ((blindSearch hlower hx hne _).findsFirst_iff hsearch t.integrity hlen
    hready).mpr
    fun _ _ h ↦ h.elim
  exact hnothing.of_nothing

/-- Any other pattern. -/
theorem findsFirst_casei (t : Tree Text) (hlen : t.len < usizeMax) {c : Cursor t.root}
    (hready : c.Ready c.pos) (hlower : lower.Standard) (hpat : pat ≠ [])
    (hblind : ¬ Blind lower pat) :
    FindsFirst lower .caseInsensitive pat c (LowerOccurs t.root lower (lower.str pat))
        (fun _ _ ↦ True) ↔
      Free (LowerOccurs t.root lower (lower.str pat))
        (CaseiSticksAt t.root lower (lower.str pat)) c.pos := by
  obtain ⟨ch, rest, rfl⟩ := List.exists_cons_of_ne_nil hpat
  obtain ⟨x, b, bs, bs', hx, hhead, hb, hbytes, hsearch⟩ :=
    exists_searches_casei t.root hlower ch rest
  have hS : Search t.root (scannerFor lower ch b)
      (compareCursorStrCasei lower (lower.str (ch :: rest)))
      (LowerOccurs t.root lower (lower.str (ch :: rest)))
      (CaseiSticksAt t.root lower (lower.str (ch :: rest))) (fun _ _ ↦ True) := by
    rcases Nat.lt_or_ge x.toNat 128 with hascii | hge
    · obtain ⟨needles, hneedles, hS⟩ := asciiSearch t.integrity hlower hhead hascii
        (hlower.idempotent ch x hx) hbytes
      rwa [scannerFor, hneedles]
    · obtain rfl : x = ch := by
        by_contra hne
        exact hblind ⟨ch, x, rfl, hx, hge, hne⟩
      rw [scannerFor, needlesFor_eq_none hge hb]
      exact lowercaseSearch t.integrity hlower hhead hge
  exact hS.findsFirst_iff hsearch t.integrity hlen hready

theorem matchesCasei_eq (hroot : h = 0 ∨ root.Inner h) (hpat : pat ≠ []) :
    MatchesCasei root lower pat = LowerOccurs root lower pat := by
  funext q
  exact propext (matchesCasei_iff hroot hpat)

/-- A search in lowercase finds the first position at which the comparison succeeds just if each
candidate that sticks has such a position before it; an invalid cursor finds nothing, and neither
does a search for a pattern that begins outside ASCII and not in lowercase. -/
theorem find_casei_iff (t : Tree Text) (hlen : t.len < usizeMax) {c : Cursor t.root}
    (hc : Cursor.Reached textMetrics c) (hpos : isCharBoundary (bytes t.flat) c.pos = true)
    (hlower : lower.Standard) (hpat : pat ≠ []) :
    FindsFirst lower .caseInsensitive pat c (MatchesCasei t.root lower (lower.str pat))
      (fun _ _ ↦ True) ↔
      (c.leaf.isSome → ¬ Blind lower pat → Free (MatchesCasei t.root lower (lower.str pat))
        (CaseiSticksAt t.root lower (lower.str pat)) c.pos) ∧
      (c.leaf = none ∨ Blind lower pat →
        ∀ q, c.pos ≤ q → ¬ MatchesCasei t.root lower (lower.str pat) q) := by
  rcases hleaf : c.leaf with _ | l
  · obtain ⟨ch, rest, rfl⟩ := List.exists_cons_of_ne_nil hpat
    obtain ⟨x, b, bs, bs', -, -, -, -, hsearch⟩ := exists_searches_casei t.root hlower ch rest
    rw [findsFirst_invalid hsearch hleaf]
    exact ⟨fun hnone ↦ ⟨nofun, fun _ ↦ hnone⟩, fun h ↦ h.2 (.inl rfl)⟩
  have hready := ready_of_reached hc hpos (by rw [hleaf]; rfl)
  by_cases hblind : Blind lower pat
  · rw [findsFirst_blind t hlen hready hlower hblind]
    exact ⟨fun hnone ↦ ⟨fun _ h ↦ absurd hblind h, fun _ ↦ hnone⟩, fun h ↦ h.2 (.inr hblind)⟩
  · have hne : lower.str pat ≠ [] := by
      obtain ⟨ch, rest, rfl⟩ := List.exists_cons_of_ne_nil hpat
      obtain ⟨x, -, -, -, -, hhead, -⟩ := exists_searches_casei t.root hlower ch rest
      exact ne_nil_of_head hhead
    rw [matchesCasei_eq t.integrity hne, findsFirst_casei t hlen hready hlower hpat hblind]
    refine ⟨fun hfree ↦ ⟨fun _ _ ↦ hfree, ?_⟩, fun h ↦ h.1 rfl hblind⟩
    rintro (h | h)
    · cases h
    · exact absurd h hblind

/-- The case conversions of ASCII text and of one letter more. -/
def latinLowercase : LowercaseMapping where
  char c := if c = 'É' then ['é'] else [c.toLower]
  str s := s.flatMap fun c ↦ if c = 'É' then ['é'] else [c.toLower]

theorem latinLowercase_char (ch : Char) :
    (ch = 'É' ∧ latinLowercase.char ch = ['é']) ∨
      (ch ≠ 'É' ∧ latinLowercase.char ch = [ch.toLower]) := by
  by_cases hch : ch = 'É'
  · exact .inl ⟨hch, if_pos hch⟩
  · exact .inr ⟨hch, if_neg hch⟩

theorem latinLowercase_standard : latinLowercase.Standard where
  char_ne_nil c := by
    rcases latinLowercase_char c with ⟨-, hc⟩ | ⟨-, hc⟩ <;> rw [hc] <;> exact List.cons_ne_nil _ _
  ascii c hascii := by
    rcases latinLowercase_char c with ⟨rfl, -⟩ | ⟨-, hc⟩
    · exact absurd hascii (by decide)
    · exact hc
  ascii_preimage c x hx hascii := by
    rcases latinLowercase_char c with ⟨-, hc⟩ | ⟨-, hc⟩
    · rw [hc] at hx
      obtain rfl := Option.some_inj.mp hx
      exact absurd hascii (by decide)
    · rw [hc] at hx
      obtain rfl := Option.some_inj.mp hx
      rw [toNat_toLower] at hascii
      left
      split at hascii <;> omega
  idempotent c x hx := by
    rcases latinLowercase_char c with ⟨-, hc⟩ | ⟨hne, hc⟩
    · rw [hc] at hx
      obtain rfl := Option.some_inj.mp hx
      rfl
    · rw [hc] at hx
      obtain rfl := Option.some_inj.mp hx
      rcases latinLowercase_char c.toLower with ⟨heq, -⟩ | ⟨-, hlow⟩
      · -- only that letter itself has its number
        refine absurd ?_ hne
        rw [← Char.toNat_inj] at heq ⊢
        rw [toNat_toLower, show 'É'.toNat = 201 from rfl] at heq
        rw [show 'É'.toNat = 201 from rfl]
        split at heq <;> omega
      · rw [hlow, Char.toLower_toLower_eq_toLower]
        rfl
  str_head c s := by
    change (latinLowercase.char c ++ latinLowercase.str s).head? = _
    rcases latinLowercase_char c with ⟨-, hc⟩ | ⟨-, hc⟩ <;> rw [hc] <;> rfl

/-- A pattern of one ASCII character sticks nowhere, and is looked for as it should be. -/
theorem find_casei_letter : FindsFirst latinLowercase .caseInsensitive "A".toList
    (Cursor.new fourLeaves.root 0)
    (MatchesCasei fourLeaves.root latinLowercase (latinLowercase.str "A".toList))
      (fun _ _ ↦ True) := by
  refine (find_casei_iff fourLeaves short_fourLeaves (.new (Nat.zero_le _)) boundary_fourLeaves
    latinLowercase_standard (by decide)).mpr ⟨fun _ _ q _ hsticks ↦ ?_, ?_⟩
  · obtain ⟨ch, rest, pre, u, l, post, hpat, -, -, -, -, hdiffers⟩ := hsticks
    obtain ⟨x, xs, hx⟩ := List.exists_cons_of_ne_nil (latinLowercase_standard.char_ne_nil ch)
    have hletter : ['a'] = x :: (xs ++ rest) := hpat.trans (congrArg (· ++ rest) hx)
    exact absurd (List.append_eq_nil_iff.mp (List.cons.inj hletter).2.symm).2 hdiffers.ne_nil
  · rintro (hnone | ⟨c, x, hc, hx, hge, -⟩)
    · rw [new_fourLeaves.1] at hnone
      cases hnone
    · obtain rfl := Option.some_inj.mp hc
      obtain rfl := Option.some_inj.mp hx
      exact absurd hge (by decide)

/-- An `É` is not found in a text that is just that. -/
theorem find_casei_blind : latinLowercase.Standard ∧
    ¬ FindsFirst latinLowercase .caseInsensitive "É".toList
      (Cursor.new (h := 0) (L := Text) "É".toList 0)
      (MatchesCasei (h := 0) "É".toList latinLowercase (latinLowercase.str "É".toList))
      (fun _ _ ↦ True) := by
  refine ⟨latinLowercase_standard, fun hfinds ↦ ?_⟩
  have hready := ready_of_reached (t := ⟨0, "É".toList, .inl rfl⟩) (.new (Nat.zero_le _))
    (by decide) rfl
  have hnone := (findsFirst_blind ⟨0, "É".toList, .inl rfl⟩ (by decide) hready
    latinLowercase_standard
    ⟨'É', 'é', rfl, rfl, by decide, by decide⟩).mp hfinds
  refine hnone 0 (Nat.le_refl 0) ((matchesCasei_iff (.inl rfl) (by decide)).mpr ?_)
  exact ⟨[], "É".toList, rfl, rfl, by decide⟩

end EeEditor.BTree
