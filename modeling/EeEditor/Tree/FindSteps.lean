import EeEditor.Tree.CursorRuns
import EeEditor.Tree.Find
import EeEditor.Tree.TextConvert

/-!
# The steps of a search

What a search relies on of a scanner and a matcher (`Search`), and what follows for any number of
steps. A matcher that fails leaves the cursor after its candidate, unless the candidate sticks: then
the cursor is at the candidate or before it, and no number of steps gets past it.
-/

namespace EeEditor.BTree

variable {h : ℕ} {root : Node Text h} {c d : Cursor root} {pre post : List Text} {l u s : Text}
  {ch : Char} {o p q r : ℕ}

/-! ## Between two characters -/

theorem strFrom_append (u s : Text) : strFrom (u ++ s) (bytes u).length = some s := by
  induction u with
  | nil => rw [List.nil_append, bytes_nil, List.length_nil, strFrom]
  | cons ch u ih =>
    have hpos := utf8Size_pos ch
    obtain ⟨n, hn⟩ : ∃ n, (bytes (ch :: u)).length = n + 1 := by
      refine ⟨(bytes (ch :: u)).length - 1, ?_⟩
      rw [bytes_cons, List.length_append]
      omega
    rw [hn, List.cons_append, strFrom, ← hn, bytes_cons, List.length_append,
      if_pos (Nat.le_add_right _ _), Nat.add_sub_cancel_left, ih]

/-- A position with a character after it is in one leaf. -/
theorem split_unique {pre' post' : List Text} {u' s' : Text} (hs : s ≠ []) (hs' : s' ≠ [])
    (heq : pre ++ (u ++ s) :: post = pre' ++ (u' ++ s') :: post')
    (hlen : lenOf pre + Leaf.len u = lenOf pre' + Leaf.len u') :
    pre = pre' ∧ u = u' ∧ s = s' ∧ post = post' := by
  have hsize := len_append u s
  have hsize' := len_append u' s'
  have hpos := len_pos hs
  have hpos' := len_pos hs'
  obtain ⟨rfl, hleaf, rfl⟩ := Cursor.eq_of_holds heq (p := lenOf pre + Leaf.len u) (by omega)
    (by omega) (by omega) (by omega)
  obtain ⟨rfl, rfl⟩ := append_unique hleaf (by omega)
  exact ⟨rfl, rfl, rfl, rfl⟩

namespace Cursor

/-- A valid cursor between two parts of its leaf. -/
structure Between (c : Cursor root) (pre : List Text) (u s : Text) (post : List Text) : Prop where
  stands : c.Stands pre (u ++ s) post
  position : c.position = lenOf pre + Leaf.len u

theorem Between.offset (hc : c.Between pre u s post) :
    c.position - c.offsetOfLeaf = Leaf.len u := by
  rw [hc.stands.at_leaf.offset, hc.position, Nat.add_sub_cancel_left]

theorem Between.getLeaf (hc : c.Between pre u s post) :
    c.getLeaf = some (u ++ s, (bytes u).length) := by
  rw [Cursor.getLeaf, hc.stands.leaf, Option.map_some, hc.offset]
  rfl

theorem Between.len (hc : c.Between pre u s post) :
    root.len = c.position + Leaf.len s + lenOf post := by
  rw [hc.stands.at_leaf.len, hc.position, len_append]
  omega

/-- At the end of a leaf is the end of the tree. -/
theorem Between.last (hc : c.Between pre u [] post) : post = [] ∧ c.position = root.len := by
  rcases hc.stands.lt with hlt | ⟨rfl, hend⟩
  · rw [hc.position, List.append_nil] at hlt
    exact absurd hlt (Nat.lt_irrefl _)
  · exact ⟨rfl, by rw [hc.len]; rfl⟩

/-- A cursor is told by its leaf before the last code point of a leaf that is not the last. -/
theorem Between.of_last (hc : c.Between pre u s post) {pre' post' : List Text} {u' : Text}
    {ch : Char} (hleaves : root.leaves h = pre' ++ (u' ++ [ch]) :: l :: post')
    (hq : c.position = lenOf pre' + Leaf.len u') :
    pre = pre' ∧ u = u' ∧ s = [ch] ∧ post = l :: post' := by
  rcases eq_or_ne s [] with rfl | hs
  · have hlen := hc.last.2
    have hpos := utf8Size_pos ch
    have hsize := len_append u' [ch]
    rw [len_cons, show Leaf.len ([] : Text) = 0 from rfl] at hsize
    rw [Node.len_eq, hleaves, lenOf_append, lenOf_cons] at hlen
    omega
  · exact split_unique hs (List.cons_ne_nil _ _) (hc.stands.at_leaf.leaves.symm.trans hleaves)
      (hc.position.symm.trans hq)

theorem Between.pos_ne (hc : c.Between pre u s post) (hs : s ≠ []) : c.pos ≠ c.totalLen := by
  have hlen := hc.len
  have hpos := len_pos hs
  change c.position ≠ root.len
  omega

/-- Where a valid cursor is, if on a boundary. -/
theorem Stands.between (hc : c.Stands pre l post)
    (hb : isCharBoundary (bytes (concat (root.leaves h))) c.position = true) :
    ∃ u s, l = u ++ s ∧ c.Between pre u s post := by
  obtain ⟨o, hposition, -, ho⟩ := hc.exists_offset
  rw [hc.at_leaf.leaves, hposition] at hb
  obtain ⟨u, s, rfl, rfl⟩ := exists_split (isCharBoundary_leaf ho hb)
  exact ⟨u, s, rfl, hc, hposition⟩

theorem Stands.congr (hc : c.Stands pre l post) (hcache : d.cache = c.cache)
    (hoffset : d.offsetOfLeaf = c.offsetOfLeaf) (hleaf : d.leaf = c.leaf)
    (hle : lenOf pre ≤ d.position)
    (hlt : d.position < lenOf pre + Leaf.len l ∨
    (post = [] ∧ d.position = lenOf pre + Leaf.len l)) :
    d.Stands pre l post :=
  ⟨hc.at_leaf.congr hcache hoffset, hleaf.trans hc.leaf, hle, hlt⟩

/-- To a position of the same leaf `set` just goes. -/
theorem Between.set_ahead {a b : Text} (hc : c.Between pre u (a ++ b) post) (hb : b ≠ []) :
    (c.set (c.position + Leaf.len a)).Between pre (u ++ a) b post := by
  have hoffset := hc.stands.at_leaf.offset
  have hposition := hc.position
  have hlen := len_pos hb
  have hleaf : u ++ (a ++ b) = u ++ a ++ b := (List.append_assoc _ _ _).symm
  have hset : c.set (c.position + Leaf.len a) = { c with position := c.position + Leaf.len a } := by
    rw [set_eq hc.stands.leaf, if_pos]
    rw [len_append, len_append, hoffset]
    omega
  have hsize := len_append u a
  have hwhole := len_append (u ++ a) b
  rw [hset]
  refine ⟨(hleaf ▸ hc.stands).congr rfl rfl rfl ?_ (.inl ?_), ?_⟩
  all_goals
    dsimp only
    omega

/-- Past a character, in the leaf or at the beginning of the next one. -/
theorem Between.next (hroot : h = 0 ∨ root.Inner h) (hc : c.Between pre u (ch :: s) post) :
    ((s ≠ [] ∨ post = []) ∧ (c.next baseMetric).1.Between pre (u ++ [ch]) s post) ∨
      ∃ l' post', s = [] ∧ post = l' :: post' ∧
        (c.next baseMetric).1.Between (pre ++ [u ++ [ch]]) [] l' post' := by
  have hstands := hc.stands
  have hlen := hc.len
  have hoffset := hstands.at_leaf.offset
  have hposition := hc.position
  have hleaf : u ++ ch :: s = u ++ [ch] ++ s := by rw [List.append_assoc]; rfl
  have hsize : Leaf.len (u ++ [ch]) = Leaf.len u + (String.utf8EncodeChar ch).length := by
    rw [len_append, len_cons, show Leaf.len ([] : Text) = 0 from rfl, Nat.add_zero]
  have hpos := utf8Size_pos ch
  rw [len_cons] at hlen
  have hnext : baseMetric.next (u ++ ch :: s) (Leaf.len u) = some (Leaf.len (u ++ [ch])) := by
    rw [hsize]
    exact charsNext_append u ch s
  have hended : ¬ (root.len ≤ c.position ∨ c.leaf.isNone = true) := by
    refine hstands.not_ended ?_
    rw [hleaf, len_append]
    omega
  have hinside : c.nextInsideLeaf baseMetric
    = some (if Leaf.len (u ++ [ch]) = Leaf.len (u ++ ch :: s) ∧
      c.offsetOfLeaf + Leaf.len (u ++ [ch]) ≠ root.len then c.nextLeaf
      else { c with position := c.offsetOfLeaf + Leaf.len (u ++ [ch]) }) := by
    simp only [nextInsideLeaf, hstands.leaf, hc.offset, hnext, Option.bind_eq_bind,
      Option.bind_some]
    rfl
  rw [next_eq, if_neg hended, hinside]
  dsimp only [found]
  by_cases hend : s = [] ∧ post ≠ []
  · obtain ⟨rfl, hpost⟩ := hend
    right
    rw [List.append_nil] at hleaf
    rw [hleaf] at hstands
    have hlen' := hstands.at_leaf.len
    rcases hstands.at_leaf.nextLeaf hroot hstands.leaf with ⟨rfl, -⟩ |
      ⟨l', post', rfl, hat, hleaf', hpos'⟩
    · exact absurd rfl hpost
    have hl' := pos_of_leaves hroot hat.leaves (by simp; omega) l' (by simp)
    rw [if_pos ⟨by rw [hleaf], by rw [hoffset, hlen', lenOf_cons]; omega⟩]
    refine ⟨l', post', rfl, rfl, ⟨hat, hleaf', hpos'.ge, .inl ?_⟩, hpos'⟩
    rw [List.nil_append]
    omega
  · left
    have hrest : s ≠ [] ∨ post = [] := by
      by_contra hnot
      rw [not_or, not_not] at hnot
      exact hend hnot
    refine ⟨hrest, ?_⟩
    have hstay : ¬ (Leaf.len (u ++ [ch]) = Leaf.len (u ++ ch :: s) ∧
        c.offsetOfLeaf + Leaf.len (u ++ [ch]) ≠ root.len) := by
      rintro ⟨heq, hne⟩
      rw [hleaf, len_append _ s] at heq
      rcases hrest with hs | rfl
      · have := len_pos hs
        omega
      · rw [lenOf_nil] at hlen
        omega
    rw [if_neg hstay]
    refine ⟨(hleaf ▸ hstands).congr rfl rfl rfl ?_ ?_, ?_⟩
    · change c.offsetOfLeaf + _ = _
      rw [hoffset]
    · change lenOf pre ≤ c.offsetOfLeaf + _
      omega
    · change c.offsetOfLeaf + _ < _ ∨ _ ∧ c.offsetOfLeaf + _ = _
      rw [hoffset, len_append _ s]
      rcases hrest with hs | rfl
      · have := len_pos hs
        exact .inl (by omega)
      · rcases Nat.eq_zero_or_pos (Leaf.len s) with hzero | hlt
        · exact .inr ⟨rfl, by omega⟩
        · exact .inl (by omega)

/-- The next leaf, if there is one. -/
theorem Between.nextLeaf (hroot : h = 0 ∨ root.Inner h) (hc : c.Between pre u s post) :
    (post = [] ∧ c.nextLeaf.leaf = none ∧ c.nextLeaf.Sound ∧ c.nextLeaf.position = root.len) ∨
      ∃ l post', post = l :: post' ∧ 0 < Leaf.len l ∧
        c.nextLeaf.Between (pre ++ [u ++ s]) [] l post' := by
  rcases hc.stands.at_leaf.nextLeaf hroot hc.stands.leaf with ⟨rfl, hat, hnone, hend⟩ |
    ⟨l, post', rfl, hat, hleaf, hend⟩
  · exact .inl ⟨rfl, hnone, hat.sound hnone, hend⟩
  · have := pos_of_leaves hroot hat.leaves (by simp; omega) l (by simp)
    refine .inr ⟨l, post', rfl, this, ⟨hat, hleaf, hend.ge, .inl ?_⟩, hend⟩
    rw [List.nil_append]
    omega

/-! ## After a candidate -/

/-- A cursor from which a search goes on: on a boundary, or past the last leaf. -/
def Ready (c : Cursor root) (r : ℕ) : Prop :=
  c.position = r ∧ ((c.leaf = none ∧ r = root.len) ∨ ∃ pre u s post, c.Between pre u s post)

theorem Between.ready (hc : c.Between pre u s post) (hr : c.position = r) : c.Ready r :=
  ⟨hr, .inr ⟨pre, u, s, post, hc⟩⟩

theorem Ready.le (hc : c.Ready r) : r ≤ root.len := by
  obtain ⟨rfl, ⟨-, hr⟩ | ⟨pre, u, s, post, hbetween⟩⟩ := hc
  · exact hr.le
  · rw [hbetween.len, Nat.add_assoc]
    exact Nat.le_add_right _ _

theorem Between.next_ready (hroot : h = 0 ∨ root.Inner h) (hc : c.Between pre u (ch :: s) post) :
    (c.next baseMetric).1.Ready (c.position + (String.utf8EncodeChar ch).length) := by
  have hsize : Leaf.len (u ++ [ch]) = Leaf.len u + (String.utf8EncodeChar ch).length := by
    rw [len_append, len_cons, show Leaf.len ([] : Text) = 0 from rfl, Nat.add_zero]
  rcases hc.next hroot with ⟨-, hd⟩ | ⟨l', post', rfl, rfl, hd⟩
  · refine hd.ready ?_
    rw [hd.position, hc.position, hsize, Nat.add_assoc]
  · refine hd.ready ?_
    rw [hd.position, hc.position, lenOf_append, lenOf_cons, lenOf_nil, hsize,
      show Leaf.len ([] : Text) = 0 from rfl]
    omega

/-- `set` goes to a position between two characters unless it strays. -/
theorem Sound.set_between (hroot : h = 0 ∨ root.Inner h) (hc : c.Sound)
    (hleaves : root.leaves h = pre ++ (u ++ ch :: s) :: post) (hq : q = lenOf pre + Leaf.len u)
    (hstrays : ¬ c.Strays q) : (c.set q).Between pre u (ch :: s) post := by
  have hpos := utf8Size_pos ch
  have hwhole : Leaf.len (u ++ ch :: s)
      = Leaf.len u + ((String.utf8EncodeChar ch).length + Leaf.len s) := by
    rw [len_append, len_cons]
  have hlen : root.len = lenOf pre + (Leaf.len (u ++ ch :: s) + lenOf post) := by
    rw [Node.len_eq, hleaves, lenOf_append, lenOf_cons]
  obtain ⟨pre', l', post', hstands, hiff⟩ := hc.set_cases (p := q) hroot (by omega)
  have hposition := hiff.mpr hstrays
  have hle := hstands.le
  have hlen' := hstands.at_leaf.len
  have hlt : q < lenOf pre' + Leaf.len l' := by
    rcases hstands.lt with hlt | ⟨rfl, hend⟩
    · omega
    · rw [lenOf_nil] at hlen'
      omega
  obtain ⟨rfl, rfl, rfl⟩ := eq_of_holds (hleaves.symm.trans hstands.at_leaf.leaves) (p := q)
    (by omega)
    (by omega) (by omega) hlt
  exact ⟨hstands, hposition.trans hq⟩

/-- A match that fails leaves the cursor after the first character of its candidate. -/
theorem Sound.giveUp (hroot : h = 0 ∨ root.Inner h) (hc : c.Sound)
    (hleaves : root.leaves h = pre ++ (u ++ ch :: s) :: post) (hq : q = lenOf pre + Leaf.len u)
    (hstrays : ¬ c.Strays q) :
    (c.giveUp q).Ready (q + (String.utf8EncodeChar ch).length) := by
  have hset := hc.set_between hroot hleaves hq hstrays
  have hready := hset.next_ready hroot
  rwa [hset.position, ← hq] at hready

/-- Where the shortcut to the leaf before goes. -/
theorem Sound.set_strays (hroot : h = 0 ∨ root.Inner h) (hc : c.Sound) (hstrays : c.Strays q) :
    ∃ pre l post, (c.set q).Between pre [] l post ∧ q + 1 = lenOf pre + Leaf.len l ∧
      1 < Leaf.len l := by
  obtain ⟨pre, l, post, hstands⟩ := hc.stands hstrays.1
  have hq := hstrays.2.1
  have hoffset := hstands.at_leaf.offset
  rcases List.eq_nil_or_concat' pre with rfl | ⟨pre, l', rfl⟩
  · rw [lenOf_nil] at hoffset
    omega
  obtain ⟨hpos, hbefore⟩ := hstands.at_leaf.offset_pos hroot
  have hne := (hstands.at_leaf.strays_iff hroot hstands.leaf hq).mp hstrays
  obtain ⟨hat, hleaf, hposition⟩ := At.prevLeaf (c := { c with position := q }) hroot
    (hstands.at_leaf.congr rfl rfl)
  rw [set_eq hstands.leaf, if_neg (by omega), if_neg (by omega), if_pos ⟨hq, by rw [hleaf]; rfl⟩]
  exact ⟨pre, l', l :: post, ⟨⟨hat, hleaf, hposition.ge,
    .inl (hposition.trans_lt (by simpa using hpos))⟩,
    hposition⟩, by omega, by omega⟩

/-- Where a match that fails leaves the cursor if that strays. -/
theorem Sound.giveUp_strays (hroot : h = 0 ∨ root.Inner h) (hc : c.Sound)
    (hleaves : root.leaves h = pre ++ (u ++ ch :: s) :: post) (hq : q = lenOf pre + Leaf.len u)
    (hstrays : c.Strays q) : ∃ r ≤ q, (c.giveUp q).Ready r := by
  obtain ⟨pre', l', post', hset, hlen, hlt⟩ := hc.set_strays hroot hstrays
  have hpos := utf8Size_pos ch
  have hwhole : Leaf.len (u ++ ch :: s)
      = Leaf.len u + ((String.utf8EncodeChar ch).length + Leaf.len s) := by
    rw [len_append, len_cons]
  obtain ⟨rfl, rfl, rfl⟩ := eq_of_holds (hleaves.symm.trans hset.stands.at_leaf.leaves) (p := q)
    (by omega) (by omega) (by omega) (by rw [List.nil_append]; omega)
  -- the leaf has another character before the candidate
  cases u with
  | nil =>
    rw [show Leaf.len ([] : Text) = 0 from rfl] at hwhole hq
    omega
  | cons ch' u =>
    rw [List.cons_append] at hset
    refine ⟨_, ?_, hset.next_ready hroot⟩
    rw [hset.position, hq, len_cons, show Leaf.len ([] : Text) = 0 from rfl]
    omega

end Cursor

/-! ## Searches -/

/-- A scanner that goes through the leaf comes to a candidate. -/
def Hits (scanner : Text → Option ℕ) (u s : Text) : Prop :=
  ∃ u' a, u = u' ++ a ∧ scanner (a ++ s) = some (Leaf.len a)

/-- A scanner and a matcher for the positions of a rope that match. A candidate that sticks is one
whose failed match leaves the cursor at or before it. -/
structure Search (root : Node Text h) (scanner : Text → Option ℕ) (matcher : Matcher root)
    (Match Sticks : ℕ → Prop) (Post : ℕ → Cursor root → Prop) : Prop where
  boundary : ∀ {q}, Match q ∨ Sticks q → isCharBoundary (bytes (concat (root.leaves h))) q = true
  disjoint : ∀ {q}, Sticks q → ¬ Match q
  lt : ∀ {q}, Match q ∨ Sticks q → q < root.len
  hit : ∀ {s off}, scanner s = some off → ∃ a ch b, s = a ++ ch :: b ∧ off = Leaf.len a
  passes : ∀ {pre u a b post}, root.leaves h = pre ++ (u ++ (a ++ b)) :: post →
    (scanner (a ++ b) = none ∧ b = []) ∨ scanner (a ++ b) = some (Leaf.len a) →
    ∀ q, lenOf pre + Leaf.len u ≤ q → q < lenOf pre + Leaf.len u + Leaf.len a →
      ¬ Match q ∧ ¬ Sticks q
  matched : ∀ {c : Cursor root} {pre u s post}, c.Between pre u s post → Hits scanner u s →
    Match c.position →
      ∃ d, Settles (matcher c) (.done (d, some c.position)) ∧ Post c.position d
  failed : ∀ {c : Cursor root} {pre u ch s post}, c.Between pre u (ch :: s) post →
    Hits scanner u (ch :: s) → ¬ Match c.position → ¬ Sticks c.position →
      ∃ d, Settles (matcher c) (.done (d, none)) ∧
        d.Ready (c.position + (String.utf8EncodeChar ch).length)
  stuck : ∀ {c : Cursor root} {pre u s post}, c.Between pre u s post → Hits scanner u s →
    Sticks c.position → ∃ d r, Settles (matcher c) (.done (d, none)) ∧ r ≤ c.position ∧ d.Ready r

/-- Nothing from one position to another matches or sticks. -/
def Passed (Match Sticks : ℕ → Prop) (r r' : ℕ) : Prop :=
  ∀ q, r ≤ q → q < r' → ¬ Match q ∧ ¬ Sticks q

/-- The first position from one on that matches, if there is one. -/
def IsFirst (Match : ℕ → Prop) (p : ℕ) : Option ℕ → Prop
  | none => ∀ q, p ≤ q → ¬ Match q
  | some q => IsLeast {q | p ≤ q ∧ Match q} q

section

variable {scanner : Text → Option ℕ} {matcher : Matcher root} {Match Sticks : ℕ → Prop}
  {Post : ℕ → Cursor root → Prop}

/-- Within a character nothing matches or sticks. -/
theorem Search.inside (hS : Search root scanner matcher Match Sticks Post)
    (hleaves : root.leaves h = pre ++ (u ++ ch :: s) :: post) :
    Passed Match Sticks (lenOf pre + Leaf.len u + 1)
      (lenOf pre + Leaf.len u + (String.utf8EncodeChar ch).length) := by
  intro q hle hlt
  have hnot : ¬ isCharBoundary (bytes (concat (root.leaves h))) q = true := by
    intro hb
    obtain ⟨o, rfl⟩ := Nat.exists_eq_add_of_le (show lenOf pre + Leaf.len u ≤ q by omega)
    have hlen := len_append u (ch :: s)
    rw [len_cons] at hlen
    rw [hleaves, Nat.add_assoc] at hb
    have hb' := isCharBoundary_leaf (show Leaf.len u + o ≤ Leaf.len (u ++ ch :: s) by omega) hb
    change isCharBoundary _ ((bytes u).length + o) = true at hb'
    rw [isCharBoundary_append, if_neg (by omega), Nat.add_sub_cancel_left,
      isCharBoundary_inside (by omega) (by omega)] at hb'
    exact Bool.false_ne_true hb'
  exact ⟨fun hm ↦ hnot (hS.boundary (.inl hm)), fun hst ↦ hnot (hS.boundary (.inr hst))⟩

theorem findCore_end (hc : c.position = root.len) :
    Settles (findCore scanner matcher c) (.done (c, .notFound)) :=
  ⟨0, fun _ ↦ if_pos hc⟩

theorem findCore_invalid (hc : c.leaf = none) :
    Settles (findCore scanner matcher c) (.done (c, .notFound)) := by
  refine ⟨0, fun fuel ↦ ?_⟩
  rw [findCore, Cursor.getLeaf, hc]
  exact ite_self _

theorem findCore_none (hc : c.Between pre u s post) (hs : s ≠ []) (hscan : scanner s = none) :
    Settles (findCore scanner matcher c) (.done (c.nextLeaf, .tryAgain)) := by
  refine ⟨0, fun fuel ↦ ?_⟩
  rw [findCore, if_neg (hc.pos_ne hs), hc.getLeaf]
  simp only [strFrom_append, Outcome.ofOption, Outcome.done_bind, hscan]

theorem findCore_hit {o : ℕ} {m : Option ℕ} (hc : c.Between pre u s post) (hs : s ≠ [])
    (hscan : scanner s = some o)
    (hmatcher : Settles (matcher (c.set (c.position + o))) (.done (d, m))) :
    Settles (findCore scanner matcher c) (.done (d, .ofMatch m)) := by
  obtain ⟨n, hn⟩ := hmatcher
  refine ⟨n, fun fuel ↦ ?_⟩
  rw [findCore, if_neg (hc.pos_ne hs), hc.getLeaf]
  simp only [strFrom_append, Outcome.ofOption, Outcome.done_bind, hscan, Cursor.pos, hn]

/-- What one step does. -/
theorem Search.step (hS : Search root scanner matcher Match Sticks Post)
    (hroot : h = 0 ∨ root.Inner h) (hc : c.Ready r) :
    (r = root.len ∧ Settles (findCore scanner matcher c) (.done (c, .notFound))) ∨
      ∃ q, r ≤ q ∧ Passed Match Sticks r q ∧ ∃ d,
        (Match q ∧ Settles (findCore scanner matcher c) (.done (d, .found q)) ∧ Post q d) ∨
        (Settles (findCore scanner matcher c) (.done (d, .tryAgain)) ∧
          ((r < q ∧ d.Ready q) ∨ (Sticks q ∧ ∃ r' ≤ q, d.Ready r'))) := by
  obtain ⟨rfl, ⟨hnone, hend⟩ | ⟨pre, u, s, post, hc⟩⟩ := hc
  · exact .inl ⟨hend, findCore_end hend⟩
  rcases eq_or_ne s [] with rfl | hs
  · exact .inl ⟨hc.last.2, findCore_end hc.last.2⟩
  right
  have hleaves := hc.stands.at_leaf.leaves
  cases hscan : scanner s with
  | none =>
    have hpassed := hS.passes (a := s) (b := []) (by rwa [List.append_nil])
      (.inl ⟨by rwa [List.append_nil], rfl⟩)
    rw [← hc.position] at hpassed
    have hpos := len_pos hs
    refine ⟨c.position + Leaf.len s, Nat.le_add_right _ _, hpassed, c.nextLeaf,
      .inr ⟨findCore_none hc hs hscan, .inl ⟨by omega, ?_⟩⟩⟩
    have hlen := hc.len
    rcases hc.nextLeaf hroot with ⟨rfl, hnone, -, hend⟩ | ⟨l', post', rfl, -, hnext⟩
    · rw [lenOf_nil] at hlen
      exact ⟨by omega, .inl ⟨hnone, by omega⟩⟩
    · refine hnext.ready ?_
      rw [hnext.position, hc.position, lenOf_append, lenOf_cons, lenOf_nil, len_append,
        show Leaf.len ([] : Text) = 0 from rfl]
      omega
  | some o =>
    obtain ⟨a, ch, b, rfl, rfl⟩ := hS.hit hscan
    have hset := hc.set_ahead (a := a) (b := ch :: b) (List.cons_ne_nil _ _)
    have hpassed := hS.passes hleaves (.inr hscan)
    have hhits : Hits scanner (u ++ a) (ch :: b) := ⟨u, a, rfl, hscan⟩
    have hposition : (c.set (c.position + Leaf.len a)).position = c.position + Leaf.len a := by
      rw [hset.position, len_append, hc.position, Nat.add_assoc]
    rw [← hc.position] at hpassed
    by_cases hmatch : Match (c.position + Leaf.len a)
    · obtain ⟨d, hd, hpost⟩ := hS.matched hset hhits (by rwa [hposition])
      rw [hposition] at hd hpost
      exact ⟨_, Nat.le_add_right _ _, hpassed, d, .inl ⟨hmatch, findCore_hit hc hs hscan hd, hpost⟩⟩
    by_cases hsticks : Sticks (c.position + Leaf.len a)
    · obtain ⟨d, r', hd, hr', hready⟩ := hS.stuck hset hhits (by rwa [hposition])
      rw [hposition] at hr'
      exact ⟨_, Nat.le_add_right _ _, hpassed, d,
        .inr ⟨findCore_hit hc hs hscan hd, .inr ⟨hsticks, r', hr', hready⟩⟩⟩
    · obtain ⟨d, hd, hready⟩ := hS.failed hset hhits (by rwa [hposition]) (by rwa [hposition])
      have hpos := utf8Size_pos ch
      have hleaves' : root.leaves h = pre ++ (u ++ a ++ ch :: b) :: post := by
        rw [hleaves, List.append_assoc]
      have hinside := hS.inside hleaves'
      rw [len_append, ← Nat.add_assoc, ← hc.position] at hinside
      rw [hposition] at hready
      refine ⟨_, by omega, ?_, d, .inr ⟨findCore_hit hc hs hscan hd, .inl ⟨by omega, hready⟩⟩⟩
      intro q hle hlt
      rcases Nat.lt_trichotomy q (c.position + Leaf.len a) with hq | rfl | hq
      · exact hpassed q hle hq
      · exact ⟨hmatch, hsticks⟩
      · exact hinside q hq hlt

/-! ## Runs -/

theorem findProgressIter_end {res : FindResult}
    (hcore : Settles (findCore scanner matcher c) (.done (d, res))) (hres : res ≠ .tryAgain)
    (n : ℕ) :
    Settles (findProgressIter scanner matcher (n + 1) c) (.done (d, res)) := by
  refine hcore.bind (k := fun (x : Cursor root × FindResult) fuel ↦ if x.2 = .tryAgain then
    findProgressIter scanner matcher n x.1 fuel else .done x) ?_
  simp only [if_neg hres]
  exact .const _

theorem findProgressIter_again {out : Outcome (Cursor root × FindResult)} {n : ℕ}
    (hcore : Settles (findCore scanner matcher c) (.done (d, .tryAgain)))
    (hrest : Settles (findProgressIter scanner matcher n d) out) :
    Settles (findProgressIter scanner matcher (n + 1) c) out := by
  refine hcore.bind (k := fun (x : Cursor root × FindResult) fuel ↦ if x.2 = .tryAgain then
    findProgressIter scanner matcher n x.1 fuel else .done x) ?_
  simp only [if_true]
  exact hrest

/-- Some steps and some more. -/
theorem findProgressIter_add (m n : ℕ) (c : Cursor root) (fuel : ℕ) :
    findProgressIter scanner matcher (m + n) c fuel
      = (findProgressIter scanner matcher m c fuel).bind fun x ↦ if x.2 = .tryAgain then
        findProgressIter scanner matcher n x.1 fuel else .done x := by
  induction m generalizing c with
  | zero => rw [Nat.zero_add]; rfl
  | succ m ih =>
    rw [Nat.succ_add, findProgressIter, findProgressIter]
    rcases findCore scanner matcher c fuel with ⟨d, res⟩ | _ | _
    · simp only [Outcome.done_bind]
      split
      · exact ih d
      · rename_i hres
        rw [Outcome.done_bind, if_neg hres]
    · rfl
    · rfl

/-- Every candidate that sticks has a match before it. -/
def Free (Match Sticks : ℕ → Prop) (r : ℕ) : Prop :=
  ∀ q, r ≤ q → Sticks q → ∃ q', r ≤ q' ∧ q' < q ∧ Match q'

theorem IsFirst.of_passed {m : Option ℕ} {r' : ℕ} (hpassed : Passed Match Sticks r r')
    (hle : r ≤ r')
    (hm : IsFirst Match r' m) : IsFirst Match r m := by
  have hrest : ∀ q, r ≤ q → Match q → r' ≤ q := by
    intro q hq hmatch
    by_contra hlt
    exact (hpassed q hq (Nat.lt_of_not_le hlt)).1 hmatch
  cases m with
  | none => exact fun q hq hmatch ↦ hm q (hrest q hq hmatch) hmatch
  | some q => exact ⟨⟨hle.trans hm.1.1, hm.1.2⟩, fun q' hq' ↦ hm.2 ⟨hrest q' hq'.1 hq'.2, hq'.2⟩⟩

theorem Free.of_passed {r' : ℕ} (hpassed : Passed Match Sticks r r') (hle : r ≤ r')
    (hfree : Free Match Sticks r) : Free Match Sticks r' := by
  intro q hq hsticks
  obtain ⟨q', hq', hlt, hmatch⟩ := hfree q (hle.trans hq) hsticks
  refine ⟨q', ?_, hlt, hmatch⟩
  by_contra hlt'
  exact (hpassed q' hq' (Nat.lt_of_not_le hlt')).1 hmatch

/-- The result of a search that has ended. -/
def FindResult.ofFind : Option ℕ → FindResult
  | some start => .found start
  | none => .notFound

/-- More steps than there are bytes ahead find the first match, unless a candidate sticks. -/
theorem Search.run_free (hS : Search root scanner matcher Match Sticks Post)
    (hroot : h = 0 ∨ root.Inner h) {n : ℕ} (hc : c.Ready r) (hfree : Free Match Sticks r)
    (hn : root.len < r + n) : ∃ d m, IsFirst Match r m ∧ (∀ q, m = some q → Post q d) ∧
      ∀ k, Settles (findProgressIter scanner matcher (n + k) c) (.done (d, .ofFind m)) := by
  induction n generalizing c r with
  | zero =>
    have := hc.le
    omega
  | succ n ih =>
    simp only [Nat.succ_add]
    rcases hS.step hroot hc with ⟨rfl, hcore⟩ | ⟨q, hle, hpassed, d, ⟨hmatch, hcore, hpost⟩ |
      ⟨hcore, ⟨hlt, hready⟩ | ⟨hsticks, -⟩⟩⟩
    · refine ⟨c, none, ?_, nofun, fun k ↦ findProgressIter_end hcore nofun _⟩
      intro q hq hmatch
      have := hS.lt (.inl hmatch)
      omega
    · refine ⟨d, some q, ⟨⟨hle, hmatch⟩, ?_⟩, ?_, fun k ↦ findProgressIter_end hcore nofun _⟩
      · rintro q' ⟨hq', hmatch'⟩
        by_contra hlt
        exact (hpassed q' hq' (Nat.lt_of_not_le hlt)).1 hmatch'
      · intro q' hq'
        obtain rfl := Option.some_inj.mp hq'
        exact hpost
    · obtain ⟨d', m, hm, hpost, hrest⟩ := ih hready (hfree.of_passed hpassed hle) (by omega)
      exact ⟨d', m, hm.of_passed hpassed hle, hpost, fun k ↦ findProgressIter_again hcore (hrest k)⟩
    · obtain ⟨q', hq', hlt, hmatch⟩ := hfree q hle hsticks
      exact absurd hmatch (hpassed q' hq' hlt).1

/-- No number of steps gets past a candidate that sticks. -/
theorem Search.run_stuck (hS : Search root scanner matcher Match Sticks Post)
    (hroot : h = 0 ∨ root.Inner h) (hsticks : Sticks p) (n : ℕ) (hc : c.Ready r) (hr : r ≤ p) :
    ∃ d, Settles (findProgressIter scanner matcher n c) (.done (d, .tryAgain)) ∨
      ∃ q < p, Settles (findProgressIter scanner matcher n c) (.done (d, .found q)) := by
  induction n generalizing c r with
  | zero => exact ⟨c, .inl (.const _)⟩
  | succ n ih =>
    have hahead : ∀ q, Passed Match Sticks r q → q ≤ p := by
      intro q hpassed
      by_contra hlt
      exact (hpassed p hr (Nat.lt_of_not_le hlt)).2 hsticks
    rcases hS.step hroot hc with ⟨rfl, -⟩ | ⟨q, hle, hpassed, d, ⟨hmatch, hcore, -⟩ |
      ⟨hcore, ⟨-, hready⟩ | ⟨-, r', hr', hready⟩⟩⟩
    · have := hS.lt (.inr hsticks)
      omega
    · refine ⟨d, .inr ⟨q, Nat.lt_of_le_of_ne (hahead q hpassed) ?_,
        findProgressIter_end hcore nofun n⟩⟩
      rintro rfl
      exact hS.disjoint hsticks hmatch
    · obtain ⟨d', hd'⟩ := ih hready (hahead q hpassed)
      exact ⟨d', hd'.imp (findProgressIter_again hcore)
        fun ⟨q', hq', hrest⟩ ↦ ⟨q', hq', findProgressIter_again hcore hrest⟩⟩
    · obtain ⟨d', hd'⟩ := ih hready (hr'.trans (hahead q hpassed))
      exact ⟨d', hd'.imp (findProgressIter_again hcore)
        fun ⟨q', hq', hrest⟩ ↦ ⟨q', hq', findProgressIter_again hcore hrest⟩⟩

/-! ## The results -/

variable {lower : LowercaseMapping} {cm : CaseMatching} {pat : Text}

/-- A search finds the first match, in one call of `find` and in calls of `find_progress` of any
number of steps, and leaves the cursor as it should be. -/
def FindsFirst (lower : LowercaseMapping) (cm : CaseMatching) (pat : Text) (c : Cursor root)
    (Match : ℕ → Prop) (Post : ℕ → Cursor root → Prop) : Prop :=
  ∃ d m, IsFirst Match c.pos m ∧ (∀ q, m = some q → Post q d) ∧
    Settles (find lower cm pat c) (.done (d, m)) ∧
    ∀ numSteps, 0 < numSteps → ∃ calls, ∀ k,
      Settles (findRepeatedly lower cm pat numSteps (calls + k) c) (.done (d, .ofFind m))

/-- What a search does in steps. -/
def Searches (lower : LowercaseMapping) (cm : CaseMatching) (pat : Text)
    (scanner : Text → Option ℕ) (matcher : Matcher root) : Prop :=
  ∀ n (c : Cursor root), findProgress lower cm pat n c = findProgressIter scanner matcher n c

theorem findRepeatedly_eq (hsearch : Searches lower cm pat scanner matcher) (numSteps calls : ℕ)
    (c : Cursor root) (fuel : ℕ) : findRepeatedly lower cm pat numSteps calls c fuel
      = findProgressIter scanner matcher (calls * numSteps) c fuel := by
  induction calls generalizing c with
  | zero => rw [Nat.zero_mul]; rfl
  | succ calls ih =>
    have hcalls : findRepeatedly lower cm pat numSteps (calls + 1) c fuel
        = (findProgress lower cm pat numSteps c fuel).bind fun x ↦ if x.2 = .tryAgain then
          findRepeatedly lower cm pat numSteps calls x.1 fuel else .done x := rfl
    rw [hcalls, Nat.succ_mul, Nat.add_comm _ numSteps, findProgressIter_add, hsearch]
    simp only [ih]

theorem find_eq (hsearch : Searches lower cm pat scanner matcher) (c : Cursor root) :
    find lower cm pat c = fun fuel ↦
      (findProgressIter scanner matcher usizeMax c fuel).bind fun x ↦ match x.2 with
        | .found start => .done (x.1, some start)
        | .notFound => .done (x.1, none)
        | .tryAgain => .panicked := by
  funext fuel
  exact congrArg (Outcome.bind · _) (congrFun (hsearch usizeMax c) fuel)

theorem find_settles (hsearch : Searches lower cm pat scanner matcher) {m : Option ℕ}
    (hrun : Settles (findProgressIter scanner matcher usizeMax c) (.done (d, .ofFind m))) :
    Settles (find lower cm pat c) (.done (d, m)) := by
  rw [find_eq hsearch]
  refine hrun.bind (k := fun x _ ↦ _) ?_
  cases m with
  | none => exact .const _
  | some start => exact .const _

theorem find_panics (hsearch : Searches lower cm pat scanner matcher)
    (hrun : Settles (findProgressIter scanner matcher usizeMax c) (.done (d, .tryAgain))) :
    Settles (find lower cm pat c) .panicked := by
  rw [find_eq hsearch]
  exact hrun.bind (k := fun x _ ↦ _) (.const _)

/-- A search from a boundary finds the first match just if no candidate sticks before it. -/
theorem Search.findsFirst_iff (hS : Search root scanner matcher Match Sticks Post)
    (hsearch : Searches lower cm pat scanner matcher) (hroot : h = 0 ∨ root.Inner h)
    (hlen : root.len < usizeMax) (hc : c.Ready c.pos) :
    FindsFirst lower cm pat c Match Post ↔ Free Match Sticks c.pos := by
  constructor
  · rintro ⟨d, m, hm, -, hfind, -⟩
    by_contra hfree
    simp only [Free, not_forall] at hfree
    obtain ⟨p, hp, hsticks, hnone⟩ := hfree
    obtain ⟨d', hrun | ⟨q, hq, hrun⟩⟩ := hS.run_stuck hroot hsticks usizeMax hc hp
    · exact absurd (hfind.unique (find_panics hsearch hrun)) nofun
    · have heq := hfind.unique (find_settles (m := some q) hsearch hrun)
      obtain rfl : m = some q := by
        injection heq with heq
        exact congrArg Prod.snd heq
      exact hnone ⟨q, hm.1.1, hq, hm.1.2⟩
  · intro hfree
    obtain ⟨d, m, hm, hpost, hrun⟩ := hS.run_free hroot hc hfree (n := root.len + 1) (by omega)
    refine ⟨d, m, hm, hpost, find_settles hsearch ?_, fun numSteps hsteps ↦
      ⟨root.len + 1, fun k ↦ ?_⟩⟩
    · obtain ⟨k, hk⟩ := Nat.exists_eq_add_of_le (show root.len + 1 ≤ usizeMax from hlen)
      rw [hk]
      exact hrun k
    · have hle : root.len + 1 ≤ (root.len + 1 + k) * numSteps :=
        (Nat.le_add_right _ k).trans (Nat.le_mul_of_pos_right _ hsteps)
      obtain ⟨k', hk'⟩ := Nat.exists_eq_add_of_le hle
      rw [show findRepeatedly lower cm pat numSteps (root.len + 1 + k) c
        = findProgressIter scanner matcher ((root.len + 1 + k) * numSteps) c from
          funext (findRepeatedly_eq hsearch _ _ c), hk']
      exact hrun k'

/-- A search that ends without a result whatever there is. -/
theorem FindsFirst.of_nothing (hnothing : FindsFirst lower cm pat c (fun _ ↦ False) Post) :
    FindsFirst lower cm pat c Match Post ↔ ∀ q, c.pos ≤ q → ¬ Match q := by
  obtain ⟨d, m, hm, -, hfind, hrepeated⟩ := hnothing
  cases m with
  | some q => exact hm.1.2.elim
  | none =>
    constructor
    · rintro ⟨d', m, hm', -, hfind', -⟩
      have heq := hfind.unique hfind'
      injection heq with heq
      obtain rfl : none = m := congrArg Prod.snd heq
      exact hm'
    · exact fun hnone ↦ ⟨d, none, hnone, nofun, hfind, hrepeated⟩

/-- An invalid cursor finds nothing. -/
theorem findsFirst_invalid (hsearch : Searches lower cm pat scanner matcher) (hc : c.leaf = none) :
    FindsFirst lower cm pat c Match Post ↔ ∀ q, c.pos ≤ q → ¬ Match q := by
  have hrun : ∀ n, Settles (findProgressIter scanner matcher (n + 1) c)
      (.done (c, .ofFind none)) := findProgressIter_end (findCore_invalid hc) nofun
  refine FindsFirst.of_nothing ⟨c, none, fun _ _ ↦ id, nofun,
    find_settles hsearch (hrun (usizeMax - 1)), fun numSteps hsteps ↦ ⟨1, fun k ↦ ?_⟩⟩
  obtain ⟨n, hn⟩ := Nat.exists_eq_add_of_lt (Nat.mul_pos (show 0 < 1 + k by omega) hsteps)
  rw [show findRepeatedly lower cm pat numSteps (1 + k) c
    = findProgressIter scanner matcher ((1 + k) * numSteps) c from
      funext (findRepeatedly_eq hsearch _ _ c), hn, Nat.zero_add]
  exact hrun n

end

end EeEditor.BTree
