import EeEditor.Tree.FindSteps

/-!
# Exact searches

Where a search for a pattern as it stands finds the first occurrence. A candidate sticks if it is
the last byte of a leaf that is longer and the next leaf differs from the rest of the pattern: the
cursor then goes back by one byte, to the leaf before its own, and ends at the beginning of that
leaf.
-/

namespace EeEditor.BTree

variable {h : ℕ} {root : Node Text h} {c d : Cursor root} {pre post : List Text}
  {l u s a b pat : Text}
  {ch : Char} {o p q r k m : ℕ} {needles : List UInt8}

/-! ## Bytes of a rope -/

/-- The bytes from a part of a leaf on. -/
theorem drop_flat (hleaves : root.leaves h = pre ++ (u ++ s) :: post) :
    (bytes (concat (root.leaves h))).drop (lenOf pre + Leaf.len u)
      = bytes s ++ bytes (concat post) := by
  have hflat : bytes (concat (root.leaves h))
      = (bytes (concat pre) ++ bytes u) ++ (bytes s ++ bytes (concat post)) := by
    rw [hleaves, concat_append, concat_cons, bytes_append]
    change _ ++ bytes (u ++ s ++ concat post) = _
    rw [bytes_append, bytes_append, List.append_assoc, List.append_assoc]
  rw [hflat, List.drop_left' (by rw [List.length_append, lenOf_eq]; rfl)]

/-- A byte of a part of a leaf. -/
theorem getElem_flat (hleaves : root.leaves h = pre ++ (u ++ (a ++ b)) :: post)
    (hle : lenOf pre + Leaf.len u ≤ q) (hlt : q < lenOf pre + Leaf.len u + Leaf.len a) :
    ∃ x ∈ bytes a, (bytes (concat (root.leaves h)))[q]? = some x := by
  obtain ⟨o, rfl⟩ := Nat.exists_eq_add_of_le hle
  have ho : o < (bytes a).length := by
    change o < Leaf.len a
    omega
  refine ⟨(bytes a)[o], List.getElem_mem ho, ?_⟩
  rw [← List.getElem?_drop, drop_flat hleaves, bytes_append, List.append_assoc,
    List.getElem?_append_left ho, List.getElem?_eq_getElem ho]

/-! ## Scanning for bytes -/

theorem memchrOf_some (hneedles : ∀ x ∈ needles, isContinuation x = false)
    (hscan : memchrOf needles s = some o) : ∃ a ch b, s = a ++ ch :: b ∧ o = Leaf.len a := by
  obtain ⟨hlt, hmem, -⟩ := List.findIdx?_eq_some_iff_getElem.mp hscan
  have hbyte := hneedles _ (List.contains_iff_mem.mp hmem)
  obtain ⟨a, b, rfl, rfl⟩ := exists_split (l := s) (o := o)
    (isCharBoundary_iff.mpr (.inr (.inr ⟨_, List.getElem?_eq_getElem hlt, hbyte⟩)))
  cases b with
  | nil =>
    rw [List.append_nil] at hlt
    exact absurd hlt (Nat.lt_irrefl _)
  | cons ch b => exact ⟨a, ch, b, rfl, rfl⟩

/-- The byte at a candidate. -/
theorem memchrOf_byte (hscan : memchrOf needles (a ++ s) = some (Leaf.len a)) :
    ∃ x ∈ needles, (bytes s)[0]? = some x := by
  change memchrOf needles (a ++ s) = some (bytes a).length at hscan
  obtain ⟨hlt, hmem, -⟩ := List.findIdx?_eq_some_iff_getElem.mp hscan
  refine ⟨_, List.contains_iff_mem.mp hmem, ?_⟩
  rw [← List.getElem?_eq_getElem, bytes_append, List.getElem?_append_right (Nat.le_refl _),
    Nat.sub_self]

/-- The bytes before a candidate. -/
theorem memchrOf_before (hscan : (memchrOf needles (a ++ b) = none ∧ b = []) ∨
    memchrOf needles (a ++ b) = some (Leaf.len a)) : ∀ x ∈ bytes a, x ∉ needles := by
  intro x hx hmem
  obtain ⟨i, hi, rfl⟩ := List.getElem_of_mem hx
  have hcontains := List.contains_iff_mem.mpr hmem
  rcases hscan with ⟨hnone, rfl⟩ | hsome
  · rw [List.append_nil] at hnone
    have := List.findIdx?_eq_none_iff.mp hnone _ hx
    rw [hcontains] at this
    cases this
  · obtain ⟨hlt, -, hfirst⟩ := List.findIdx?_eq_some_iff_getElem.mp hsome
    refine hfirst i hi ?_
    have hi' : i < (bytes (a ++ b)).length := by
      rw [bytes_append, List.length_append]
      omega
    have hget : (bytes (a ++ b))[i] = (bytes a)[i] :=
      List.getElem_of_eq (bytes_append a b) _ |>.trans (List.getElem_append_left hi)
    rw [hget]
    exact hcontains

/-- A scan for bytes passes over no position that begins with one of them. -/
theorem memchrOf_passes {P : ℕ → Prop}
    (hP : ∀ q, P q → ∃ x ∈ needles, (bytes (concat (root.leaves h)))[q]? = some x)
    (hleaves : root.leaves h = pre ++ (u ++ (a ++ b)) :: post)
    (hscan : (memchrOf needles (a ++ b) = none ∧ b = []) ∨
      memchrOf needles (a ++ b) = some (Leaf.len a)) (q : ℕ)
    (hle : lenOf pre + Leaf.len u ≤ q) (hlt : q < lenOf pre + Leaf.len u + Leaf.len a) : ¬ P q := by
  intro hq
  obtain ⟨x, hx, hget⟩ := hP q hq
  obtain ⟨y, hy, hget'⟩ := getElem_flat hleaves hle hlt
  obtain rfl := Option.some_inj.mp (hget.symm.trans hget')
  exact memchrOf_before hscan x hy hx

/-! ## Comparing -/

/-- A pattern differs from what is left of a leaf, as far as both go. -/
def Differs (pat s : Text) : Prop :=
  (bytes s).take (min (bytes pat).length (bytes s).length)
    ≠ (bytes pat).take (min (bytes pat).length (bytes s).length)

/-- The pattern ends in the rest of a leaf, or goes on after it, or differs from it. -/
theorem compare_cases (pat s : Text) : bytes pat <+: bytes s ∨
    (∃ rest, rest ≠ [] ∧ pat = s ++ rest) ∨ Differs pat s := by
  by_cases htake : (bytes s).take (min (bytes pat).length (bytes s).length)
      = (bytes pat).take (min (bytes pat).length (bytes s).length)
  · rcases Nat.le_total (bytes pat).length (bytes s).length with hle | hle
    · rw [Nat.min_eq_left hle, List.take_length] at htake
      exact .inl (htake ▸ List.take_prefix _ _)
    · rw [Nat.min_eq_right hle, List.take_length] at htake
      obtain ⟨rest, rfl⟩ := prefix_of_bytes (htake ▸ List.take_prefix _ _ : bytes s <+: bytes pat)
      rcases eq_or_ne rest [] with rfl | hrest
      · rw [List.append_nil]
        exact .inl (List.prefix_refl _)
      · exact .inr (.inl ⟨rest, hrest, rfl⟩)
  · exact .inr (.inr htake)

/-- A pattern that differs from the rest of a leaf is not there. -/
theorem Differs.not_prefix {bs : List UInt8} (hdiffers : Differs pat s) :
    ¬ bytes pat <+: bytes s ++ bs := by
  intro hpref
  obtain ⟨bs', hbs'⟩ := hpref
  refine hdiffers ?_
  have htake : (bytes s ++ bs).take (min (bytes pat).length (bytes s).length) = _ :=
    List.take_append_of_le_length (Nat.min_le_right _ _)
  rw [← htake, ← hbs', List.take_append_of_le_length (Nat.min_le_left _ _)]

/-- A round of the comparison. -/
theorem compareLoop_succ (hc : c.Between pre u s post) (fuel : ℕ) :
    compareLoop k m (fuel + 1) pat c
      = if (bytes s).take (min (bytes pat).length (bytes s).length)
          ≠ (bytes pat).take (min (bytes pat).length (bytes s).length) then
          .done (c.giveUp k, none)
        else (Outcome.ofOption (strFrom pat (min (bytes pat).length (bytes s).length))).bind
          fun pat ↦ if pat.isEmpty then .done (c.set m, some k)
            else compareLoop k m fuel pat c.nextLeaf := by
  have hdrop : (bytes (u ++ s)).drop (bytes u).length = bytes s := by
    rw [bytes_append, List.drop_left' rfl]
  have hlen : (bytes (u ++ s)).length - (bytes u).length = (bytes s).length := by
    rw [bytes_append, List.length_append, Nat.add_sub_cancel_left]
  rw [compareLoop, hc.getLeaf]
  simp only [hdrop, hlen]

theorem compareLoop_differs (hc : c.Between pre u s post) (hdiffers : Differs pat s) :
    Settles (fun fuel ↦ compareLoop k m fuel pat c) (.done (c.giveUp k, none)) := by
  refine ⟨1, fun fuel ↦ ?_⟩
  dsimp only
  rw [Nat.add_comm, compareLoop_succ hc]
  exact if_pos hdiffers

theorem compareLoop_done (hc : c.Between pre u s post) (hpref : bytes pat <+: bytes s) :
    Settles (fun fuel ↦ compareLoop k m fuel pat c)
      (.done (c.set m, some k)) := by
  have hwhole : strFrom pat (bytes pat).length = some [] := by
    have := strFrom_append pat []
    rwa [List.append_nil] at this
  refine ⟨1, fun fuel ↦ ?_⟩
  dsimp only
  rw [Nat.add_comm, compareLoop_succ hc, Nat.min_eq_left hpref.length_le,
    List.prefix_iff_eq_take.mp hpref, List.length_take, Nat.min_eq_left hpref.length_le,
    ← List.prefix_iff_eq_take.mp hpref, List.take_length, if_neg (not_not.mpr rfl), hwhole]
  rfl

theorem compareLoop_goes_on {rest : Text} {out : Outcome (Cursor root × Option ℕ)}
    (hc : c.Between pre u s post) (hrest : rest ≠ [])
    (hout : Settles (fun fuel ↦ compareLoop k m fuel rest c.nextLeaf) out) :
    Settles (fun fuel ↦ compareLoop k m fuel (s ++ rest) c) out := by
  have hmin : min (bytes (s ++ rest)).length (bytes s).length = (bytes s).length := by
    rw [bytes_append, List.length_append]
    omega
  have htake : (bytes (s ++ rest)).take (bytes s).length = bytes s := by
    rw [bytes_append, List.take_left' rfl]
  have hempty : rest.isEmpty = false := by
    rw [← Bool.not_eq_true, List.isEmpty_iff]
    exact hrest
  obtain ⟨n, hn⟩ := hout
  refine ⟨n + 1, fun fuel ↦ ?_⟩
  dsimp only at hn ⊢
  rw [Nat.add_right_comm, compareLoop_succ hc, hmin, htake, List.take_length,
    if_neg (not_not.mpr rfl), strFrom_append]
  simp only [Outcome.ofOption, Outcome.done_bind, hempty, Bool.false_eq_true, if_false]
  exact hn fuel

/-- After the last leaf the comparison fails. -/
theorem compareLoop_invalid (hc : c.leaf = none) :
    Settles (fun fuel ↦ compareLoop k m fuel pat c) (.done (c.giveUp k, none)) := by
  refine ⟨1, fun fuel ↦ ?_⟩
  dsimp only
  rw [Nat.add_comm, compareLoop, Cursor.getLeaf, hc]
  rfl

/-- A pattern that is there is found, with the cursor set from the leaf where it ends. -/
theorem compareLoop_matches (hroot : h = 0 ∨ root.Inner h) (hc : c.Between pre u s post)
    (hpref : bytes pat <+: bytes s ++ bytes (concat post)) :
    ∃ e : Cursor root, e.Sound ∧ e.offsetOfLeaf ≤ c.position + Leaf.len pat ∧
      Settles (fun fuel ↦ compareLoop k m fuel pat c)
        (.done (e.set m, some k)) := by
  induction post generalizing pre u s c pat with
  | nil =>
    rw [show bytes (concat ([] : List Text)) = [] from rfl, List.append_nil] at hpref
    have hoffset := hc.stands.at_leaf.offset
    have hposition := hc.position
    exact ⟨c, hc.stands.sound, by omega, compareLoop_done hc hpref⟩
  | cons l post ih =>
    have hoffset := hc.stands.at_leaf.offset
    have hposition := hc.position
    rcases compare_cases pat s with hdone | ⟨rest, hrest, rfl⟩ | hdiffers
    · exact ⟨c, hc.stands.sound, by omega, compareLoop_done hc hdone⟩
    · rcases hc.nextLeaf hroot with ⟨hnil, -⟩ | ⟨l', post', heq, -, hnext⟩
      · cases hnil
      obtain ⟨rfl, rfl⟩ := List.cons.inj heq
      rw [bytes_append, List.prefix_append_right_inj, concat_cons] at hpref
      change bytes rest <+: bytes (l ++ concat post) at hpref
      rw [bytes_append] at hpref
      obtain ⟨e, he, hle, hsettles⟩ := ih hnext hpref
      refine ⟨e, he, ?_, compareLoop_goes_on hc hrest hsettles⟩
      rw [hnext.position, lenOf_append, lenOf_cons, lenOf_nil, len_append,
        show Leaf.len ([] : Text) = 0 from rfl] at hle
      rw [len_append]
      omega
    · exact absurd hpref hdiffers.not_prefix

/-- A pattern that is not there fails, with the cursor in the leaf that differs, or past the last
one. -/
theorem compareLoop_fails (hroot : h = 0 ∨ root.Inner h) (hc : c.Between pre u s post)
    (hpref : ¬ bytes pat <+: bytes s ++ bytes (concat post)) :
    ∃ e : Cursor root, e.Sound ∧ (e.leaf.isSome → lenOf pre ≤ e.offsetOfLeaf) ∧
      Settles (fun fuel ↦ compareLoop k m fuel pat c) (.done (e.giveUp k, none)) := by
  induction post generalizing pre u s c pat with
  | nil =>
    rw [show bytes (concat ([] : List Text)) = [] from rfl, List.append_nil] at hpref
    rcases compare_cases pat s with hdone | ⟨rest, hrest, rfl⟩ | hdiffers
    · exact absurd hdone hpref
    · rcases hc.nextLeaf hroot with ⟨-, hnone, hsound, -⟩ | ⟨l', post', heq, -⟩
      · refine ⟨c.nextLeaf, hsound, ?_, compareLoop_goes_on hc hrest (compareLoop_invalid hnone)⟩
        intro hsome
        rw [hnone] at hsome
        cases hsome
      · cases heq
    · exact ⟨c, hc.stands.sound, fun _ ↦ hc.stands.at_leaf.offset.ge,
        compareLoop_differs hc hdiffers⟩
  | cons l post ih =>
    rcases compare_cases pat s with hdone | ⟨rest, hrest, rfl⟩ | hdiffers
    · exact absurd (hdone.trans (List.prefix_append _ _)) hpref
    · rcases hc.nextLeaf hroot with ⟨hnil, -⟩ | ⟨l', post', heq, -, hnext⟩
      · cases hnil
      obtain ⟨rfl, rfl⟩ := List.cons.inj heq
      rw [bytes_append, List.prefix_append_right_inj, concat_cons] at hpref
      change ¬ bytes rest <+: bytes (l ++ concat post) at hpref
      rw [bytes_append] at hpref
      obtain ⟨e, he, hle, hsettles⟩ := ih hnext hpref
      refine ⟨e, he, fun hsome ↦ ?_, compareLoop_goes_on hc hrest hsettles⟩
      have := hle hsome
      rw [lenOf_append] at this
      omega
    · exact ⟨c, hc.stands.sound, fun _ ↦ hc.stands.at_leaf.offset.ge,
        compareLoop_differs hc hdiffers⟩

/-- Where the cursor is when the comparison fails: in the leaf where it began, past the next one, or
in the next one, which differs from the rest of the pattern. -/
theorem compareLoop_fails_where (hroot : h = 0 ∨ root.Inner h) (hc : c.Between pre u s post)
    (hpref : ¬ bytes pat <+: bytes s ++ bytes (concat post)) :
    ∃ e : Cursor root, e.Sound ∧
      (e.leaf.isSome → e.offsetOfLeaf = lenOf pre ∨ lenOf pre + Leaf.len (u ++ s) < e.offsetOfLeaf ∨
        ∃ rest l post', pat = s ++ rest ∧ post = l :: post' ∧ Differs rest l) ∧
      Settles (fun fuel ↦ compareLoop k m fuel pat c) (.done (e.giveUp k, none)) := by
  rcases compare_cases pat s with hdone | ⟨rest, hrest, rfl⟩ | hdiffers
  · exact absurd (hdone.trans (List.prefix_append _ _)) hpref
  · rcases hc.nextLeaf hroot with ⟨-, hnone, hsound, -⟩ | ⟨l, post, rfl, hpos, hnext⟩
    · refine ⟨_, hsound, ?_, compareLoop_goes_on hc hrest (compareLoop_invalid hnone)⟩
      intro hsome
      rw [hnone] at hsome
      cases hsome
    have hflat : bytes (concat (l :: post)) = bytes l ++ bytes (concat post) := bytes_append l _
    rw [bytes_append, List.prefix_append_right_inj, hflat] at hpref
    rcases compare_cases rest l with hdone | ⟨rest', hrest', rfl⟩ | hdiffers
    · exact absurd (hdone.trans (List.prefix_append _ _)) hpref
    · rw [bytes_append, List.prefix_append_right_inj] at hpref
      rcases hnext.nextLeaf hroot with ⟨-, hnone, hsound, -⟩ | ⟨l', post, rfl, -, hnext'⟩
      · refine ⟨_, hsound, ?_, compareLoop_goes_on hc hrest
          (compareLoop_goes_on hnext hrest' (compareLoop_invalid hnone))⟩
        intro hsome
        rw [hnone] at hsome
        cases hsome
      · have hflat' : bytes (concat (l' :: post)) = bytes l' ++ bytes
          (concat post) := bytes_append l' _
        rw [hflat'] at hpref
        obtain ⟨e, he, hle, hsettles⟩ := compareLoop_fails hroot hnext' hpref
        refine ⟨e, he, fun hsome ↦ .inr (.inl ?_), compareLoop_goes_on hc hrest
          (compareLoop_goes_on hnext hrest' hsettles)⟩
        have := hle hsome
        simp only [lenOf_append, lenOf_cons, lenOf_nil, List.nil_append] at this
        omega
    · exact ⟨_, hnext.stands.sound, fun _ ↦ .inr (.inr ⟨rest, l, post, rfl, rfl, hdiffers⟩),
        compareLoop_goes_on hc hrest (compareLoop_differs hnext hdiffers)⟩
  · exact ⟨c, hc.stands.sound, fun _ ↦ .inl hc.stands.at_leaf.offset,
      compareLoop_differs hc hdiffers⟩

/-! ## Occurrences -/

/-- The text at a position starts with the pattern. -/
def Occurs (root : Node Text h) (pat : Text) (q : ℕ) : Prop :=
  bytes pat <+: (bytes (concat (root.leaves h))).drop q

/-- The pattern begins with a single byte, which ends a leaf that is longer, and the next leaf
differs from the rest of the pattern. -/
def SticksAt (root : Node Text h) (pat : Text) (q : ℕ) : Prop :=
  ∃ ch rest pre u l post, pat = ch :: rest ∧ (String.utf8EncodeChar ch).length = 1 ∧
    root.leaves h = pre ++ (u ++ [ch]) :: l :: post ∧ q = lenOf pre + Leaf.len u ∧ u ≠ [] ∧
      Differs rest l

theorem Differs.ne_nil (hdiffers : Differs pat s) : pat ≠ [] := by
  rintro rfl
  exact hdiffers (by simp)

theorem occurs_iff (hc : c.Between pre u s post) :
    Occurs root pat c.position ↔ bytes pat <+: bytes s ++ bytes (concat post) := by
  rw [Occurs, hc.position, drop_flat hc.stands.at_leaf.leaves]

theorem Occurs.le (hocc : Occurs root pat q) (hpat : pat ≠ []) : q + Leaf.len pat ≤ root.len := by
  have hle := List.IsPrefix.length_le hocc
  have hpos := len_pos hpat
  rw [List.length_drop, ← lenOf_eq, ← Node.len_eq] at hle
  change Leaf.len pat ≤ _ at hle
  omega

/-- The byte at a position that the scanner must not pass over. -/
theorem byte_of_occurs {b : UInt8} {bs : List UInt8} (hpat : bytes pat = b :: bs)
    (hq : Occurs root pat q ∨ SticksAt root pat q) :
    (bytes (concat (root.leaves h)))[q]? = some b := by
  rcases hq with hocc | ⟨ch, rest, pre, u, l, post, rfl, hch, hleaves, rfl, -, -⟩
  · obtain ⟨bs', hbs'⟩ := hocc
    have hget := congrArg (fun bs ↦ bs[0]?) hbs'
    simp only [hpat, List.cons_append, List.getElem?_cons_zero, List.getElem?_drop,
      Nat.add_zero] at hget
    exact hget.symm
  · have hdrop := drop_flat hleaves
    have hget := congrArg (fun bs ↦ bs[0]?) hdrop
    simp only [List.getElem?_drop, Nat.add_zero, bytes_cons, bytes_nil, List.append_nil] at hget
    rw [hget]
    rw [bytes_cons] at hpat
    cases hbytes : String.utf8EncodeChar ch with
    | nil =>
      rw [hbytes] at hch
      cases hch
    | cons x xs =>
      rw [hbytes] at hpat
      obtain ⟨rfl, -⟩ := List.cons.inj hpat
      rfl

/-- A candidate that sticks is where the cursor is told by its leaf. -/
theorem SticksAt.between (hsticks : SticksAt root pat c.position) (hc : c.Between pre u s post) :
    ∃ ch rest l post', pat = ch :: rest ∧ (String.utf8EncodeChar ch).length = 1 ∧ s = [ch] ∧
      post = l :: post' ∧ u ≠ [] ∧ Differs rest l := by
  obtain ⟨ch, rest, pre', u', l, post', rfl, hch, hleaves, hq, hu, hdiffers⟩ := hsticks
  obtain ⟨rfl, rfl, rfl, rfl⟩ := hc.of_last hleaves hq
  exact ⟨ch, rest, l, post', rfl, hch, rfl, rfl, hu, hdiffers⟩

theorem SticksAt.not_occurs (hsticks : SticksAt root pat q) : ¬ Occurs root pat q := by
  obtain ⟨ch, rest, pre, u, l, post, rfl, hch, hleaves, rfl, hu, hdiffers⟩ := hsticks
  have hflat : bytes (concat (l :: post)) = bytes l ++ bytes (concat post) := bytes_append l _
  rw [Occurs, drop_flat hleaves, hflat, bytes_cons, bytes_cons, bytes_nil, List.append_nil,
    List.prefix_append_right_inj]
  exact hdiffers.not_prefix

theorem compareCursorStr_eq (hpat : pat ≠ []) (c : Cursor root) : compareCursorStr pat c
    = fun fuel ↦ compareLoop c.position (c.position + (bytes pat).length) fuel pat c := by
  funext fuel
  rw [compareCursorStr, if_neg (by rwa [List.isEmpty_iff])]
  rfl

/-- The cursor after an occurrence. -/
def AfterOccurrence (pat : Text) (q : ℕ) (d : Cursor root) : Prop :=
  d.Points (q + (bytes pat).length)

theorem search_matched (hroot : h = 0 ∨ root.Inner h) (hpat : pat ≠ [])
    (hc : c.Between pre u s post) (hocc : Occurs root pat c.position) :
    ∃ d, Settles (compareCursorStr pat c) (.done (d, some c.position)) ∧
      AfterOccurrence pat c.position d := by
  obtain ⟨e, he, hle, hsettles⟩ := compareLoop_matches (k := c.position)
    (m := c.position + (bytes pat).length) hroot hc ((occurs_iff hc).mp hocc)
  change e.offsetOfLeaf ≤ c.position + (bytes pat).length at hle
  have hend : c.position + (bytes pat).length ≤ root.len := hocc.le hpat
  rw [compareCursorStr_eq hpat]
  exact ⟨_, hsettles, (he.points_set hroot hend).mpr (Cursor.not_strays (by omega))⟩

theorem search_failed (hroot : h = 0 ∨ root.Inner h) (hpat : pat ≠ [])
    (hc : c.Between pre u (ch :: s) post) (hocc : ¬ Occurs root pat c.position)
    (hsticks : ¬ SticksAt root pat c.position) :
    ∃ d, Settles (compareCursorStr pat c) (.done (d, none)) ∧
      d.Ready (c.position + (String.utf8EncodeChar ch).length) := by
  obtain ⟨e, he, hwhere, hsettles⟩ := compareLoop_fails_where (k := c.position)
    (m := c.position + (bytes pat).length) hroot hc (mt (occurs_iff hc).mpr hocc)
  have hleaves := hc.stands.at_leaf.leaves
  have hposition := hc.position
  rw [compareCursorStr_eq hpat]
  refine ⟨_, hsettles, he.giveUp hroot hleaves hposition ?_⟩
  rintro ⟨hsome, hq, pre', l', post', hleaves', hlen, hne⟩
  have hsize := len_append u (ch :: s)
  have hpos := utf8Size_pos ch
  rw [len_cons] at hsize
  rcases hwhere hsome with hoffset | hoffset | ⟨rest, l, post'', rfl, rfl, hdiffers⟩
  · omega
  · omega
  · have hpos' := Cursor.pos_of_leaves hroot hleaves (by simp; omega) l' (by
      rw [← hleaves, hleaves']
      exact List.mem_append_right pre' List.mem_cons_self)
    obtain ⟨hpre, rfl, -⟩ := Cursor.eq_of_holds (hleaves.symm.trans hleaves') (p := c.position)
      (by omega) (by omega) (by omega) (by omega)
    rw [← hpre] at hlen
    obtain rfl : s = [] := by
      by_contra hs
      have := len_pos hs
      omega
    rw [show Leaf.len ([] : Text) = 0 from rfl] at hsize
    refine hsticks ⟨ch, rest, pre, u, l, post'', rfl, by omega, hleaves, hposition, ?_, hdiffers⟩
    rintro rfl
    rw [show Leaf.len ([] : Text) = 0 from rfl] at hsize hposition
    omega

theorem search_stuck (hroot : h = 0 ∨ root.Inner h) (hc : c.Between pre u s post)
    (hsticks : SticksAt root pat c.position) :
    ∃ d r, Settles (compareCursorStr pat c) (.done (d, none)) ∧ r ≤ c.position ∧ d.Ready r := by
  have hleaves := hc.stands.at_leaf.leaves
  obtain ⟨ch, rest, l, post, rfl, hch, rfl, rfl, hu, hdiffers⟩ := hsticks.between hc
  rcases hc.nextLeaf hroot with ⟨hnil, -⟩ | ⟨l', post', heq, -, hnext⟩
  · cases hnil
  obtain ⟨rfl, rfl⟩ := List.cons.inj heq
  have hoffset := hnext.stands.at_leaf.offset
  have hposition := hc.position
  have hsize := len_append u [ch]
  have hpos := len_pos hu
  rw [len_cons, hch, show Leaf.len ([] : Text) = 0 from rfl] at hsize
  rw [lenOf_append, lenOf_cons, lenOf_nil] at hoffset
  have hstrays : c.nextLeaf.Strays c.position := by
    refine ⟨?_, by omega, pre, u ++ [ch], l :: post, hleaves, by omega, by omega⟩
    rw [hnext.stands.leaf]
    rfl
  obtain ⟨r, hr, hready⟩ := hnext.stands.sound.giveUp_strays hroot hleaves hposition hstrays
  rw [compareCursorStr_eq (List.cons_ne_nil _ _)]
  exact ⟨_, r, compareLoop_goes_on hc hdiffers.ne_nil (compareLoop_differs hnext hdiffers), hr,
    hready⟩

/-- What an exact search relies on. -/
theorem exactSearch (hroot : h = 0 ∨ root.Inner h) {b : UInt8} {bs : List UInt8}
    (hpat : bytes pat = b :: bs) (hb : isContinuation b = false) :
    Search root (memchrOf [b]) (compareCursorStr pat) (Occurs root pat) (SticksAt root pat)
      (AfterOccurrence pat) := by
  have hne : pat ≠ [] := by
    rintro rfl
    cases hpat
  have hbyte : ∀ q, Occurs root pat q ∨ SticksAt root pat q →
      ∃ x ∈ [b], (bytes (concat (root.leaves h)))[q]? = some x := fun q hq ↦
    ⟨b, List.mem_singleton_self b, byte_of_occurs hpat hq⟩
  refine ⟨?_, SticksAt.not_occurs, ?_, ?_, ?_, ?_, ?_, ?_⟩
  · intro q hq
    exact isCharBoundary_iff.mpr (.inr (.inr ⟨b, byte_of_occurs hpat hq, hb⟩))
  · intro q hq
    have hlt := (List.getElem?_eq_some_iff.mp (byte_of_occurs hpat hq)).1
    rwa [← lenOf_eq, ← Node.len_eq] at hlt
  · exact memchrOf_some fun x hx ↦ List.mem_singleton.mp hx ▸ hb
  · intro pre u a b' post hleaves hscan q hle hlt
    exact not_or.mp (memchrOf_passes hbyte hleaves hscan q hle hlt)
  · exact fun hc _ hocc ↦ search_matched hroot hne hc hocc
  · exact fun hc _ hocc hsticks ↦ search_failed hroot hne hc hocc hsticks
  · exact fun hc _ hsticks ↦ search_stuck hroot hc hsticks

theorem searches_exact (lower : LowercaseMapping) {b : UInt8} {bs : List UInt8}
    (hpat : bytes pat = b :: bs) :
    Searches lower .exact pat (memchrOf [b]) (compareCursorStr pat : Matcher root) := by
  intro n c
  funext fuel
  cases pat with
  | nil => cases hpat
  | cons ch pat => simp only [findProgress, hpat]

/-- The first byte of a pattern. -/
theorem exists_bytes_cons (hpat : pat ≠ []) :
    ∃ b bs, bytes pat = b :: bs ∧ isContinuation b = false := by
  obtain ⟨ch, rest, rfl⟩ := List.exists_cons_of_ne_nil hpat
  obtain ⟨b, bs, hch, hb, -⟩ := utf8EncodeChar_eq_cons ch
  exact ⟨b, bs ++ bytes rest, by rw [bytes_cons, hch, List.cons_append], hb⟩

/-- From a valid cursor. -/
theorem findsFirst_exact_iff (t : Tree Text) (hlen : t.len < usizeMax) {c : Cursor t.root}
    (hc : Cursor.Reached textMetrics c) (hpos : isCharBoundary (bytes t.flat) c.pos = true)
    (lower : LowercaseMapping) (hpat : pat ≠ []) (hleaf : c.leaf.isSome) :
    FindsFirst lower .exact pat c (Occurs t.root pat) (AfterOccurrence pat) ↔
      Free (Occurs t.root pat) (SticksAt t.root pat) c.pos := by
  obtain ⟨b, bs, hbytes, hb⟩ := exists_bytes_cons hpat
  obtain ⟨pre, l, post, hstands⟩ := (hc.sound t.integrity textMetrics_lawful).stands hleaf
  obtain ⟨u, s, -, hbetween⟩ := hstands.between hpos
  exact (exactSearch t.integrity hbytes hb).findsFirst_iff (searches_exact lower hbytes) t.integrity
    hlen (hbetween.ready rfl)

/-- A search finds the first occurrence of a pattern, and leaves the cursor after it, just if each
candidate that sticks has an occurrence before it; an invalid cursor finds nothing. -/
theorem find_exact_iff (t : Tree Text) (hlen : t.len < usizeMax) {c : Cursor t.root}
    (hc : Cursor.Reached textMetrics c) (hpos : isCharBoundary (bytes t.flat) c.pos = true)
    (lower : LowercaseMapping) (hpat : pat ≠ []) :
    FindsFirst lower .exact pat c (Occurs t.root pat) (AfterOccurrence pat) ↔
      (c.leaf.isSome → Free (Occurs t.root pat) (SticksAt t.root pat) c.pos) ∧
        (c.leaf = none → ∀ q, c.pos ≤ q → ¬ Occurs t.root pat q) := by
  rcases hleaf : c.leaf with _ | l
  · obtain ⟨b, bs, hbytes, -⟩ := exists_bytes_cons hpat
    rw [findsFirst_invalid (searches_exact lower hbytes) hleaf]
    exact ⟨fun hnone ↦ ⟨nofun, fun _ ↦ hnone⟩, fun h ↦ h.2 rfl⟩
  · rw [findsFirst_exact_iff t hlen hc hpos lower hpat (by rw [hleaf]; rfl)]
    exact ⟨fun hfree ↦ ⟨fun _ ↦ hfree, nofun⟩, fun h ↦ h.1 rfl⟩

/-- The case conversions of ASCII text. -/
def asciiLowercase : LowercaseMapping := ⟨fun c ↦ [c.toLower], fun s ↦ s.map Char.toLower⟩

theorem new_fourLeaves : (Cursor.new fourLeaves.root 0).leaf = some (List.replicate 1000 'a') ∧
    (Cursor.new fourLeaves.root 0).pos = 0 := by
  have hlen : Leaf.len (List.replicate 1000 'a') = 1000 := length_bytes_replicate 1000 'a'
  have hleaves : fourLeaves.root.leaves 1 =
      [] ++ List.replicate 1000 'a' :: List.replicate 3 (List.replicate 1000 'a') :=
    Node.leaves_tower _ 1
  obtain ⟨-, hleaf, hposition⟩ := Cursor.descend_eq
    (c := (⟨0, fun _ ↦ none, none, 0⟩ : Cursor fourLeaves.root)) fourLeaves.integrity
    (fun _ _ _ ↦ rfl) hleaves (Nat.le_refl 0) (by rw [hlen]; decide)
  exact ⟨hleaf, hposition⟩

theorem short_fourLeaves : fourLeaves.len < usizeMax := by
  rw [len_fourLeaves]
  decide

theorem boundary_fourLeaves :
    isCharBoundary (bytes fourLeaves.flat) (Cursor.new fourLeaves.root 0).pos = true := by
  rw [new_fourLeaves.2]
  exact isCharBoundary_zero

/-- A pattern of one character sticks nowhere. -/
theorem find_exact_letter : FindsFirst asciiLowercase .exact "a".toList
    (Cursor.new fourLeaves.root 0) (Occurs fourLeaves.root "a".toList)
    (AfterOccurrence "a".toList) := by
  refine (find_exact_iff fourLeaves short_fourLeaves (.new (Nat.zero_le _)) boundary_fourLeaves
    asciiLowercase (by decide)).mpr ⟨fun _ q _ hsticks ↦ ?_, fun hnone ↦ ?_⟩
  · obtain ⟨ch, rest, pre, u, l, post, hpat, -, -, -, -, hdiffers⟩ := hsticks
    exact absurd (List.cons.inj hpat).2.symm hdiffers.ne_nil
  · rw [new_fourLeaves.1] at hnone
    cases hnone

/-! ## A candidate at the end of a leaf -/

theorem mem_concat {ls : List Text} (hch : ch ∈ concat ls) : ∃ l ∈ ls, ch ∈ l := by
  induction ls with
  | nil => cases hch
  | cons l ls ih =>
    rcases List.mem_append.mp hch with hl | hls
    · exact ⟨l, List.mem_cons_self, hl⟩
    · obtain ⟨l', hl', hmem⟩ := ih hls
      exact ⟨l', List.mem_cons_of_mem _ hl', hmem⟩

theorem sticksAt_tower {n : ℕ} (hn : n ≠ 0) :
    SticksAt (Node.tower (List.replicate (n + 1) 'a') 1) "ab".toList n := by
  refine ⟨'a', ['b'], [], List.replicate n 'a', List.replicate (n + 1) 'a',
    List.replicate 2 (List.replicate (n + 1) 'a'), rfl, rfl, ?_, ?_, ?_, ?_⟩
  · rw [← List.replicate_succ']
    exact Node.leaves_tower _ 1
  · rw [lenOf_nil, Nat.zero_add]
    exact ((length_bytes_replicate n 'a').trans (Nat.mul_one n)).symm
  · rwa [ne_eq, List.replicate_eq_nil_iff]
  · intro heq
    have hmin : min (bytes ['b']).length (bytes (List.replicate (n + 1) 'a')).length = 1 := by
      rw [length_bytes_replicate]
      exact Nat.min_eq_left (Nat.le_mul_of_pos_left 1 (Nat.succ_pos n))
    rw [hmin, List.replicate_succ, bytes_cons] at heq
    cases heq

theorem not_occurs_tower (n q : ℕ) :
    ¬ Occurs (Node.tower (List.replicate n 'a') 1) "ab".toList q := by
  rintro ⟨bs, hocc⟩
  rw [Node.leaves_tower] at hocc
  have hmem : (98 : UInt8) ∈ bytes (concat (List.replicate (4 ^ 1) (List.replicate n 'a'))) := by
    refine List.mem_of_mem_drop (i := q) ?_
    rw [← hocc]
    exact List.mem_append_left _ (by decide)
  obtain ⟨ch, hch, hbyte⟩ := List.mem_flatMap.mp hmem
  obtain ⟨l, hl, hchl⟩ := mem_concat hch
  rw [(List.mem_replicate.mp hl).2] at hchl
  rw [(List.mem_replicate.mp hchl).2] at hbyte
  revert hbyte
  decide

/-- In 4000 times an `a` there is no `ab`, but the search for it does not end. -/
theorem find_exact_sticks : ∃ (t : Tree Text) (c : Cursor t.root) (pat : Text),
    t.len < usizeMax ∧ Cursor.Reached textMetrics c ∧ c.leaf.isSome ∧
      isCharBoundary (bytes t.flat) c.pos = true ∧ pat ≠ [] ∧
      ∀ lower, ¬ FindsFirst lower .exact pat c (Occurs t.root pat) (AfterOccurrence pat) := by
  have hreached : Cursor.Reached textMetrics (Cursor.new fourLeaves.root 0) := .new (Nat.zero_le _)
  have hsome : (Cursor.new fourLeaves.root 0).leaf.isSome := by
    rw [new_fourLeaves.1]
    rfl
  refine ⟨_, _, "ab".toList, short_fourLeaves, hreached, hsome, boundary_fourLeaves, by decide,
    fun lower hfinds ↦ ?_⟩
  have hfree := (findsFirst_exact_iff _ short_fourLeaves hreached boundary_fourLeaves lower
    (by decide) hsome).mp hfinds
  obtain ⟨q, -, -, hocc⟩ := hfree 999 (by rw [new_fourLeaves.2]; decide)
    (sticksAt_tower (by decide))
  exact not_occurs_tower 1000 q hocc

end EeEditor.BTree
