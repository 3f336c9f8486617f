import EeEditor.Rope.Multiset
import EeEditor.Sequence.Masked

/-!
# Subsets as count sequences

What the operations of `EeEditor.Rope.Multiset` compute, read through `Subset.counts`, the
sequence of counts a subset stands for. `Subset.ofCounts` is the inverse, so each operation is
specified by one equation: on subsets of matching lengths it does not panic and returns the
subset of the pointwise result.
-/

namespace EeEditor

/-! ## The encoding -/

namespace Subset

/-- The count of every element, in order. -/
def counts (s : Subset) : List ℕ := Run.expand s.segments

/-- The subset with the given counts. -/
def ofCounts (cs : List ℕ) : Subset := ⟨Run.encode cs, Run.canonical_encode cs⟩

@[simp] theorem counts_ofCounts (cs : List ℕ) : (ofCounts cs).counts = cs := Run.expand_encode cs

@[simp] theorem ofCounts_counts (s : Subset) : ofCounts s.counts = s :=
  Subset.ext (Run.Canonical.encode_expand s.canonical)

/-- Derived equality of subsets is equality of their counts. -/
theorem ext_counts {s t : Subset} (h : s.counts = t.counts) : s = t := by
  rw [← ofCounts_counts s, h, ofCounts_counts]

theorem ofCounts_injective : Function.Injective ofCounts := by
  intro cs ds h
  rw [← counts_ofCounts cs, h, counts_ofCounts]

@[simp] theorem ofCounts_inj {cs ds : List ℕ} : ofCounts cs = ofCounts ds ↔ cs = ds :=
  ofCounts_injective.eq_iff

end Subset

namespace SubsetBuilder

/-- The counts of the elements covered so far. -/
def counts (sb : SubsetBuilder) : List ℕ := Run.expand sb.segments

@[simp] theorem counts_new : new.counts = [] := rfl

theorem totalLen_eq (sb : SubsetBuilder) : sb.totalLen = sb.counts.length := sb.total

theorem build_eq (sb : SubsetBuilder) : sb.build = Subset.ofCounts sb.counts :=
  (Subset.ofCounts_counts sb.build).symm

@[simp] theorem counts_pushPos (sb : SubsetBuilder) {len : ℕ} (h : 0 < len) (count : ℕ) :
    (sb.pushPos h count).counts = sb.counts ++ List.replicate len count :=
  Run.expand_push _ _ _

theorem pushSegment_of_pos (sb : SubsetBuilder) {len : ℕ} (h : 0 < len) (count : ℕ) :
    sb.pushSegment len count = some (sb.pushPos h count) := dif_pos h

theorem counts_padToLen (sb : SubsetBuilder) (n : ℕ) :
    (sb.padToLen n).counts = sb.counts ++ List.replicate (n - sb.counts.length) 0 := by
  rw [padToLen]
  split
  · rw [counts_pushPos, totalLen_eq]
  · next h =>
    rw [totalLen_eq, not_lt] at h
    rw [Nat.sub_eq_zero_of_le h]
    simp

/-- Pushing a list of non-empty segments appends their expansion. -/
theorem foldlM_pushSegment {γ : Type*} (len : γ → ℕ) (count : γ → ℕ) (zs : List γ)
    (hpos : ∀ z ∈ zs, 0 < len z) (sb : SubsetBuilder) :
    ∃ sb', zs.foldlM (fun sb z ↦ sb.pushSegment (len z) (count z)) sb = some sb' ∧
      sb'.counts = sb.counts ++ zs.flatMap fun z ↦ List.replicate (len z) (count z) := by
  induction zs generalizing sb with
  | nil => exact ⟨sb, rfl, by simp⟩
  | cons z zs ih =>
    have hz : 0 < len z := hpos z (by simp)
    obtain ⟨sb', hfold, hcounts⟩ := ih (fun y hy ↦ hpos y (by simp [hy])) (sb.pushPos hz (count z))
    refine ⟨sb', ?_, ?_⟩
    · rw [List.foldlM_cons, pushSegment_of_pos _ hz]
      exact hfold
    · rw [hcounts, counts_pushPos, List.flatMap_cons, List.append_assoc]

end SubsetBuilder

namespace Subset

@[simp] theorem counts_new (n : ℕ) : (Subset.new n).counts = List.replicate n 0 := by
  rw [Subset.new, SubsetBuilder.build_eq, counts_ofCounts, SubsetBuilder.counts_padToLen]
  simp

private theorem sum_len_filter (p : ℕ → Bool) (segs : List Segment) :
    ((segs.filter fun seg ↦ p seg.count).map Run.len).sum = (Run.expand segs).countP p := by
  induction segs with
  | nil => rfl
  | cons seg segs ih =>
    rw [List.filter_cons, Run.expand_cons, List.countP_append, ← ih]
    by_cases h : p seg.count
    · simp [h, List.countP_replicate]
    · simp [h, List.countP_replicate]

theorem count_eq (s : Subset) (matcher : CountMatcher) :
    s.count matcher = s.counts.countP matcher.matches := sum_len_filter _ _

theorem len_eq (s : Subset) : s.len = s.counts.length := by
  rw [len, count_eq]
  simp [CountMatcher.matches]

theorem lenAfterDelete_eq (s : Subset) : s.lenAfterDelete = zeros s.counts := by
  rw [lenAfterDelete, count_eq]
  rfl

/-- A canonical subset whose elements all have one count is a single segment, which is why
`is_empty` only looks at the first one. -/
theorem isEmpty_iff (s : Subset) : s.isEmpty = true ↔ ∀ c ∈ s.counts, c = 0 := by
  obtain ⟨segs, hc⟩ := s
  rw [isEmpty, counts]
  match segs, hc with
  | [], _ => simp
  | [seg], hc =>
    have hpos : 0 < seg.len := hc.pos seg (by simp)
    simp [Segment.count, hpos.ne']
  | seg :: seg' :: segs, hc =>
    have hpos : 0 < seg.len := hc.pos seg (by simp)
    have hpos' : 0 < seg'.len := hc.pos seg' (by simp)
    have hne : seg.val ≠ seg'.val := (List.isChain_cons_cons.mp hc.ne).1
    constructor
    · intro h
      cases h
    · intro h
      have h0 : seg.val = 0 := h _ (by simp [hpos.ne'])
      have h0' : seg'.val = 0 := h _ (by simp [hpos'.ne'])
      exact absurd (h0.trans h0'.symm) hne

end Subset

/-! ## The simultaneous walk -/

namespace ZipIter

/-- The counts of the first side not handed out yet. -/
def aRest (z : ZipIter) : List ℕ :=
  match z.aSegs with
  | [] => []
  | a :: as => List.replicate (z.aConsumed + a.len - z.consumed) a.count ++ Run.expand as

/-- The counts of the second side not handed out yet. -/
def bRest (z : ZipIter) : List ℕ :=
  match z.bSegs with
  | [] => []
  | b :: bs => List.replicate (z.bConsumed + b.len - z.consumed) b.count ++ Run.expand bs

/-- A segment list of which a proper part `consumed - passed` of the first segment is used. -/
def Ahead (passed consumed : ℕ) : List Segment → Prop
  | [] => True
  | seg :: segs => passed ≤ consumed ∧ consumed < passed + seg.len ∧ ∀ s ∈ segs, 0 < s.len

theorem Ahead.of_pos {n : ℕ} {segs : List Segment} (h : ∀ s ∈ segs, 0 < s.len) :
    Ahead n n segs := by
  cases segs with
  | nil => trivial
  | cons s segs =>
    have hs := h s (by simp)
    exact ⟨le_refl n, by omega, fun t ht ↦ h t (by simp [ht])⟩

/-- What the walk returns: segments of positive length whose expansion pairs up the counts. -/
def Walks (as bs : List ℕ) (zs : List ZipSegment) : Prop :=
  (∀ z ∈ zs, 0 < z.len) ∧
    (zs.flatMap fun z ↦ List.replicate z.len (z.aCount, z.bCount)) = as.zip bs

theorem Walks.cons {as bs : List ℕ} {zs : List ZipSegment} (h : Walks as bs zs) {n : ℕ}
    (hn : 0 < n) (a b : ℕ) :
    Walks (List.replicate n a ++ as) (List.replicate n b ++ bs) (⟨n, a, b⟩ :: zs) := by
  refine ⟨fun z hz ↦ ?_, ?_⟩
  · rcases List.mem_cons.mp hz with rfl | hz
    · exact hn
    · exact h.1 z hz
  · rw [List.flatMap_cons, h.2, List.zip_append (by simp)]
    simp

/-- Right after a segment boundary of the first side, its rest is whole segments. -/
theorem aRest_boundary (as bs : List Segment) (n m : ℕ) :
    aRest ⟨as, bs, n, m, n⟩ = Run.expand as := by
  cases as with
  | nil => rfl
  | cons a as => simp [aRest]

theorem bRest_boundary (as bs : List Segment) (n m : ℕ) :
    bRest ⟨as, bs, m, n, n⟩ = Run.expand bs := by
  cases bs with
  | nil => rfl
  | cons b bs => simp [bRest]

private theorem replicate_split {n m : ℕ} (c : ℕ) (h : m ≤ n) (l : List ℕ) :
    List.replicate n c ++ l = List.replicate m c ++ (List.replicate (n - m) c ++ l) := by
  rw [← List.append_assoc, List.replicate_append_replicate, Nat.add_sub_cancel' h]

/-- The walk over two sides with equally long rests ends, and pairs up their counts. The measure
is the number of segments left, since each call of `next` passes at least one. -/
theorem collect_spec : ∀ (n : ℕ) (z : ZipIter), z.aSegs.length + z.bSegs.length < n →
    Ahead z.aConsumed z.consumed z.aSegs → Ahead z.bConsumed z.consumed z.bSegs →
    z.aRest.length = z.bRest.length →
    ∃ zs, collect n z = some zs ∧ Walks z.aRest z.bRest zs := by
  intro n
  induction n with
  | zero => intro z h; exact absurd h (Nat.not_lt_zero _)
  | succ n ih =>
    rintro ⟨as, bs, ac, bc, c⟩ hn ha hb hlen
    match as, bs, hn, ha, hb, hlen with
    | [], [], _, _, _, _ => exact ⟨[], rfl, fun z hz ↦ absurd hz List.not_mem_nil, rfl⟩
    | [], b :: bs, _, _, ⟨_, hb2, _⟩, hlen =>
      dsimp only at hb2
      simp only [aRest, bRest, List.length_nil, List.length_append, List.length_replicate] at hlen
      omega
    | a :: as, [], _, ⟨_, ha2, _⟩, _, hlen =>
      dsimp only at ha2
      simp only [aRest, bRest, List.length_nil, List.length_append, List.length_replicate] at hlen
      omega
    | a :: as, b :: bs, hn, ⟨ha1, ha2, ha3⟩, ⟨hb1, hb2, hb3⟩, hlen =>
      dsimp only at ha1 ha2 hb1 hb2
      simp only [List.length_cons] at hn
      simp only [aRest, bRest, List.length_append, List.length_replicate] at hlen ⊢
      rcases lt_trichotomy (a.len + ac) (b.len + bc) with h | h | h
      · have hcmp : compare (a.len + ac) (b.len + bc) = .lt := Nat.compare_eq_lt.mpr h
        have hsum : c + (ac + a.len - c) = ac + a.len := by omega
        obtain ⟨zs, hzs, hw⟩ := ih ⟨as, b :: bs, ac + a.len, bc, ac + a.len⟩
          (by simp only [List.length_cons]; omega) (Ahead.of_pos ha3)
          (by dsimp only [Ahead]; exact ⟨by omega, by omega, hb3⟩)
          (by rw [aRest_boundary]; simp only [bRest, List.length_append, List.length_replicate]
              omega)
        refine ⟨⟨ac + a.len - c, a.count, b.count⟩ :: zs, ?_, ?_⟩
        · simp only [collect, next, hcmp, hsum, Option.bind_eq_bind, Option.bind_some, hzs]
          rfl
        · rw [aRest_boundary] at hw
          rw [replicate_split b.count (by omega : ac + a.len - c ≤ bc + b.len - c),
            show bc + b.len - c - (ac + a.len - c) = bc + b.len - (ac + a.len) by omega]
          exact hw.cons (by omega) a.count b.count
      · have hcmp : compare (a.len + ac) (b.len + bc) = .eq := Nat.compare_eq_eq.mpr h
        have hsum : c + (ac + a.len - c) = ac + a.len := by omega
        have hbc : bc + b.len = ac + a.len := by omega
        obtain ⟨zs, hzs, hw⟩ := ih ⟨as, bs, ac + a.len, ac + a.len, ac + a.len⟩
          (by dsimp only; omega) (Ahead.of_pos ha3) (Ahead.of_pos hb3)
          (by rw [aRest_boundary, bRest_boundary]; omega)
        refine ⟨⟨ac + a.len - c, a.count, b.count⟩ :: zs, ?_, ?_⟩
        · simp only [collect, next, hcmp, hsum, hbc, Option.bind_eq_bind, Option.bind_some, hzs]
          rfl
        · rw [aRest_boundary, bRest_boundary] at hw
          rw [hbc]
          exact hw.cons (by omega) a.count b.count
      · have hcmp : compare (a.len + ac) (b.len + bc) = .gt := Nat.compare_eq_gt.mpr h
        have hsum : c + (bc + b.len - c) = bc + b.len := by omega
        obtain ⟨zs, hzs, hw⟩ := ih ⟨a :: as, bs, ac, bc + b.len, bc + b.len⟩
          (by simp only [List.length_cons]; omega)
          (by dsimp only [Ahead]; exact ⟨by omega, by omega, ha3⟩) (Ahead.of_pos hb3)
          (by rw [bRest_boundary]; simp only [aRest, List.length_append, List.length_replicate]
              omega)
        refine ⟨⟨bc + b.len - c, a.count, b.count⟩ :: zs, ?_, ?_⟩
        · simp only [collect, next, hcmp, hsum, Option.bind_eq_bind, Option.bind_some, hzs]
          rfl
        · rw [bRest_boundary] at hw
          rw [replicate_split a.count (by omega : bc + b.len - c ≤ ac + a.len - c),
            show ac + a.len - c - (bc + b.len - c) = ac + a.len - (bc + b.len) by omega]
          exact hw.cons (by omega) a.count b.count

end ZipIter

/-! ## Pointwise operations -/

namespace Subset

theorem zip_spec {s t : Subset} (h : s.counts.length = t.counts.length) :
    ∃ zs, s.zip t = some zs ∧ ZipIter.Walks s.counts t.counts zs := by
  have hw := ZipIter.collect_spec (s.segments.length + t.segments.length + 1)
    ⟨s.segments, t.segments, 0, 0, 0⟩ (Nat.lt_succ_self _) (ZipIter.Ahead.of_pos s.canonical.pos)
    (ZipIter.Ahead.of_pos t.canonical.pos)
    (by rw [ZipIter.aRest_boundary, ZipIter.bRest_boundary]; exact h)
  rw [ZipIter.aRest_boundary, ZipIter.bRest_boundary] at hw
  exact hw

end Subset

namespace ZipIter.Walks

variable {as bs : List ℕ} {zs : List ZipSegment}

theorem flatMap_eq (h : Walks as bs zs) {β : Type*} (f : ℕ → ℕ → β) :
    (zs.flatMap fun z ↦ List.replicate z.len (f z.aCount z.bCount)) = List.zipWith f as bs := by
  have hmap : (zs.flatMap fun z ↦ List.replicate z.len (f z.aCount z.bCount))
      = (zs.flatMap fun z ↦ List.replicate z.len (z.aCount, z.bCount)).map
        fun p ↦ f p.1 p.2 := by
    rw [List.map_flatMap]
    simp
  rw [hmap, h.2, List.zip, List.map_zipWith]

theorem mem_zip (h : Walks as bs zs) {z : ZipSegment} (hz : z ∈ zs) :
    (z.aCount, z.bCount) ∈ as.zip bs := by
  rw [← h.2, List.mem_flatMap]
  exact ⟨z, hz, by simp [(h.1 z hz).ne']⟩

end ZipIter.Walks

namespace Subset

private theorem pushAll_spec {as bs : List ℕ} {zs : List ZipSegment} (h : ZipIter.Walks as bs zs)
    (f : ℕ → ℕ → ℕ) :
    (zs.foldlM (fun sb z ↦ sb.pushSegment z.len (f z.aCount z.bCount)) SubsetBuilder.new >>=
        fun sb ↦ some sb.build) = some (ofCounts (List.zipWith f as bs)) := by
  obtain ⟨sb, hsb, hcounts⟩ := SubsetBuilder.foldlM_pushSegment ZipSegment.len
    (fun z ↦ f z.aCount z.bCount) zs h.1 SubsetBuilder.new
  rw [hsb, Option.bind_eq_bind, Option.bind_some, SubsetBuilder.build_eq, hcounts,
    h.flatMap_eq f]
  rfl

theorem union_eq {s t : Subset} (h : s.counts.length = t.counts.length) :
    s.union t = some (ofCounts (List.zipWith (· + ·) s.counts t.counts)) := by
  obtain ⟨zs, hzs, hw⟩ := zip_spec h
  rw [union, hzs]
  exact pushAll_spec hw (· + ·)

theorem bitxor_eq {s t : Subset} (h : s.counts.length = t.counts.length) :
    s.bitxor t = some (ofCounts (List.zipWith (· ^^^ ·) s.counts t.counts)) := by
  obtain ⟨zs, hzs, hw⟩ := zip_spec h
  rw [bitxor, hzs]
  exact pushAll_spec hw (· ^^^ ·)

theorem subtract_eq {s t : Subset} (h : s.counts.length = t.counts.length)
    (hle : ∀ p ∈ s.counts.zip t.counts, p.2 ≤ p.1) :
    s.subtract t = some (ofCounts (List.zipWith (· - ·) s.counts t.counts)) := by
  obtain ⟨zs, hzs, hw⟩ := zip_spec h
  have hguard : ∀ (zs' : List ZipSegment) (sb : SubsetBuilder), (∀ z ∈ zs', z.bCount ≤ z.aCount) →
      zs'.foldlM (fun sb z ↦ if z.aCount ≥ z.bCount
        then sb.pushSegment z.len (z.aCount - z.bCount) else none) sb
      = zs'.foldlM (fun sb z ↦ sb.pushSegment z.len (z.aCount - z.bCount)) sb := by
    intro zs'
    induction zs' with
    | nil => intro sb _; rfl
    | cons z zs' ih =>
      intro sb hz
      rw [List.foldlM_cons, List.foldlM_cons, if_pos (hz z (by simp))]
      congr 1
      funext sb'
      exact ih sb' fun y hy ↦ hz y (by simp [hy])
  rw [subtract, hzs]
  change (zs.foldlM _ SubsetBuilder.new >>= fun sb ↦ some sb.build) = _
  rw [hguard zs _ fun z hz ↦ hle _ (hw.mem_zip hz)]
  exact pushAll_spec hw (· - ·)

/-- Where `subtract` does not panic, no count of `t` is the larger one. -/
theorem le_of_subtract {s t r : Subset} (h : s.counts.length = t.counts.length)
    (hr : s.subtract t = some r) : ∀ p ∈ s.counts.zip t.counts, p.2 ≤ p.1 := by
  obtain ⟨zs, hzs, hw⟩ := zip_spec h
  have hguard : ∀ (zs' : List ZipSegment) (sb sb' : SubsetBuilder),
      zs'.foldlM (fun sb z ↦ if z.aCount ≥ z.bCount
        then sb.pushSegment z.len (z.aCount - z.bCount) else none) sb = some sb' →
      ∀ z ∈ zs', z.bCount ≤ z.aCount := by
    intro zs'
    induction zs' with
    | nil => intro sb sb' _ z hz; exact absurd hz List.not_mem_nil
    | cons z zs' ih =>
      intro sb sb' hf y hy
      rw [List.foldlM_cons] at hf
      by_cases hz : z.aCount ≥ z.bCount
      · rw [if_pos hz, Option.bind_eq_bind, Option.bind_eq_some_iff] at hf
        obtain ⟨sb₁, -, hf⟩ := hf
        rcases List.mem_cons.mp hy with rfl | hy
        · exact hz
        · exact ih _ _ hf y hy
      · rw [if_neg hz] at hf
        cases hf
  rw [subtract, hzs, Option.bind_eq_bind, Option.bind_some, Option.bind_eq_bind,
    Option.bind_eq_some_iff] at hr
  obtain ⟨sb, hsb, -⟩ := hr
  have hall := hguard zs _ _ hsb
  intro p hp
  rw [← hw.2, List.mem_flatMap] at hp
  obtain ⟨z, hz, hp⟩ := hp
  rw [(List.mem_replicate.mp hp).2]
  exact hall z hz

theorem keepZero_eq_flatMap {β : Type*} :
    ∀ (as : List β) (bs : List ℕ),
      keepZero as bs = (as.zip bs).flatMap fun p ↦ if p.2 = 0 then [p.1] else []
  | [], bs => by simp
  | a :: as, [] => by simp
  | a :: as, 0 :: bs => by simp [keepZero_eq_flatMap as bs]
  | a :: as, (b + 1) :: bs => by simp [keepZero_eq_flatMap as bs]

theorem transformShrink_eq {s t : Subset} (h : s.counts.length = t.counts.length) :
    s.transformShrink t = some (ofCounts (keepZero s.counts t.counts)) := by
  obtain ⟨zs, hzs, hw⟩ := zip_spec h
  have hfold : ∀ (zs' : List ZipSegment) (sb : SubsetBuilder), (∀ z ∈ zs', 0 < z.len) →
      ∃ sb', zs'.foldlM (fun sb z ↦ if z.bCount = 0
          then SubsetBuilder.pushSegment sb z.len z.aCount else some sb) sb = some sb' ∧
        sb'.counts = sb.counts
          ++ zs'.flatMap fun z ↦ if z.bCount = 0 then List.replicate z.len z.aCount else [] := by
    intro zs'
    induction zs' with
    | nil => intro sb _; exact ⟨sb, rfl, by simp⟩
    | cons z zs' ih =>
      intro sb hz
      have hpos : 0 < z.len := hz z (by simp)
      by_cases hb : z.bCount = 0
      · obtain ⟨sb', hs, hc⟩ := ih (sb.pushPos hpos z.aCount) fun y hy ↦ hz y (by simp [hy])
        refine ⟨sb', ?_, ?_⟩
        · rw [List.foldlM_cons, if_pos hb, SubsetBuilder.pushSegment_of_pos _ hpos]
          exact hs
        · rw [hc, SubsetBuilder.counts_pushPos, List.flatMap_cons, if_pos hb, List.append_assoc]
      · obtain ⟨sb', hs, hc⟩ := ih sb fun y hy ↦ hz y (by simp [hy])
        refine ⟨sb', ?_, ?_⟩
        · rw [List.foldlM_cons, if_neg hb]
          exact hs
        · rw [hc, List.flatMap_cons, if_neg hb, List.nil_append]
  obtain ⟨sb, hsb, hcounts⟩ := hfold zs SubsetBuilder.new hw.1
  have hkeep : (zs.flatMap fun z ↦ if z.bCount = 0 then List.replicate z.len z.aCount else [])
      = keepZero s.counts t.counts := by
    rw [keepZero_eq_flatMap, ← hw.2, List.flatMap_assoc]
    congr 1
    funext z
    by_cases hb : z.bCount = 0 <;> simp [hb, List.flatMap_replicate]
  rw [transformShrink, hzs]
  change (zs.foldlM _ SubsetBuilder.new >>= fun sb ↦ some sb.build) = _
  rw [hsb, Option.bind_eq_bind, Option.bind_some, SubsetBuilder.build_eq, hcounts, hkeep]
  rfl

theorem complement_eq (s : Subset) :
    s.complement = some (ofCounts (s.counts.map fun c ↦ if c = 0 then 1 else 0)) := by
  obtain ⟨sb, hsb, hcounts⟩ := SubsetBuilder.foldlM_pushSegment Run.len
    (fun seg : Segment ↦ if seg.count = 0 then 1 else 0) s.segments s.canonical.pos
    SubsetBuilder.new
  have hmap : (s.segments.flatMap fun seg : Segment ↦
      List.replicate seg.len (if seg.count = 0 then 1 else 0))
      = s.counts.map fun c ↦ if c = 0 then 1 else 0 := by
    rw [counts, Run.expand, List.map_flatMap]
    simp
  rw [complement, hsb, Option.bind_eq_bind, Option.bind_some, SubsetBuilder.build_eq, hcounts, hmap]
  rfl

/-! ## Transforms -/

/-- What is left of the iteration over `self`: the rest of the current segment and the segments
after it. -/
def rest (curSeg : Segment) (segIter : List Segment) : List ℕ :=
  List.replicate curSeg.len curSeg.count ++ Run.expand segIter

theorem fillZeroRegion_spec (segIter : List Segment) : ∀ (curSeg : Segment) (n : ℕ)
    (sb : SubsetBuilder), n ≤ (rest curSeg segIter).length →
    ∃ sb' curSeg' segIter', fillZeroRegion segIter curSeg n sb = some (sb', curSeg', segIter') ∧
      sb'.counts = sb.counts ++ (rest curSeg segIter).take n ∧
      rest curSeg' segIter' = (rest curSeg segIter).drop n ∧
      ∀ seg ∈ segIter', seg ∈ segIter := by
  induction segIter with
  | nil =>
    intro curSeg n sb h
    have hn : n ≤ curSeg.len := by simpa [rest] using h
    have hmin : min curSeg.len n = n := min_eq_right hn
    rw [fillZeroRegion]
    simp only [hmin, Nat.sub_self, if_true, rest, Run.expand_nil, List.append_nil,
      List.take_replicate, List.drop_replicate, min_eq_left hn]
    rcases Nat.eq_zero_or_pos n with rfl | hpos
    · exact ⟨sb, _, [], rfl, by simp, by simp, fun _ hs ↦ hs⟩
    · rw [if_neg hpos.ne', SubsetBuilder.pushSegment_of_pos _ hpos]
      exact ⟨_, _, [], rfl, SubsetBuilder.counts_pushPos _ _ _, by simp, fun _ hs ↦ hs⟩
  | cons seg segIter ih =>
    intro curSeg n sb h
    obtain ⟨sb₁, hsb₁, hcounts₁⟩ : ∃ sb₁, (if min curSeg.len n = 0 then some sb
        else sb.pushSegment (min curSeg.len n) curSeg.count) = some sb₁ ∧
        sb₁.counts = sb.counts ++ List.replicate (min curSeg.len n) curSeg.count := by
      rcases Nat.eq_zero_or_pos (min curSeg.len n) with h0 | hpos
      · exact ⟨sb, if_pos h0, by simp [h0]⟩
      · exact ⟨_, by rw [if_neg hpos.ne', SubsetBuilder.pushSegment_of_pos _ hpos],
          SubsetBuilder.counts_pushPos _ _ _⟩
    rw [fillZeroRegion, hsb₁]
    simp only [Option.bind_eq_bind, Option.bind_some]
    by_cases hn : n ≤ curSeg.len
    · have hmin : min curSeg.len n = n := min_eq_right hn
      rw [hmin] at hcounts₁
      simp only [hmin, Nat.sub_self, if_true]
      refine ⟨sb₁, _, _, rfl, ?_, ?_, fun _ hs ↦ hs⟩
      · rw [hcounts₁, rest, List.take_append_of_le_length (by simpa using hn),
          List.take_replicate, min_eq_left hn]
      · rw [rest, rest, List.drop_append_of_le_length (by simpa using hn), List.drop_replicate]
    · have hlt : curSeg.len < n := not_le.mp hn
      have hmin : min curSeg.len n = curSeg.len := min_eq_left hlt.le
      rw [hmin] at hcounts₁
      rw [hmin, if_neg (by omega)]
      have hrest : rest curSeg (seg :: segIter)
          = List.replicate curSeg.len curSeg.count ++ rest seg segIter := by
        rw [rest, rest, Run.expand_cons]
      obtain ⟨sb', c', it', hfill, hcounts, hdrop, hmem⟩ := ih seg (n - curSeg.len) sb₁
        (by rw [hrest] at h; simp at h; omega)
      refine ⟨sb', c', it', hfill, ?_, ?_, fun s hs ↦ by simp [hmem s hs]⟩
      · rw [hcounts, hcounts₁, hrest, List.take_append, List.length_replicate, List.take_replicate,
          min_eq_right hlt.le, List.append_assoc]
      · rw [hdrop, hrest, List.drop_append, List.length_replicate, List.drop_replicate,
          Nat.sub_eq_zero_of_le hlt.le, List.replicate_zero, List.nil_append]

theorem transformSegs_spec (un : Bool) (osegs : List Segment) :
    ∀ (segIter : List Segment) (curSeg : Segment) (sb : SubsetBuilder),
      (∀ seg ∈ osegs, 0 < seg.len) → (∀ seg ∈ segIter, 0 < seg.len) →
      (rest curSeg segIter).length = zeros (Run.expand osegs) →
      ∃ sb', transformSegs un osegs segIter curSeg sb = some sb' ∧
        sb'.counts = sb.counts
          ++ fillZero (fun c ↦ if un then c else 0) (Run.expand osegs) (rest curSeg segIter) := by
  induction osegs with
  | nil =>
    intro segIter curSeg sb _ hpos hlen
    have hnil : rest curSeg segIter = [] := by
      rw [← List.length_eq_zero_iff, hlen]
      rfl
    have hcur : curSeg.len = 0 := by
      have := (List.append_eq_nil_iff.mp hnil).1
      simpa using this
    have hiter : segIter = [] := by
      have hexp := (List.append_eq_nil_iff.mp hnil).2
      cases segIter with
      | nil => rfl
      | cons seg segIter =>
        have hseg := hpos seg (by simp)
        rw [Run.expand_cons, List.append_eq_nil_iff] at hexp
        have : seg.len = 0 := by simpa using hexp.1
        omega
    exact ⟨sb, by rw [transformSegs, if_pos ⟨hcur, hiter⟩], by simp [fillZero]⟩
  | cons oseg osegs ih =>
    intro segIter curSeg sb hopos hpos hlen
    have ho : 0 < oseg.len := hopos oseg (by simp)
    have hopos' : ∀ seg ∈ osegs, 0 < seg.len := fun seg hs ↦ hopos seg (by simp [hs])
    rw [transformSegs, Run.expand_cons]
    rw [Run.expand_cons, zeros_append] at hlen
    cases hc : oseg.val with
    | succ c =>
      rw [hc, zeros_replicate_succ, Nat.zero_add] at hlen
      obtain ⟨sb', hsb', hcounts⟩ := ih segIter curSeg
        (sb.pushPos ho (if un then c + 1 else 0)) hopos' hpos hlen
      refine ⟨sb', ?_, ?_⟩
      · rw [if_pos (by simp [Segment.count, hc]), Segment.count, hc,
          SubsetBuilder.pushSegment_of_pos _ ho]
        exact hsb'
      · rw [hcounts, SubsetBuilder.counts_pushPos, fillZero_replicate_succ_append,
          List.append_assoc]
    | zero =>
      rw [hc, zeros_replicate_zero] at hlen
      have hle : oseg.len ≤ (rest curSeg segIter).length := by omega
      obtain ⟨sb₁, cur₁, iter₁, hfill, hcounts₁, hrest₁, hmem⟩ :=
        fillZeroRegion_spec segIter curSeg oseg.len sb hle
      obtain ⟨sb', hsb', hcounts⟩ := ih iter₁ cur₁ sb₁ hopos' (fun s hs ↦ hpos s (hmem s hs))
        (by rw [hrest₁, List.length_drop]; omega)
      refine ⟨sb', ?_, ?_⟩
      · rw [if_neg (by simp [Segment.count, hc]), hfill]
        exact hsb'
      · rw [hcounts, hcounts₁, hrest₁, fillZero_replicate_zero_append _ _ _ _ hle,
          List.append_assoc]

theorem transform_eq {s t : Subset} (un : Bool) (h : s.counts.length = zeros t.counts) :
    s.transform t un
      = some (ofCounts (fillZero (fun c ↦ if un then c else 0) t.counts s.counts)) := by
  have hrest : rest ⟨0, 0⟩ s.segments = s.counts := by simp [rest, counts]
  obtain ⟨sb, hsb, hcounts⟩ := transformSegs_spec un t.segments s.segments ⟨0, 0⟩
    SubsetBuilder.new t.canonical.pos s.canonical.pos (by rw [hrest]; exact h)
  rw [transform, hsb, Option.bind_eq_bind, Option.bind_some, SubsetBuilder.build_eq, hcounts,
    hrest]
  rfl

end Subset

end EeEditor
