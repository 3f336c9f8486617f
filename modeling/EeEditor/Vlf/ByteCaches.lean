import EeEditor.Sequence.Eviction
import EeEditor.Sequence.OrderedMap
import EeEditor.Vlf.DecodedCache

/-!
# The books of the byte caches

The model of `PageCache` in `xi-core-lib/src/vlf/pager.rs`, and what its operations and those of
`DecodedTextCache` keep. In both caches the order is an index of the entries: it has the key of
every entry, and only these. So the first key of the order is that of an entry as long as there is
one, and every round of an eviction makes room.

Counters and sizes are numbers without a bound.
-/

namespace EeEditor.Vlf

/-! ## The cache of pages -/

structure PageCache where
  /-- The bytes of a range with the time of the last access. -/
  data : AList fun _ : ℕ × ℕ ↦ List UInt8 × ℕ
  order : OrderedMap (ℕ × ℕ)
  accessCounter : ℕ
  usedBytes : ℕ
  byteCap : ℕ
  hits : ℕ
  misses : ℕ
  evictions : ℕ

namespace PageCache

def new (byteCap : ℕ) : PageCache := ⟨∅, ∅, 0, 0, byteCap, 0, 0, 0⟩

def get (self : PageCache) (rangeKey : ℕ × ℕ) : Option (List UInt8) × PageCache :=
  match self.data.lookup rangeKey with
  | none => (none, self)
  | some (page, oldTime) =>
    let newTime := self.accessCounter + 1
    (some page, { self with
      data := self.data.insert rangeKey (page, newTime)
      order := (self.order.eraseAll [oldTime]).insert newTime rangeKey
      accessCounter := newTime
      hits := self.hits + 1 })

/-- Remove the entry of a range. -/
def remove (self : PageCache) (rangeKey : ℕ × ℕ) : PageCache :=
  match self.data.lookup rangeKey with
  | none => self
  | some (old, oldTime) => { self with
      data := self.data.erase rangeKey
      order := self.order.eraseAll [oldTime]
      usedBytes := self.usedBytes - old.length }

/-- A round of the loop that evicts. -/
def evictOldest (self : PageCache) : PageCache :=
  match self.order.entries.head? with
  | none => self
  | some (oldestTime, oldestRange) =>
    let order := self.order.eraseAll [oldestTime]
    match self.data.lookup oldestRange with
    | none => { self with order }
    | some (evicted, _) => { self with
        order
        data := self.data.erase oldestRange
        usedBytes := self.usedBytes - evicted.length
        evictions := self.evictions + 1 }

/-- The loop that evicts until there is room; `none` if that takes more rounds than given. -/
def evict (needed : ℕ) : ℕ → PageCache → Option PageCache
  | 0, self =>
    if self.data.entries ≠ [] ∧ self.usedBytes + needed > self.byteCap then none else some self
  | rounds + 1, self =>
    if self.data.entries ≠ [] ∧ self.usedBytes + needed > self.byteCap then
      evict needed rounds self.evictOldest
    else some self

def put (rounds : ℕ) (self : PageCache) (rangeKey : ℕ × ℕ) (bytes : List UInt8) :
    Option PageCache :=
  (evict bytes.length rounds (self.remove rangeKey)).map fun self ↦
    let time := self.accessCounter + 1
    { self with
      accessCounter := time
      usedBytes := self.usedBytes + bytes.length
      data := self.data.insert rangeKey (bytes, time)
      order := self.order.insert time rangeKey
      misses := self.misses + 1 }

inductive Call where
  | get (rangeKey : ℕ × ℕ)
  | put (rangeKey : ℕ × ℕ) (bytes : List UInt8)

def call (rounds : ℕ) (self : PageCache) : Call → Option PageCache
  | .get rangeKey => some (self.get rangeKey).2
  | .put rangeKey bytes => self.put rounds rangeKey bytes

def run (rounds : ℕ) (self : PageCache) (calls : List Call) : Option PageCache :=
  calls.foldlM (call rounds) self

def time (entry : List UInt8 × ℕ) : ℕ := entry.2

def size (entry : List UInt8 × ℕ) : ℕ := entry.1.length

structure KeepsBooks (cache : PageCache) : Prop where
  index : IsIndex (· < ·) time cache.order.entries cache.data
  usedBytes : cache.usedBytes = totalSize size cache.data
  room : cache.usedBytes ≤ cache.byteCap ∨
    ∃ rangeKey entry, cache.data.entries = [⟨rangeKey, entry⟩] ∧ cache.byteCap < size entry

/-- Bytes are put into a cache, and others are evicted for them. -/
structure Puts (rangeKey : ℕ × ℕ) (bytes : List UInt8) (old new : PageCache) : Prop where
  entry : new.data.lookup rangeKey = some (bytes, new.accessCounter)
  evicted : Evicted (· < ·) time size bytes.length old.byteCap (old.data.erase rangeKey)
    (new.data.erase rangeKey)

/-! ## What a page cache keeps -/

section

variable {order : OrderedMap (ℕ × ℕ)} {t : ℕ} {k : ℕ × ℕ}

theorem mem_entries_eraseAll (p : ℕ × (ℕ × ℕ)) :
    p ∈ (order.eraseAll [t]).entries ↔ p ∈ order.entries ∧ p.1 ≠ t := by
  rw [OrderedMap.mem_entries, OrderedMap.mem_eraseAll, List.mem_singleton]
  rfl

theorem mem_entries_insert (hfresh : ∀ p ∈ order, p.1 ≠ t) (p : ℕ × (ℕ × ℕ)) :
    p ∈ (order.insert t k).entries ↔ p = (t, k) ∨ p ∈ order.entries := by
  rw [OrderedMap.mem_entries, OrderedMap.mem_insert]
  exact or_congr_right ⟨fun hp ↦ hp.1, fun hp ↦ ⟨hp, hfresh p hp⟩⟩

end

variable {cache : PageCache} {rounds : ℕ}

/-- The order is an index, with no time that is still to come. -/
structure Counts (cache : PageCache) : Prop where
  index : IsIndex (· < ·) time cache.order.entries cache.data
  usedBytes : cache.usedBytes = totalSize size cache.data
  times : ∀ p ∈ cache.order, p.1 ≤ cache.accessCounter

theorem Counts.new (byteCap : ℕ) : (PageCache.new byteCap).Counts :=
  ⟨.empty, rfl, fun _ h ↦ absurd h OrderedMap.not_mem_empty⟩

theorem Counts.remove (h : cache.Counts) (rangeKey : ℕ × ℕ) :
    (cache.remove rangeKey).Counts ∧ (cache.remove rangeKey).byteCap = cache.byteCap ∧
      (cache.remove rangeKey).data = cache.data.erase rangeKey := by
  rw [PageCache.remove]
  split
  · next hnone =>
    exact ⟨h, rfl, (erase_entry_of_none hnone).symm⟩
  · next old oldTime hlookup =>
    refine ⟨⟨h.index.erase hlookup (OrderedMap.sorted _) mem_entries_eraseAll, ?_, fun p hp ↦ ?_⟩,
      rfl, rfl⟩
    · exact Nat.sub_eq_of_eq_add' (h.usedBytes.trans (totalSize_eq hlookup))
    · exact h.times p (OrderedMap.mem_eraseAll.mp hp).1

theorem Counts.get (h : cache.Counts) (rangeKey : ℕ × ℕ) : (cache.get rangeKey).2.Counts := by
  rw [PageCache.get]
  split
  · exact h
  · next page oldTime hlookup =>
    have hfresh : ∀ p ∈ cache.order.eraseAll [oldTime], p.1 ≠ cache.accessCounter + 1 := by
      intro p hp heq
      have hle := h.times p (OrderedMap.mem_eraseAll.mp hp).1
      omega
    refine ⟨h.index.rekey hlookup (OrderedMap.sorted _) mem_entries_eraseAll
      (OrderedMap.sorted _) (mem_entries_insert hfresh), ?_, fun p hp ↦ ?_⟩
    · exact h.usedBytes.trans (totalSize_rekey hlookup rfl)
    · rcases OrderedMap.mem_insert.mp hp with rfl | ⟨hp, -⟩
      · exact Nat.le_refl _
      · exact (h.times p (OrderedMap.mem_eraseAll.mp hp).1).trans (Nat.le_succ _)

/-- The entry that is got stays one of as many, with its size. -/
theorem KeepsBooks.get (h : cache.KeepsBooks) (hcounts : cache.Counts) (rangeKey : ℕ × ℕ) :
    (cache.get rangeKey).2.KeepsBooks ∧
      (cache.get rangeKey).2.data.entries.length = cache.data.entries.length := by
  have hget := hcounts.get rangeKey
  rw [PageCache.get] at hget ⊢
  split at hget
  · exact ⟨h, rfl⟩
  · next page oldTime hlookup =>
    have hlength : (cache.data.insert rangeKey (page, cache.accessCounter + 1)).entries.length =
        cache.data.entries.length := length_erase_entry hlookup
    refine ⟨⟨hget.index, hget.usedBytes, h.room.imp_right ?_⟩, hlength⟩
    rintro ⟨k, entry, hentries, hlarge⟩
    have hmem : (⟨rangeKey, (page, oldTime)⟩ : (_ : ℕ × ℕ) × (List UInt8 × ℕ)) ∈
        cache.data.entries := AList.mem_lookup_iff.mp hlookup
    rw [hentries, List.mem_singleton] at hmem
    cases hmem
    refine ⟨rangeKey, (page, cache.accessCounter + 1), ?_, hlarge⟩
    change ⟨rangeKey, _⟩ :: List.kerase rangeKey cache.data.entries = _
    rw [hentries]
    exact congrArg (List.cons _) (List.kerase_cons_eq rfl)

/-- A round with entries evicts the first one of the order. -/
theorem Counts.evictOldest (h : cache.Counts) (hne : cache.data.entries ≠ []) :
    ∃ t k, cache.order.entries = (t, k) :: cache.evictOldest.order.entries ∧
      cache.evictOldest.data = cache.data.erase k ∧ cache.evictOldest.Counts ∧
      cache.evictOldest.byteCap = cache.byteCap ∧
      cache.evictOldest.data.entries.length + 1 = cache.data.entries.length := by
  obtain ⟨⟨t, k⟩, rest, hentries⟩ := List.exists_cons_of_ne_nil (h.index.ne_nil hne)
  have hindex := h.index
  rw [hentries] at hindex
  obtain ⟨⟨page, oldTime⟩, hlookup, hkey, hrest, -⟩ := hindex.head
  have horder : (cache.order.eraseAll [t]).entries = rest := by
    have hfirst : cache.order.keys.take 1 = [t] := by
      rw [OrderedMap.keys, hentries]
      rfl
    rw [← hfirst, OrderedMap.entries_eraseAll_take, hentries]
    rfl
  rw [PageCache.evictOldest, hentries, List.head?_cons]
  dsimp only
  rw [hlookup]
  refine ⟨t, k, by rw [horder], rfl, ⟨?_, ?_, fun p hp ↦ ?_⟩, rfl, length_erase_entry hlookup⟩
  · rwa [← horder] at hrest
  · exact Nat.sub_eq_of_eq_add' (h.usedBytes.trans (totalSize_eq hlookup))
  · exact h.times p (OrderedMap.mem_eraseAll.mp hp).1

/-- The loop comes to its end after as many rounds as there are entries. -/
theorem Counts.evict (h : cache.Counts) (needed : ℕ)
    (hrounds : cache.data.entries.length ≤ rounds) :
    ∃ cache', PageCache.evict needed rounds cache = some cache' ∧ cache'.Counts ∧
      cache'.byteCap = cache.byteCap ∧ cache'.data.entries.length ≤ cache.data.entries.length ∧
      EvictsTo size needed cache.byteCap cache.order.entries cache.data cache'.order.entries
        cache'.data := by
  induction rounds generalizing cache with
  | zero =>
    have hempty := List.eq_nil_of_length_eq_zero (Nat.le_zero.mp hrounds)
    refine ⟨cache, ?_, h, rfl, Nat.le_refl _, .fits (.inl (AList.ext hempty))⟩
    rw [PageCache.evict, if_neg fun hfull ↦ hfull.1 hempty]
  | succ rounds ih =>
    rw [PageCache.evict]
    split_ifs with hfull
    · obtain ⟨t, k, horder, hdata, hcounts, hcap, hlength⟩ := h.evictOldest hfull.1
      obtain ⟨cache', hrun, hcounts', hcap', hlength', hevicts⟩ := ih hcounts (by omega)
      refine ⟨cache', hrun, hcounts', hcap'.trans hcap, by omega, ?_⟩
      rw [horder]
      rw [hdata, hcap] at hevicts
      exact .next (by rw [← h.usedBytes]; exact hfull.2) hevicts
    · refine ⟨cache, rfl, h, rfl, Nat.le_refl _, .fits ?_⟩
      rw [← h.usedBytes]
      by_cases hempty : cache.data.entries = []
      · exact .inl (AList.ext hempty)
      · exact .inr (Nat.not_lt.mp fun hlt ↦ hfull ⟨hempty, hlt⟩)

theorem Counts.put (h : cache.Counts) (hrounds : cache.data.entries.length ≤ rounds)
    (rangeKey : ℕ × ℕ) (bytes : List UInt8) :
    ∃ cache', cache.put rounds rangeKey bytes = some cache' ∧ cache'.KeepsBooks ∧
      cache'.Counts ∧ cache'.data.entries.length ≤ cache.data.entries.length + 1 ∧
      Puts rangeKey bytes cache cache' := by
  obtain ⟨hremove, hcap, hdata⟩ := h.remove rangeKey
  have hlength : (cache.remove rangeKey).data.entries.length ≤ cache.data.entries.length := by
    rw [hdata]
    exact (List.kerase_sublist _ _).length_le
  obtain ⟨rest, hrun, hcounts, hcap', hlength', hevicts⟩ :=
    hremove.evict bytes.length (hlength.trans hrounds)
  obtain ⟨hindex, hevicted⟩ := hevicts.spec hremove.index
  rw [hcap, hdata] at hevicted
  have hnone : rest.data.lookup rangeKey = none := by
    rcases hevicted.kept rangeKey with hsame | hnone
    · rwa [AList.lookup_erase] at hsame
    · exact hnone
  have hfresh : ∀ p ∈ rest.order, p.1 ≠ rest.accessCounter + 1 := by
    intro p hp heq
    have hle := hcounts.times p hp
    omega
  have hput : cache.put rounds rangeKey bytes = some { rest with
      accessCounter := rest.accessCounter + 1
      usedBytes := rest.usedBytes + bytes.length
      data := rest.data.insert rangeKey (bytes, rest.accessCounter + 1)
      order := rest.order.insert (rest.accessCounter + 1) rangeKey
      misses := rest.misses + 1 } := by
    rw [PageCache.put, hrun, Option.map_some]
  have hused : rest.usedBytes + bytes.length =
      totalSize size (rest.data.insert rangeKey (bytes, rest.accessCounter + 1)) := by
    rw [totalSize_insert hnone, hcounts.usedBytes, Nat.add_comm]
    rfl
  have hindex' := hcounts.index.insert (v := (bytes, rest.accessCounter + 1)) hnone
    (OrderedMap.sorted _) (mem_entries_insert hfresh)
  refine ⟨_, hput, ⟨hindex', hused, ?_⟩, ⟨hindex', hused, fun p hp ↦ ?_⟩, ?_, ?_⟩
  · rcases hevicted.room with hempty | hroom
    · rw [hcap', hcap]
      have hzero : rest.usedBytes = 0 := hcounts.usedBytes.trans (by rw [hempty]; rfl)
      rw [hzero, Nat.zero_add, hempty]
      exact (Nat.lt_or_ge cache.byteCap bytes.length).symm.imp_right fun hlt ↦ ⟨_, _, rfl, hlt⟩
    · rw [← hcounts.usedBytes] at hroom
      rw [hcap', hcap]
      exact .inl hroom
  · rcases OrderedMap.mem_insert.mp hp with rfl | ⟨hp, -⟩
    · exact Nat.le_refl _
    · exact (hcounts.times p hp).trans (Nat.le_succ _)
  · dsimp only
    rw [AList.entries_insert_of_notMem (AList.lookup_eq_none.mp hnone), List.length_cons]
    omega
  · refine ⟨AList.lookup_insert _, ?_⟩
    rwa [erase_insert_entry hnone]

/-- What the calls keep. -/
structure Kept (cache : PageCache) (calls : ℕ) : Prop where
  counts : cache.Counts
  books : cache.KeepsBooks
  length : cache.data.entries.length ≤ calls

theorem Kept.new (byteCap : ℕ) : (PageCache.new byteCap).Kept 0 :=
  ⟨.new byteCap, ⟨.empty, rfl, .inl (Nat.zero_le _)⟩, Nat.le_refl 0⟩

theorem Kept.call {n : ℕ} (h : cache.Kept n) (hrounds : n ≤ rounds) (c : Call) :
    ∃ cache', cache.call rounds c = some cache' ∧ cache'.Kept (n + 1) := by
  cases c with
  | get rangeKey =>
    obtain ⟨hbooks, hlength⟩ := h.books.get h.counts rangeKey
    exact ⟨_, rfl, h.counts.get rangeKey, hbooks, hlength.trans_le (Nat.le_succ_of_le h.length)⟩
  | put rangeKey bytes =>
    obtain ⟨cache', hput, hbooks, hcounts, hlength, -⟩ :=
      h.counts.put (h.length.trans hrounds) rangeKey bytes
    exact ⟨cache', hput, hcounts, hbooks, hlength.trans (Nat.succ_le_succ h.length)⟩

theorem Kept.run {n : ℕ} (h : cache.Kept n) (calls : List Call)
    (hrounds : n + calls.length ≤ rounds) :
    ∃ cache', cache.run rounds calls = some cache' ∧ cache'.Kept (n + calls.length) := by
  induction calls generalizing cache n with
  | nil => exact ⟨cache, rfl, h⟩
  | cons c calls ih =>
    rw [List.length_cons] at hrounds ⊢
    have hle : n ≤ rounds := by omega
    obtain ⟨next, hcall, hnext⟩ := h.call hle c
    obtain ⟨cache', hrun, hkept⟩ := ih hnext (by omega : n + 1 + calls.length ≤ rounds)
    refine ⟨cache', ?_, ?_⟩
    · rw [PageCache.run, List.foldlM_cons, hcall]
      exact hrun
    · rwa [Nat.add_right_comm n, Nat.add_assoc] at hkept

end PageCache

/-! ## The cache of decoded text -/

def EvictKey.lt (a b : EvictKey) : Prop := a.1 < b.1 ∨ a.1 = b.1 ∧ a.2 < b.2

namespace EvictKey

instance : DecidableRel lt := fun a b ↦ inferInstanceAs (Decidable (a.1 < b.1 ∨ _))

instance : Std.Irrefl lt := ⟨fun a h ↦ by rw [lt] at h; omega⟩

instance : Std.Asymm lt := ⟨fun a b h h' ↦ by rw [lt] at h h'; omega⟩

theorem lt_of_not_lt {a b : EvictKey} (hne : a ≠ b) (h : ¬ lt a b) : lt b a := by
  rw [lt] at h ⊢
  rw [Ne, Prod.ext_iff] at hne
  omega

theorem lt_trans {a b c : EvictKey} (h : lt a b) (h' : lt b c) : lt a c := by
  rw [lt] at h h' ⊢
  omega

end EvictKey

section

variable {key : EvictKey} {pageStart : ℕ} {order : List (EvictKey × ℕ)}

theorem mem_removeKey (p : EvictKey × ℕ) : p ∈ removeKey key order ↔ p ∈ order ∧ p.1 ≠ key := by
  rw [removeKey, List.mem_filter, decide_eq_true_eq]

theorem mem_insertKey (hfresh : ∀ p ∈ order, p.1 ≠ key) (p : EvictKey × ℕ) :
    p ∈ insertKey key pageStart order ↔ p = (key, pageStart) ∨ p ∈ order := by
  induction order with
  | nil => rw [insertKey, List.mem_singleton, List.mem_nil_iff, or_false]
  | cons q order ih =>
    obtain ⟨hne, hfresh⟩ := List.forall_mem_cons.mp hfresh
    rw [insertKey, if_neg (Ne.symm hne)]
    split_ifs
    · exact List.mem_cons
    · rw [List.mem_cons, ih hfresh, List.mem_cons, or_left_comm]

theorem sorted_insertKey (hfresh : ∀ p ∈ order, p.1 ≠ key)
    (h : order.Pairwise fun p q ↦ EvictKey.lt p.1 q.1) :
    (insertKey key pageStart order).Pairwise fun p q ↦ EvictKey.lt p.1 q.1 := by
  induction order with
  | nil => exact List.pairwise_singleton _ _
  | cons q order ih =>
    obtain ⟨hne, hfresh'⟩ := List.forall_mem_cons.mp hfresh
    obtain ⟨hbelow, hsorted⟩ := List.pairwise_cons.mp h
    rw [insertKey, if_neg (Ne.symm hne)]
    split_ifs with hlt
    · refine List.pairwise_cons.mpr ⟨List.forall_mem_cons.mpr ⟨hlt, fun p hp ↦ ?_⟩, h⟩
      exact EvictKey.lt_trans hlt (hbelow p hp)
    · refine List.pairwise_cons.mpr ⟨fun p hp ↦ ?_, ih hfresh' hsorted⟩
      rcases (mem_insertKey hfresh' p).mp hp with rfl | hp
      · exact EvictKey.lt_of_not_lt (Ne.symm hne) hlt
      · exact hbelow p hp

variable (hother : ∀ p ∈ order, p.1.2 ≠ key.2)

include hother

theorem fresh_of_time : ∀ p ∈ order, p.1 ≠ key :=
  fun p hp heq ↦ hother p hp (congrArg (·.2) heq)

theorem unique_insertKey (h : ∀ p ∈ order, ∀ q ∈ order, p.1.2 = q.1.2 → p = q) :
    ∀ p ∈ insertKey key pageStart order, ∀ q ∈ insertKey key pageStart order,
      p.1.2 = q.1.2 → p = q := by
  intro p hp q hq heq
  rw [mem_insertKey (fresh_of_time hother)] at hp hq
  rcases hp with rfl | hp <;> rcases hq with rfl | hq
  · rfl
  · exact absurd heq.symm (hother q hq)
  · exact absurd heq (hother p hp)
  · exact h p hp q hq heq

end

namespace DecodedTextCache

inductive Call where
  | get (pageStart : ℕ)
  | put (pageStart : ℕ) (text : List UInt8) (decodedRange : ByteRange) (priority : PagePriority)
  | setPriority (pageStart : ℕ) (newPriority : PagePriority)

def call (self : DecodedTextCache) : Call → DecodedTextCache
  | .get pageStart => (self.get pageStart).2
  | .put pageStart text decodedRange priority => self.put pageStart text decodedRange priority
  | .setPriority pageStart newPriority => self.setPriority pageStart newPriority

def run (self : DecodedTextCache) (calls : List Call) : DecodedTextCache := calls.foldl call self

def key (entry : DecodedEntry) : EvictKey := (entry.priority.toNat, entry.accessTime)

def size (entry : DecodedEntry) : ℕ := entry.text.length

structure KeepsBooks (cache : DecodedTextCache) : Prop where
  index : IsIndex EvictKey.lt key cache.order cache.entries
  usedBytes : cache.usedBytes = totalSize size cache.entries
  room : cache.usedBytes ≤ cache.byteCap

/-- A text is put into a cache, unless it is too large, and others are evicted for it. -/
structure Puts (pageStart : ℕ) (text : List UInt8) (decodedRange : ByteRange)
    (priority : PagePriority) (old new : DecodedTextCache) : Prop where
  tooLarge : old.byteCap < text.length → new.entries = old.entries.erase pageStart
  entry : text.length ≤ old.byteCap →
    new.entries.lookup pageStart = some ⟨text, decodedRange, priority, new.accessCounter⟩
  evicted : text.length ≤ old.byteCap → Evicted EvictKey.lt key size text.length old.byteCap
    (old.entries.erase pageStart) (new.entries.erase pageStart)

/-! ## What a cache of decoded text keeps -/

variable {cache : DecodedTextCache} {pageStart : ℕ} {text : List UInt8}

/-- Besides, no two keys have one time, whatever their priorities are. -/
structure Counts (cache : DecodedTextCache) : Prop extends cache.KeepsBooks where
  times : ∀ p ∈ cache.order, p.1.2 ≤ cache.accessCounter
  unique : ∀ p ∈ cache.order, ∀ q ∈ cache.order, p.1.2 = q.1.2 → p = q

theorem Counts.new (byteCap : ℕ) : (DecodedTextCache.new byteCap).Counts :=
  ⟨⟨.empty, rfl, Nat.zero_le _⟩, fun _ h ↦ absurd h List.not_mem_nil,
    fun _ h ↦ absurd h List.not_mem_nil⟩

theorem Counts.remove (h : cache.Counts) (pageStart : ℕ) :
    (cache.remove pageStart).Counts ∧ (cache.remove pageStart).byteCap = cache.byteCap ∧
      (cache.remove pageStart).entries = cache.entries.erase pageStart := by
  rw [DecodedTextCache.remove]
  split
  · next hnone => exact ⟨h, rfl, (erase_entry_of_none hnone).symm⟩
  · next old hlookup =>
    refine ⟨⟨⟨h.index.erase hlookup (h.index.sorted.filter _) mem_removeKey, ?_, ?_⟩,
      fun p hp ↦ ?_, fun p hp q hq ↦ ?_⟩, rfl, rfl⟩
    · exact Nat.sub_eq_of_eq_add' (h.usedBytes.trans (totalSize_eq hlookup))
    · exact (Nat.sub_le _ _).trans h.room
    · exact h.times p ((mem_removeKey p).mp hp).1
    · exact h.unique p ((mem_removeKey p).mp hp).1 q ((mem_removeKey q).mp hq).1

theorem evict_spec {order : List (EvictKey × ℕ)} {entries : AList fun _ : ℕ ↦ DecodedEntry}
    (h : IsIndex EvictKey.lt key order entries) (needed byteCap : ℕ) :
    ∃ order' entries', evict needed byteCap order entries (totalSize size entries) =
        (order', entries', totalSize size entries') ∧ order'.Sublist order ∧
      EvictsTo size needed byteCap order entries order' entries' := by
  induction order generalizing entries with
  | nil =>
    have hempty : entries.entries = [] := by_contra fun hne ↦ h.ne_nil hne rfl
    exact ⟨[], entries, rfl, .refl _, .fits (.inl (AList.ext hempty))⟩
  | cons first order ih =>
    obtain ⟨t, k⟩ := first
    obtain ⟨v, hlookup, -, hrest, -⟩ := h.head
    rw [evict]
    split_ifs with hfull
    · obtain ⟨order', entries', hevict, hsublist, hevicts⟩ := ih hrest
      have hsize : totalSize size entries - v.text.length = totalSize size (entries.erase k) :=
        Nat.sub_eq_of_eq_add' (totalSize_eq hlookup)
      rw [hlookup]
      dsimp only
      rw [hsize]
      exact ⟨order', entries', hevict, hsublist.cons _, .next hfull.2 hevicts⟩
    · refine ⟨_, entries, rfl, .refl _, .fits ?_⟩
      by_cases hempty : entries.entries = []
      · exact .inl (AList.ext hempty)
      · exact .inr (Nat.not_lt.mp fun hlt ↦ hfull ⟨hempty, hlt⟩)

/-- An entry gets a new key, with a time that no other entry has. -/
theorem Counts.rekey (h : cache.Counts) {old new : DecodedEntry} {counter : ℕ}
    (hlookup : cache.entries.lookup pageStart = some old) (hsize : new.text = old.text)
    (hle : cache.accessCounter ≤ counter)
    (htime : new.accessTime = old.accessTime ∨
      cache.accessCounter < new.accessTime ∧ new.accessTime ≤ counter) :
    Counts { cache with
      entries := cache.entries.insert pageStart new
      order := insertKey (key new) pageStart (removeKey (key old) cache.order)
      accessCounter := counter } := by
  have hother : ∀ p ∈ removeKey (key old) cache.order, p.1.2 ≠ new.accessTime := by
    intro p hp heq
    obtain ⟨hp, hne⟩ := (mem_removeKey p).mp hp
    rcases htime with hsame | hlater
    · exact hne (congrArg (·.1) (h.unique p hp _ (h.index.mem hlookup) (heq.trans hsame)))
    · have hpast := h.times p hp
      omega
  have hfresh : ∀ p ∈ removeKey (key old) cache.order, p.1 ≠ key new := fresh_of_time hother
  have hsorted : (removeKey (key old) cache.order).Pairwise fun p q ↦ EvictKey.lt p.1 q.1 :=
    h.index.sorted.filter _
  refine ⟨⟨h.index.rekey hlookup hsorted mem_removeKey (sorted_insertKey hfresh hsorted)
    (mem_insertKey hfresh), ?_, h.room⟩, fun p hp ↦ ?_, unique_insertKey hother ?_⟩
  · exact h.usedBytes.trans (totalSize_rekey hlookup (congrArg List.length hsize))
  · rcases (mem_insertKey hfresh p).mp hp with rfl | hp
    · rcases htime with hsame | hlater
      · exact hsame.trans_le ((h.times _ (h.index.mem hlookup)).trans hle)
      · exact hlater.2
    · exact (h.times p ((mem_removeKey p).mp hp).1).trans hle
  · exact fun p hp q hq ↦ h.unique p ((mem_removeKey p).mp hp).1 q ((mem_removeKey q).mp hq).1

theorem Counts.get (h : cache.Counts) (pageStart : ℕ) : (cache.get pageStart).2.Counts := by
  rw [DecodedTextCache.get]
  split
  · exact h
  · next entry hlookup =>
    exact h.rekey hlookup rfl (Nat.le_succ _) (.inr ⟨Nat.lt_succ_self _, Nat.le_refl _⟩)

theorem Counts.setPriority (h : cache.Counts) (pageStart : ℕ) (newPriority : PagePriority) :
    (cache.setPriority pageStart newPriority).Counts := by
  rw [DecodedTextCache.setPriority]
  split
  · exact h
  · next entry hlookup => exact h.rekey hlookup rfl (Nat.le_refl _) (.inl rfl)

theorem Counts.put (h : cache.Counts) (pageStart : ℕ) (text : List UInt8)
    (decodedRange : ByteRange) (priority : PagePriority) :
    (cache.put pageStart text decodedRange priority).Counts ∧
      Puts pageStart text decodedRange priority cache
        (cache.put pageStart text decodedRange priority) := by
  obtain ⟨hremove, hcap, hentries⟩ := h.remove pageStart
  rw [DecodedTextCache.put]
  dsimp only
  split_ifs with hlarge
  · rw [hcap] at hlarge
    exact ⟨hremove, fun _ ↦ hentries, fun hle ↦ absurd hlarge hle.not_gt,
      fun hle ↦ absurd hlarge hle.not_gt⟩
  · obtain ⟨order, entries, hevict, hsublist, hevicts⟩ :=
      evict_spec hremove.index text.length (cache.remove pageStart).byteCap
    obtain ⟨hindex, hevicted⟩ := hevicts.spec hremove.index
    rw [hremove.usedBytes, hevict]
    rw [hcap] at hevicted hlarge ⊢
    rw [hentries] at hevicted
    have hnone : entries.lookup pageStart = none := by
      rcases hevicted.kept pageStart with hsame | hnone
      · rwa [AList.lookup_erase] at hsame
      · exact hnone
    have htimes : ∀ p ∈ order, p.1.2 ≤ (cache.remove pageStart).accessCounter :=
      fun p hp ↦ hremove.times p (hsublist.subset hp)
    have hother : ∀ p ∈ order, p.1.2 ≠ (cache.remove pageStart).accessCounter + 1 := by
      intro p hp heq
      have hle := htimes p hp
      omega
    have hfresh : ∀ p ∈ order, p.1 ≠
        (priority.toNat, (cache.remove pageStart).accessCounter + 1) := fresh_of_time hother
    have hused : totalSize size entries + text.length =
        totalSize size (entries.insert pageStart ⟨text, decodedRange, priority,
          (cache.remove pageStart).accessCounter + 1⟩) := by
      rw [totalSize_insert hnone, Nat.add_comm]
      rfl
    refine ⟨⟨⟨hindex.insert hnone (sorted_insertKey hfresh hindex.sorted) (mem_insertKey hfresh),
      hused, ?_⟩, fun p hp ↦ ?_, unique_insertKey hother fun p hp q hq ↦ ?_⟩,
      fun hlt ↦ absurd hlt hlarge, fun _ ↦ AList.lookup_insert _, fun _ ↦ ?_⟩
    · dsimp only
      rcases hevicted.room with hempty | hroom
      · rw [hempty]
        exact (Nat.zero_add _).trans_le (Nat.not_lt.mp hlarge)
      · exact hroom
    · rcases (mem_insertKey hfresh p).mp hp with rfl | hp
      · exact Nat.le_refl _
      · exact (htimes p hp).trans (Nat.le_succ _)
    · exact hremove.unique p (hsublist.subset hp) q (hsublist.subset hq)
    · rwa [erase_insert_entry hnone]

theorem Counts.call (h : cache.Counts) (c : Call) : (cache.call c).Counts := by
  cases c with
  | get pageStart => exact h.get pageStart
  | put pageStart text decodedRange priority => exact (h.put pageStart text decodedRange priority).1
  | setPriority pageStart newPriority => exact h.setPriority pageStart newPriority

theorem Counts.run (h : cache.Counts) (calls : List Call) : (cache.run calls).Counts := by
  induction calls generalizing cache with
  | nil => exact h
  | cons c calls ih => exact ih (h.call c)

end DecodedTextCache

end EeEditor.Vlf
