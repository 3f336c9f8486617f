import Mathlib.Logic.Relation
import EeEditor.Vlf.DecodedCache

/-!
# What windowed reads give

A window that is widened to whole characters and decoded is a slice of the file between two
boundaries, as no character has more than four bytes. The cache holds nothing else, whatever is
evicted (`WindowStore.Sound`), so every window that is read is exact. The chunks of a range are
decoded each for itself: they make up the range if and only if no page is cut within a character.
-/

namespace EeEditor.Vlf

/-- A chunk is a slice of the file between two boundaries. -/
structure TextChunk.Exact (file : List UInt8) (chunk : TextChunk) : Prop where
  start_le : chunk.byteRange.start ≤ chunk.byteRange.end_
  end_le : chunk.byteRange.end_ ≤ file.length
  boundary_start : isCharBoundary file chunk.byteRange.start = true
  boundary_end : isCharBoundary file chunk.byteRange.end_ = true
  text_eq : chunk.text = (file.drop chunk.byteRange.start).take chunk.byteRange.len

/-- The chunk holds the range. -/
def TextChunk.Covers (chunk : TextChunk) (range : ByteRange) : Prop :=
  chunk.byteRange.start ≤ range.start ∧ range.end_ ≤ chunk.byteRange.end_

/-! ## The cache -/

/-- The entries are windows of the file. -/
def DecodedTextCache.Exact (file : List UInt8) (cache : DecodedTextCache) : Prop :=
  ∀ k e, cache.entries.lookup k = some e → TextChunk.Exact file ⟨e.text, e.decodedRange⟩

namespace DecodedTextCache.Exact

variable {file : List UInt8} {cache : DecodedTextCache}

theorem new (file : List UInt8) (byteCap : ℕ) : (DecodedTextCache.new byteCap).Exact file :=
  fun _ _ h ↦ by cases h

/-- An entry is replaced by one with the same window, or with a window that is exact. -/
theorem insert {entries : AList fun _ : ℕ ↦ DecodedEntry} {k : ℕ} {e : DecodedEntry}
    (h : ∀ k e, entries.lookup k = some e → TextChunk.Exact file ⟨e.text, e.decodedRange⟩)
    (he : TextChunk.Exact file ⟨e.text, e.decodedRange⟩) (k' : ℕ) (e' : DecodedEntry)
    (hlookup : (entries.insert k e).lookup k' = some e') :
    TextChunk.Exact file ⟨e'.text, e'.decodedRange⟩ := by
  by_cases heq : k' = k
  · subst heq
    rw [AList.lookup_insert] at hlookup
    exact Option.some.inj hlookup ▸ he
  · rw [AList.lookup_insert_ne heq] at hlookup
    exact h k' e' hlookup

theorem lookup_of_erase {entries : AList fun _ : ℕ ↦ DecodedEntry} {k k' : ℕ} {e : DecodedEntry}
    (h : (entries.erase k).lookup k' = some e) : entries.lookup k' = some e := by
  by_cases heq : k' = k
  · rw [heq, AList.lookup_erase] at h
    cases h
  · rwa [AList.lookup_erase_ne heq] at h

theorem get (h : cache.Exact file) (k : ℕ) : (cache.get k).2.Exact file ∧
    ∀ text range, (cache.get k).1 = some (text, range) → TextChunk.Exact file ⟨text, range⟩ := by
  rw [DecodedTextCache.get]
  cases hlookup : cache.entries.lookup k with
  | none => exact ⟨h, fun _ _ hnone ↦ by cases hnone⟩
  | some e => exact ⟨insert h (h k e hlookup), by
      rintro _ _ ⟨⟩
      exact h k e hlookup⟩

theorem remove (h : cache.Exact file) (k : ℕ) : (cache.remove k).Exact file := by
  rw [DecodedTextCache.remove]
  split
  · exact h
  · exact fun k' e' hlookup ↦ h k' e' (lookup_of_erase hlookup)

theorem lookup_of_evict {needed byteCap : ℕ} {order : List (EvictKey × ℕ)}
    {entries : AList fun _ : ℕ ↦ DecodedEntry} {usedBytes k : ℕ} {e : DecodedEntry}
    (h : (evict needed byteCap order entries usedBytes).2.1.lookup k = some e) :
    entries.lookup k = some e := by
  induction order generalizing entries usedBytes with
  | nil => exact h
  | cons first order ih =>
    rw [evict] at h
    split at h
    · split at h
      · exact ih h
      · exact lookup_of_erase (ih h)
    · exact h

theorem put (h : cache.Exact file) (k : ℕ) {text : List UInt8} {range : ByteRange}
    (he : TextChunk.Exact file ⟨text, range⟩) (priority : PagePriority) :
    (cache.put k text range priority).Exact file := by
  have hremove := h.remove k
  rw [DecodedTextCache.put]
  split
  · exact hremove
  · exact insert (fun k' e' hlookup ↦ hremove k' e' (lookup_of_evict hlookup)) he

theorem setPriority (h : cache.Exact file) (k : ℕ) (priority : PagePriority) :
    (cache.setPriority k priority).Exact file := by
  rw [DecodedTextCache.setPriority]
  split
  · exact h
  · next e hlookup => exact insert h (h k e hlookup)

end DecodedTextCache.Exact

/-! ## Seams -/

section

variable {i : ℕ}

theorem walkBack_spec (raw : List UInt8) (hi : i < raw.length) : ∃ j ≤ i, walkBack raw i = some j ∧
    (∀ k, j < k → k ≤ i → ∃ b, raw[k]? = some b ∧ isContinuation b = true) ∧
    (j = 0 ∨ ∃ b, raw[j]? = some b ∧ isContinuation b = false) := by
  induction i with
  | zero => exact ⟨0, le_rfl, rfl, fun k hlt hle ↦ by omega, .inl rfl⟩
  | succ i ih =>
    obtain ⟨j, hj, hwalk, hrun, hend⟩ := ih (by omega)
    rw [walkBack, List.getElem?_eq_getElem hi]
    dsimp only
    split
    · next hcont =>
      refine ⟨j, by omega, hwalk, fun k hlt hle ↦ ?_, hend⟩
      rcases Nat.lt_or_ge k (i + 1) with hk | hk
      · exact hrun k hlt (by omega)
      · obtain rfl : k = i + 1 := by omega
        exact ⟨_, List.getElem?_eq_getElem hi, hcont⟩
    · next hcont =>
      exact ⟨i + 1, le_rfl, rfl, fun k hlt hle ↦ by omega,
        .inr ⟨_, List.getElem?_eq_getElem hi, by simpa using hcont⟩⟩

theorem walkForward_spec (raw : List UInt8) (hi : i ≤ raw.length) :
    i ≤ walkForward raw i ∧ walkForward raw i ≤ raw.length ∧
    (∀ k, i ≤ k → k < walkForward raw i → ∃ b, raw[k]? = some b ∧ isContinuation b = true) ∧
    (walkForward raw i = raw.length ∨
      ∃ b, raw[walkForward raw i]? = some b ∧ isContinuation b = false) := by
  have hsplit : _ ++ _ = raw.drop i := List.takeWhile_append_dropWhile (p := isContinuation)
  have hcont : ∀ b ∈ (raw.drop i).takeWhile isContinuation, isContinuation b = true :=
    List.all_eq_true.mp List.all_takeWhile
  have hhead := List.head?_dropWhile_not isContinuation (raw.drop i)
  rw [walkForward]
  generalize (raw.drop i).takeWhile isContinuation = run at *
  generalize (raw.drop i).dropWhile isContinuation = rest at *
  have hat : ∀ k, raw[i + k]? = (run ++ rest)[k]? := fun k ↦ by rw [hsplit, List.getElem?_drop]
  have hlen := congrArg List.length hsplit
  rw [List.length_append, List.length_drop] at hlen
  refine ⟨Nat.le_add_right _ _, by omega, fun k hle hlt ↦ ?_, ?_⟩
  · obtain ⟨k, rfl⟩ := Nat.exists_eq_add_of_le hle
    have hk : k < run.length := by omega
    exact ⟨run[k], by rw [hat, List.getElem?_append_left hk, List.getElem?_eq_getElem hk],
      hcont _ (List.getElem_mem hk)⟩
  · cases rest with
    | nil =>
      rw [List.length_nil] at hlen
      exact .inl (by omega)
    | cons b rest =>
      refine .inr ⟨b, ?_, by simpa using hhead⟩
      rw [hat, List.getElem?_append_right (Nat.le_refl _), Nat.sub_self]
      rfl

end

section

variable {file : List UInt8} {beg len k : ℕ}

theorem getElem?_window (hk : k < len) : ((file.drop beg).take len)[k]? = file[beg + k]? := by
  rw [List.getElem?_take_of_lt hk, List.getElem?_drop]

theorem isCharBoundary_of_getElem? {i : ℕ}
    (h : ∃ b, file[i]? = some b ∧ isContinuation b = false) : isCharBoundary file i = true :=
  isCharBoundary_iff.mpr (.inr (.inr h))

/-- The start of a window walks back to a boundary. -/
theorem exists_walkBack (beg len : ℕ) (hfile : IsUtf8 file) {start : ℕ} (hlen : start < beg + len)
    (hend : beg + len ≤ file.length) (hbeg : beg = start - utf8SeamSlack) :
    ∃ j, walkBack ((file.drop beg).take len) (start - beg) = some j ∧ beg + j ≤ start ∧
      isCharBoundary file (beg + j) = true := by
  have hraw : ((file.drop beg).take len).length = len := by
    rw [List.length_take, List.length_drop]
    omega
  obtain ⟨j, hj, hwalk, hrun, hstop⟩ :=
    walkBack_spec ((file.drop beg).take len) (i := start - beg) (by omega)
  refine ⟨j, hwalk, by omega, ?_⟩
  rcases hstop with rfl | ⟨b, hb, hnot⟩
  · rcases Nat.eq_zero_or_pos beg with rfl | hpos
    · exact isCharBoundary_zero
    · -- all the slack would be continuation bytes
      have hlong := hfile.run_le (i := beg + 1) (n := utf8SeamSlack)
        (by unfold utf8SeamSlack at *; omega) fun k hk ↦ by
          obtain ⟨b, hb, hcont⟩ := hrun (k + 1) (by omega) (by omega)
          rw [getElem?_window (by omega)] at hb
          exact ⟨b, by rw [← hb]; congr 1; omega, hcont⟩
      exact absurd hlong (by decide)
  · rw [getElem?_window (by omega)] at hb
    exact isCharBoundary_of_getElem? ⟨b, hb, hnot⟩

/-- The end of a window walks forward to a boundary. -/
theorem exists_walkForward (beg len : ℕ) (hfile : IsUtf8 file) {end_ : ℕ} (hle : beg ≤ end_)
    (hend : end_ ≤ file.length) (hlen : beg + len = min (end_ + utf8SeamSlack) file.length) :
    end_ ≤ beg + walkForward ((file.drop beg).take len) (end_ - beg) ∧
      walkForward ((file.drop beg).take len) (end_ - beg) ≤ len ∧
      isCharBoundary file (beg + walkForward ((file.drop beg).take len) (end_ - beg)) = true := by
  have hraw : ((file.drop beg).take len).length = len := by
    rw [List.length_take, List.length_drop]
    omega
  obtain ⟨hge, hle', hrun, hstop⟩ :=
    walkForward_spec ((file.drop beg).take len) (i := end_ - beg) (by omega)
  generalize walkForward ((file.drop beg).take len) (end_ - beg) = j at *
  rw [hraw] at hle' hstop
  refine ⟨by omega, hle', ?_⟩
  rcases hstop with rfl | ⟨b, hb, hnot⟩
  · rcases Nat.lt_or_ge (end_ + utf8SeamSlack) file.length with hlt | hge'
    · have hlong := hfile.run_le (i := end_) (n := utf8SeamSlack) (by omega) fun k hk ↦ by
        obtain ⟨b, hb, hcont⟩ := hrun (end_ - beg + k) (by omega) (by omega)
        rw [getElem?_window (by omega)] at hb
        exact ⟨b, by rw [← hb]; congr 1; omega, hcont⟩
      exact absurd hlong (by decide)
    · rw [hlen, Nat.min_eq_right hge']
      exact isCharBoundary_length
  · have hlt : j < len := by
      have := (List.getElem?_eq_some_iff.mp hb).1
      omega
    rw [getElem?_window hlt] at hb
    exact isCharBoundary_of_getElem? ⟨b, hb, hnot⟩

/-- What is decoded of a window is a slice of the file. -/
theorem exact_of_window (hfile : IsUtf8 file) {i j : ℕ} (hij : i ≤ j) (hj : j ≤ len)
    (hend : beg + len ≤ file.length) (hi' : isCharBoundary file (beg + i) = true)
    (hj' : isCharBoundary file (beg + j) = true) :
    TextChunk.Exact file ⟨fromUtf8Lossy ((((file.drop beg).take len).take j).drop i),
      ⟨beg + i, beg + j⟩⟩ := by
  have hslice : (((file.drop beg).take len).take j).drop i
      = (file.drop (beg + i)).take (beg + j - (beg + i)) := by
    rw [List.take_take, Nat.min_eq_left hj, List.drop_take, List.drop_drop, Nat.add_sub_add_left]
  refine ⟨Nat.add_le_add_left hij _, by dsimp only; omega, hi', hj', ?_⟩
  rw [hslice, fromUtf8Lossy_eq_self (hfile.slice (by omega) (by omega) hi' hj')]
  rfl

end

theorem readAt_eq {file raw : List UInt8} {maxReadSize : ℕ} {reads : Reader} {range : ByteRange}
    (h : readAt file maxReadSize reads range = some raw) :
    raw = (file.drop range.start).take range.len := by
  rw [readAt] at h
  split_ifs at h with _ hlen
  · rw [hlen]
    exact (Option.some.inj h).symm
  · exact (Option.some.inj h).symm

theorem readAt_of_le {file : List UInt8} {maxReadSize : ℕ} {reads : Reader} {range : ByteRange}
    (hreads : reads range.start range.end_ = true) (hlen : range.len ≤ maxReadSize)
    (hend : range.end_ ≤ file.length) :
    readAt file maxReadSize reads range = some ((file.drop range.start).take range.len) := by
  rw [readAt, hreads, if_neg (by simp), if_neg (show ¬ range.len > maxReadSize by omega),
    if_neg (show ¬ range.end_ > file.length by omega)]
  split
  · next hempty =>
    rw [hempty]
    rfl
  · rfl

/-! ## Windows -/

namespace WindowStore

/-- The store reads the file, and its cache holds windows of it. -/
structure Sound (file : List UInt8) (pageSize : ℕ) (s : WindowStore) : Prop where
  file_eq : s.file = file
  pageSize_eq : s.pageSize = pageSize
  cache : s.decodedCache.Exact file

variable {file : List UInt8} {pageSize : ℕ} {s s' : WindowStore} {range : ByteRange}

theorem Sound.setViewport (h : s.Sound file pageSize) (start end_ : ℕ) :
    (s.setViewport start end_).Sound file pageSize := by
  refine ⟨h.file_eq, h.pageSize_eq, ?_⟩
  rw [WindowStore.setViewport]
  refine List.foldlRecOn (motive := fun cache ↦ DecodedTextCache.Exact file cache) _ _ h.cache
    fun cache hcache key _ ↦ ?_
  split
  · exact hcache
  · exact hcache.setPriority key _

theorem readSeam_spec (hfile : IsUtf8 file) (hs : s.Sound file pageSize) (reads : Reader)
    (hlt : range.start < range.end_) (hle : range.end_ ≤ file.length) :
    ∃ chunk s', s.readSeam reads range = some (chunk, s') ∧ s'.Sound file pageSize ∧
      ∀ c, chunk = some c → c.Covers range ∧ c.Exact file := by
  rw [readSeam, hs.file_eq]
  cases hread : readAt file s.maxReadSize reads
      ⟨range.start - utf8SeamSlack, min (range.end_ + utf8SeamSlack) file.length⟩ with
  | none => exact ⟨none, s, rfl, hs, fun _ h ↦ by cases h⟩
  | some raw =>
    obtain rfl := readAt_eq hread
    dsimp only [ByteRange.len]
    have hwindow : range.end_ ≤ min (range.end_ + utf8SeamSlack) file.length :=
      le_min (Nat.le_add_right _ _) hle
    have hinside : min (range.end_ + utf8SeamSlack) file.length ≤ file.length :=
      Nat.min_le_right _ _
    generalize hbeg : range.start - utf8SeamSlack = beg
    generalize hlen : min (range.end_ + utf8SeamSlack) file.length - beg = len
    have hsum : beg + len = min (range.end_ + utf8SeamSlack) file.length := by omega
    have hraw : ((file.drop beg).take len).length = len := by
      rw [List.length_take, List.length_drop]
      omega
    obtain ⟨i, hwalk, hi, hiBound⟩ :=
      exists_walkBack beg len hfile (by omega) (by omega) hbeg.symm
    obtain ⟨hj, hjLen, hjBound⟩ :=
      exists_walkForward beg len hfile (by omega) hle hsum
    rw [hwalk, hraw, Nat.min_eq_left (show range.end_ - beg ≤ len by omega)]
    generalize walkForward ((file.drop beg).take len) (range.end_ - beg) = j at *
    have hij : i ≤ j := by omega
    have hexact := exact_of_window hfile hij hjLen (by omega) hiBound hjBound
    dsimp only
    rw [if_pos ⟨hij, hjLen⟩]
    refine ⟨_, _, rfl, ⟨rfl, hs.pageSize_eq, hs.cache.put _ hexact _⟩, ?_⟩
    rintro c ⟨⟩
    exact ⟨⟨hi, hj⟩, hexact⟩

theorem readWithSeam_spec (hfile : IsUtf8 file) (hs : s.Sound file pageSize) (reads : Reader)
    (hlt : range.start < range.end_) (hle : range.end_ ≤ file.length) :
    ∃ chunk s', s.readWithSeam reads range = some (chunk, s') ∧ s'.Sound file pageSize ∧
      ∀ c, chunk = some c → c.Covers range ∧ c.Exact file := by
  obtain ⟨hcache, hhit⟩ := hs.cache.get range.start
  rw [readWithSeam]
  split
  · next text decodedRange cache hget =>
    rw [hget] at hcache hhit
    have hs' : Sound file pageSize { s with decodedCache := cache } :=
      ⟨hs.file_eq, hs.pageSize_eq, hcache⟩
    dsimp only
    split
    · next hcovers =>
      refine ⟨_, _, rfl, hs', ?_⟩
      rintro c ⟨⟩
      exact ⟨hcovers, hhit _ _ rfl⟩
    · exact readSeam_spec hfile hs' reads hlt hle
  · exact readSeam_spec hfile hs reads hlt hle

/-- A read of a range that is not empty gives a window, and an empty one is given back. -/
theorem readByteRange_spec (hfile : IsUtf8 file) (hs : s.Sound file pageSize) (reads : Reader)
    (error : ReadError) (range : ByteRange) :
    ∃ result s', s.readByteRange reads error range = some (result, s') ∧ s'.Sound file pageSize ∧
      ∀ c, result = .ready c → if range.start < range.end_ then c.Covers range ∧ c.Exact file
        else c = ⟨[], range⟩ := by
  rw [readByteRange, hs.file_eq]
  split
  · exact ⟨_, s, rfl, hs, fun c h ↦ by cases h⟩
  · split
    · next hempty =>
      refine ⟨_, s, rfl, hs, ?_⟩
      rintro c ⟨⟩
      rw [if_neg (by omega)]
    · next hrange hlt =>
      obtain ⟨chunk, s', hread, hs', hchunk⟩ :=
        readWithSeam_spec hfile hs reads (show range.start < range.end_ by omega) (by omega)
      rw [hread, Option.map_some]
      cases chunk with
      | none => exact ⟨_, s', rfl, hs', fun c h ↦ by cases error <;> cases h⟩
      | some chunk =>
        refine ⟨_, s', rfl, hs', ?_⟩
        rintro c ⟨⟩
        rw [if_pos (by omega)]
        exact hchunk _ rfl

end WindowStore

/-! ## Chunks -/

/-- The chunks of a range. -/
def windowChunks (file : List UInt8) (pageSize end_ : ℕ) : ℕ → ℕ → List TextChunk
  | 0, _ => []
  | fuel + 1, pos =>
    if pos < end_ then
      let chunkEnd := min (pos + pageSize) end_
      ⟨fromUtf8Lossy ((file.drop pos).take (chunkEnd - pos)), ⟨pos, chunkEnd⟩⟩ ::
        windowChunks file pageSize end_ fuel chunkEnd
    else []

/-- The text of chunks. -/
def chunksText (chunks : List TextChunk) : List UInt8 := chunks.flatMap (·.text)

/-- No page of the range is cut within a character. -/
def CutsAligned (file : List UInt8) (pageSize start end_ : ℕ) : Prop :=
  ∀ i, start + i * pageSize < end_ → isCharBoundary file (start + i * pageSize) = true

section

variable {file : List UInt8} {pageSize pos end_ fuel : ℕ}

theorem cutsAligned_iff (hlt : pos < end_) : CutsAligned file pageSize pos end_ ↔
    isCharBoundary file pos = true ∧
      CutsAligned file pageSize (min (pos + pageSize) end_) end_ := by
  constructor
  · refine fun h ↦ ⟨by simpa using h 0 (by omega), fun i hi ↦ ?_⟩
    rcases Nat.lt_or_ge (pos + pageSize) end_ with hin | hout
    · rw [Nat.min_eq_left hin.le] at hi ⊢
      have hnext := h (i + 1) (by rw [Nat.succ_mul]; omega)
      rwa [Nat.succ_mul, Nat.add_comm (i * pageSize), ← Nat.add_assoc] at hnext
    · rw [Nat.min_eq_right hout] at hi
      omega
  · rintro ⟨hpos, h⟩ i hi
    cases i with
    | zero => simpa using hpos
    | succ i =>
      rw [Nat.succ_mul] at hi ⊢
      have hnext := h i
      rw [Nat.min_eq_left (by omega)] at hnext
      rw [Nat.add_comm (i * pageSize), ← Nat.add_assoc]
      exact hnext (by omega)

theorem slice_split {chunkEnd : ℕ} (hle : pos ≤ chunkEnd) (hend : chunkEnd ≤ end_) :
    (file.drop pos).take (end_ - pos)
      = (file.drop pos).take (chunkEnd - pos) ++ (file.drop chunkEnd).take (end_ - chunkEnd) := by
  rw [show end_ - pos = chunkEnd - pos + (end_ - chunkEnd) by omega, List.take_add, List.drop_drop,
    Nat.add_sub_cancel' hle]

/-- Where no page is cut within a character, the chunks make up the range. -/
theorem chunksText_of_cutsAligned (hfile : IsUtf8 file) (hp : 0 < pageSize)
    (hend : end_ ≤ file.length) (hbound : isCharBoundary file end_ = true)
    (hfuel : end_ - pos ≤ fuel) (hle : pos ≤ end_) (h : CutsAligned file pageSize pos end_) :
    chunksText (windowChunks file pageSize end_ fuel pos) = (file.drop pos).take (end_ - pos) := by
  induction fuel generalizing pos with
  | zero => rw [windowChunks, show end_ - pos = 0 by omega, List.take_zero]; rfl
  | succ fuel ih =>
    rw [windowChunks]
    split
    · next hlt =>
      obtain ⟨hpos, hnext⟩ := (cutsAligned_iff hlt).mp h
      have hchunk : isCharBoundary file (min (pos + pageSize) end_) = true := by
        rcases Nat.lt_or_ge (min (pos + pageSize) end_) end_ with hin | hout
        · simpa using hnext 0 (by omega)
        · rwa [show min (pos + pageSize) end_ = end_ by omega]
      rw [chunksText, List.flatMap_cons, fromUtf8Lossy_eq_self
        (hfile.slice (by omega) (by omega) hpos hchunk), slice_split (by omega)
          (Nat.min_le_right (pos + pageSize) end_), ← ih (by omega) (by omega) hnext]
      rfl
    · rw [show end_ - pos = 0 by omega, List.take_zero]
      rfl

/-- The chunks have no fewer characters than the range, and more if a page is cut within one. -/
theorem countChars_windowChunks (hfile : IsUtf8 file) (hp : 0 < pageSize)
    (hend : end_ ≤ file.length) (hfuel : end_ - pos ≤ fuel) :
    let text := chunksText (windowChunks file pageSize end_ fuel pos)
    countChars ((file.drop pos).take (end_ - pos)) ≤ countChars text ∧
      (countChars text = countChars ((file.drop pos).take (end_ - pos)) →
        CutsAligned file pageSize pos end_) := by
  induction fuel generalizing pos with
  | zero =>
    rw [show end_ - pos = 0 by omega, List.take_zero]
    exact ⟨Nat.zero_le _, fun _ i hi ↦ by omega⟩
  | succ fuel ih =>
    rcases Nat.lt_or_ge pos end_ with hlt | hge
    · obtain ⟨hle, hcuts⟩ := @ih (min (pos + pageSize) end_) (by omega)
      have hchunk := hfile.countChars_lossy_slice pos (min (pos + pageSize) end_ - pos)
      rw [slice_split (by omega) (Nat.min_le_right (pos + pageSize) end_), windowChunks, if_pos hlt]
      dsimp only [chunksText] at hle hcuts ⊢
      rw [List.flatMap_cons, countChars_append, countChars_append, hchunk]
      refine ⟨by omega, fun heq ↦ (cutsAligned_iff hlt).mpr ⟨?_, hcuts (by omega)⟩⟩
      have hnone : (((file.drop pos).takeWhile isContinuation).take
          (min (pos + pageSize) end_ - pos)).length = 0 := by omega
      rw [List.length_take] at hnone
      have hhead : (file.drop pos).takeWhile isContinuation = [] :=
        List.length_eq_zero_iff.mp (by omega)
      have hpos : pos < file.length := by omega
      rw [List.drop_eq_getElem_cons hpos, List.takeWhile_cons] at hhead
      refine isCharBoundary_of_getElem? ⟨_, List.getElem?_eq_getElem hpos, ?_⟩
      by_contra hcont
      rw [Bool.not_eq_false] at hcont
      rw [if_pos hcont] at hhead
      cases hhead
    · rw [show end_ - pos = 0 by omega, List.take_zero]
      exact ⟨Nat.zero_le _, fun _ i hi ↦ by omega⟩

end

namespace WindowStore

variable {file : List UInt8} {pageSize pos end_ fuel : ℕ} {s s' : WindowStore}

theorem map_ready_injective : Function.Injective (List.map TextChunkResult.ready) :=
  List.map_injective_iff.mpr fun _ _ h ↦ TextChunkResult.ready.inj h

/-- The loop ends, and where it reads every chunk it gives the chunks of the range. -/
theorem chunksFrom_spec (hs : s.Sound file pageSize) (hp : 0 < pageSize) (hend : end_ ≤ file.length)
    (reads : Reader) (error : ReadError) (stale : ℕ → Bool) (pos : ℕ) (hfuel : end_ - pos ≤ fuel) :
    ∃ results, s.chunksFrom reads error stale end_ fuel pos = some results ∧
      ((∃ chunks : List TextChunk, results = chunks.map .ready) ∨
          (∀ beg end_, reads beg end_ = true) ∧
            (∀ pos, stale pos = false) →
        results = (windowChunks file pageSize end_ fuel pos).map .ready) := by
  induction fuel generalizing pos with
  | zero =>
    rw [chunksFrom, if_neg (by omega)]
    exact ⟨[], rfl, fun _ ↦ rfl⟩
  | succ fuel ih =>
    rw [chunksFrom, windowChunks]
    split_ifs with hlt hstale
    · refine ⟨_, rfl, ?_⟩
      rintro (⟨chunks, hchunks⟩ | ⟨-, hnever⟩)
      · cases chunks <;> cases hchunks
      · rw [hnever] at hstale
        cases hstale
    · rw [hs.pageSize_eq, hs.file_eq,
        Nat.min_eq_left (show min (pos + pageSize) end_ ≤ file.length by
        omega)]
      obtain ⟨results, hrest, heq⟩ := @ih (min (pos + pageSize) end_) (by omega)
      dsimp only
      cases hread : readAt file s.maxReadSize reads ⟨pos, min (pos + pageSize) end_⟩ with
      | none =>
        refine ⟨_, rfl, ?_⟩
        rintro (⟨chunks, hchunks⟩ | ⟨hreads, -⟩)
        · cases chunks with
          | nil => cases hchunks
          | cons chunk chunks => cases error <;> cases hchunks
        · have hlen : ByteRange.len ⟨pos, min (pos + pageSize) end_⟩ ≤ s.maxReadSize := by
            rw [ByteRange.len, WindowStore.maxReadSize, hs.pageSize_eq]
            dsimp only
            omega
          have hinside : min (pos + pageSize) end_ ≤ file.length := by omega
          rw [Option.eq_none_iff_forall_ne_some] at hread
          exact absurd (readAt_of_le (hreads _ _) hlen hinside) (hread _)
      | some bytes =>
        obtain rfl := readAt_eq hread
        dsimp only
        rw [hrest, Option.map_some]
        refine ⟨_, rfl, fun h ↦ ?_⟩
        rw [List.map_cons, heq]
        · rfl
        · refine h.imp_left ?_
          rintro ⟨chunks, hchunks⟩
          cases chunks with
          | nil => cases hchunks
          | cons chunk chunks => exact ⟨chunks, (List.cons.inj hchunks).2⟩
    · exact ⟨[], rfl, fun _ ↦ rfl⟩

/-- With pages of no bytes the loop does not end. -/
theorem chunksFrom_zero (hs : s.Sound file 0) (hend : end_ ≤ file.length) (error : ReadError)
    (hlt : pos < end_) (fuel : ℕ) :
    s.chunksFrom (fun _ _ ↦ true) error (fun _ ↦ false) end_ fuel pos = none := by
  induction fuel with
  | zero => rw [chunksFrom, if_pos hlt]
  | succ fuel ih =>
    rw [chunksFrom, if_pos hlt, hs.pageSize_eq, hs.file_eq, Nat.add_zero, Nat.min_eq_left hlt.le,
      Nat.min_eq_left (by omega)]
    have hread : readAt file s.maxReadSize (fun _ _ ↦ true) ⟨pos, pos⟩ = some [] :=
      if_pos (Nat.sub_self pos)
    dsimp only
    rw [if_neg Bool.false_ne_true, hread]
    exact congrArg (Option.map _) ih

end WindowStore

/-! ## Runs -/

/-- A call of a store without an overlay. -/
inductive WindowCall where
  | readByteRange (range : ByteRange)
  | iterChunks (range : ByteRange)

/-- The range is in the file, and that of chunks between boundaries. -/
def WindowCall.InRange (file : List UInt8) : WindowCall → Prop
  | readByteRange range => range.start ≤ range.end_ ∧ range.end_ ≤ file.length
  | iterChunks range => range.start ≤ range.end_ ∧ range.end_ ≤ file.length ∧
      isCharBoundary file range.start = true ∧ isCharBoundary file range.end_ = true

/-- The calls that give the text of the file: an empty range is between boundaries, and no page of
chunks is cut within a character. -/
def WindowCall.Fits (file : List UInt8) (pageSize : ℕ) : WindowCall → Prop
  | readByteRange range => range.start = range.end_ → isCharBoundary file range.start = true
  | iterChunks range => range.start < range.end_ →
      0 < pageSize ∧ CutsAligned file pageSize range.start range.end_

namespace WindowStore

/-- A call changes the store, if at all, through its cache and its window. -/
inductive Step : WindowStore → WindowStore → Prop where
  | readByteRange {s s' : WindowStore} {result : TextChunkResult} (reads : Reader)
      (error : ReadError) (range : ByteRange)
      (h : s.readByteRange reads error range = some (result, s')) : Step s s'
  | setViewport (s : WindowStore) (start end_ : ℕ) : Step s (s.setViewport start end_)
  | setBatchSize (s : WindowStore) (batchSize : ℕ) : Step s (s.setBatchSize batchSize)

abbrev Reaches : WindowStore → WindowStore → Prop := Relation.ReflTransGen Step

/-- A call does not panic and ends, whichever reads succeed, and what it gives is the text of the
file. -/
def Upholds (s : WindowStore) : WindowCall → Prop
  | .readByteRange range => ∀ reads error, ∃ result s',
      s.readByteRange reads error range = some (result, s') ∧
        ∀ chunk, result = .ready chunk → chunk.Covers range ∧ chunk.Exact s.file
  | .iterChunks range => ∀ reads error stale, ∃ results,
      s.iterChunks reads error stale range = some results ∧
        ∀ chunks, results = chunks.map .ready →
          chunksText chunks = (s.file.drop range.start).take range.len

variable {file : List UInt8} {pageSize : ℕ} {s s' : WindowStore} {range : ByteRange}

theorem Sound.step (hfile : IsUtf8 file) (hs : s.Sound file pageSize) (h : Step s s') :
    s'.Sound file pageSize := by
  cases h with
  | readByteRange reads error range h =>
    obtain ⟨result, s'', hread, hs', -⟩ := readByteRange_spec hfile hs reads error range
    rw [h] at hread
    obtain ⟨-, rfl⟩ := Prod.mk.inj (Option.some.inj hread)
    exact hs'
  | setViewport start end_ => exact hs.setViewport start end_
  | setBatchSize batchSize => exact ⟨hs.file_eq, hs.pageSize_eq, hs.cache⟩

theorem Sound.of_reaches (hfile : IsUtf8 file) {byteCap batchSize : ℕ}
    (h : Reaches (new file pageSize byteCap batchSize) s) : s.Sound file pageSize := by
  induction h with
  | refl => exact ⟨rfl, rfl, .new file byteCap⟩
  | tail _ hstep ih => exact ih.step hfile hstep

theorem Sound.upholds_readByteRange_iff (hfile : IsUtf8 file) (hs : s.Sound file pageSize)
    (hin : WindowCall.InRange file (.readByteRange range)) :
    s.Upholds (.readByteRange range) ↔ WindowCall.Fits file pageSize (.readByteRange range) := by
  obtain ⟨hle, hend⟩ := hin
  constructor
  · intro h hempty
    obtain ⟨result, s', hread, hready⟩ := h (fun _ _ ↦ true) .failed
    rw [WindowStore.readByteRange, hs.file_eq, if_neg (by omega), if_pos hempty.ge] at hread
    obtain ⟨rfl, -⟩ := Prod.mk.inj (Option.some.inj hread)
    exact hs.file_eq ▸ (hready _ rfl).2.boundary_start
  · intro h reads error
    obtain ⟨result, s', hread, -, hready⟩ := readByteRange_spec hfile hs reads error range
    refine ⟨result, s', hread, fun chunk hchunk ↦ ?_⟩
    have hc := hready chunk hchunk
    split at hc
    · rwa [hs.file_eq]
    · subst hc
      have hempty : range.start = range.end_ := by omega
      refine ⟨⟨le_rfl, le_rfl⟩, hle, hs.file_eq ▸ hend, hs.file_eq ▸ h hempty, ?_, ?_⟩
      · exact hs.file_eq ▸ hempty ▸ h hempty
      · show [] = List.take (range.end_ - range.start) _
        rw [hempty, Nat.sub_self, List.take_zero]

theorem Sound.upholds_iterChunks_iff (hfile : IsUtf8 file) (hs : s.Sound file pageSize)
    (hin : WindowCall.InRange file (.iterChunks range)) :
    s.Upholds (.iterChunks range) ↔ WindowCall.Fits file pageSize (.iterChunks range) := by
  obtain ⟨hle, hend, -, hbound⟩ := hin
  have hiter : ∀ reads error stale, s.iterChunks reads error stale range
      = s.chunksFrom reads error stale range.end_ range.len range.start := fun _ _ _ ↦ by
    rw [WindowStore.iterChunks, hs.file_eq, if_neg (by omega)]
  constructor
  · intro h hlt
    obtain ⟨results, hresults, htext⟩ := h (fun _ _ ↦ true) .failed (fun _ ↦ false)
    rw [hiter] at hresults
    rcases Nat.eq_zero_or_pos pageSize with rfl | hp
    · rw [chunksFrom_zero hs hend _ hlt] at hresults
      cases hresults
    · obtain ⟨_, hfrom, heq⟩ := chunksFrom_spec hs hp hend (fun _ _ ↦ true) .failed
        (fun _ ↦ false) range.start (Nat.le_refl _)
      rw [ByteRange.len, hfrom] at hresults
      obtain rfl := Option.some.inj hresults
      have hsame := htext _ (heq (.inr ⟨fun _ _ ↦ rfl, fun _ ↦ rfl⟩))
      rw [hs.file_eq] at hsame
      exact ⟨hp, (countChars_windowChunks hfile hp hend (Nat.le_refl _)).2
        (congrArg countChars hsame)⟩
  · intro h reads error stale
    rcases Nat.lt_or_ge range.start range.end_ with hlt | hge
    · obtain ⟨hp, hcuts⟩ := h hlt
      obtain ⟨results, hfrom, heq⟩ := chunksFrom_spec hs hp hend reads error stale
        range.start (Nat.le_refl _)
      refine ⟨results, (hiter _ _ _).trans hfrom, fun chunks hchunks ↦ ?_⟩
      have hsame := hchunks.symm.trans (heq (.inl ⟨chunks, hchunks⟩))
      rw [map_ready_injective hsame, hs.file_eq]
      exact chunksText_of_cutsAligned hfile hp hend hbound (Nat.le_refl _) hle hcuts
    · have hnone : range.len = 0 := by rw [ByteRange.len]; omega
      refine ⟨[], ?_, fun chunks hchunks ↦ ?_⟩
      · rw [hiter, hnone, chunksFrom, if_neg (by omega)]
      · rw [List.map_eq_nil_iff.mp hchunks.symm, hnone, List.take_zero]
        rfl

/-- In every state that calls lead to, a call in the file gives the text of the file if and only if
it fits. -/
theorem upholds_iff {byteCap batchSize : ℕ} {c : WindowCall} (hfile : IsUtf8 file)
    (hs : Reaches (new file pageSize byteCap batchSize) s) (hin : c.InRange file) :
    s.Upholds c ↔ c.Fits file pageSize := by
  have hsound := Sound.of_reaches hfile hs
  cases c with
  | readByteRange range => exact hsound.upholds_readByteRange_iff hfile hin
  | iterChunks range => exact hsound.upholds_iterChunks_iff hfile hin

/-- A read of half a character, after the window has moved. -/
theorem upholds_half : ((new [0x61, 0xC3, 0xA9] 4 64 16).setViewport 0 3).Upholds
    (.readByteRange ⟨2, 3⟩) :=
  (upholds_iff (c := .readByteRange ⟨2, 3⟩) ⟨['a', 'é'], by decide⟩
    (.single (.setViewport _ 0 3)) ⟨by decide, by decide⟩).mpr fun h ↦ absurd h (by decide)

/-- With pages of one byte, the chunks of a character of two bytes are two replacement
characters. -/
theorem iterChunks_cuts : IsUtf8 [0xC3, 0xA9] ∧
    WindowCall.InRange [0xC3, 0xA9] (.iterChunks ⟨0, 2⟩) ∧
    ¬ (new [0xC3, 0xA9] 1 64 16).Upholds (.iterChunks ⟨0, 2⟩) := by
  refine ⟨⟨['é'], by decide⟩, ⟨by decide, by decide, by decide, by decide⟩, fun h ↦ ?_⟩
  obtain ⟨results, hresults, htext⟩ := h (fun _ _ ↦ true) .failed (fun _ ↦ false)
  have hchunks : (new [0xC3, 0xA9] 1 64 16).iterChunks (fun _ _ ↦ true) .failed (fun _ ↦ false)
      ⟨0, 2⟩ = some ([⟨replacementChar, ⟨0, 1⟩⟩, ⟨replacementChar, ⟨1, 2⟩⟩].map .ready) := by decide
  rw [hchunks] at hresults
  exact absurd (htext _ (Option.some.inj hresults).symm) (by decide)

end WindowStore

end EeEditor.Vlf
