import EeEditor.Plugin.Mirror

/-!
# The answers of the chunk cache

Every query of a cache that mirrors the document is answered as on the whole document, or with an
error of the peer, and leaves a cache that mirrors the document. The fetch loops end because every
round brings the end of the chunk closer to the end of the document.
-/

namespace EeEditor.Plugin

/-- When `ok` holds there is a result, and every result satisfies `P`. -/
def Returns {β : Type} (ok : Prop) (x : Option β) (P : β → Prop) : Prop :=
  (ok → x ≠ none) ∧ ∀ b, x = some b → P b

section

variable {β : Type} {ok ok' : Prop} {x : Option β} {P : β → Prop} {b : β}

theorem Returns.some (h : P b) : Returns ok (some b) P :=
  ⟨fun _ ↦ Option.some_ne_none b, fun _ hb ↦ Option.some.inj hb ▸ h⟩

theorem Returns.none (h : ¬ok) : Returns ok (none : Option β) P :=
  ⟨fun hok ↦ absurd hok h, fun _ hb ↦ absurd hb (by simp)⟩

theorem Returns.mono (h : Returns ok x P) (himp : ok' → ok) : Returns ok' x P :=
  ⟨fun hok ↦ h.1 (himp hok), h.2⟩

end

/-- The text of line `n`, with the newline that ends it. -/
def lineText (doc : List UInt8) (n : ℕ) : List UInt8 :=
  match lineStart doc n, lineStart doc (n + 1) with
  | some s, some t => (doc.drop s).take (t - s)
  | _, _ => []

/-- The answer is `expected`, or an error that the peer reports. -/
def Answers {β : Type} (source : DataSource) (rev : ℕ) (expected answer : Except Error β) : Prop :=
  answer = expected ∨
    ∃ start unit err, source start unit chunkSize rev = .error err ∧ answer = .error err

namespace ChunkCache

variable {c : ChunkCache} {doc : List UInt8} {rev : ℕ} {source : DataSource}

/-- What a query leaves behind: the expected answer, and a mirror of the document. -/
def Settled {β : Type} (source : DataSource) (doc : List UInt8) (rev : ℕ)
    (expected : Except Error β) (b : Except Error β × ChunkCache) : Prop :=
  Answers source rev expected b.1 ∧ b.2.Mirrors doc rev

section

variable {β : Type} {expected : Except Error β} {start : ℕ} {unit : TextUnit} {err : Error}

theorem settled_expected (h : c.Mirrors doc rev) : Settled source doc rev expected (expected, c) :=
  ⟨.inl rfl, h⟩

theorem settled_error (h : c.Mirrors doc rev)
    (herr : source start unit chunkSize c.rev = .error err) :
    Settled source doc rev expected (.error err, c) :=
  ⟨.inr ⟨start, unit, err, h.rev_eq ▸ herr, rfl⟩, h⟩

end

/-- Giving up what comes before `i`, as the fetch loops do. -/
theorem Mirrors.clearUpTo_if (h : c.Mirrors doc rev) {i : ℕ} (hi : i ≤ c.contents.length)
    (hb : isCharBoundary doc (c.offset + i) = true) :
    ∃ c', (if i ≠ 0 then c.clearUpTo i else some (.ok c)) = some (.ok c') ∧ c'.Mirrors doc rev ∧
      c'.offset = c.offset + i ∧
      c'.offset + c'.contents.length = c.offset + c.contents.length := by
  by_cases h0 : i = 0
  · exact ⟨c, by rw [if_neg (not_not.mpr h0)], h, by omega, rfl⟩
  · rw [if_pos h0]
    exact h.clearUpTo hi hb

theorem length_appendChunk (resp : GetDataResponse) :
    (c.appendChunk resp).contents.length = c.contents.length + resp.chunk.length :=
  List.length_append

/-- Before the end of the document, a round of a fetch loop makes progress. -/
theorem appendChunk_lt {resp : GetDataResponse}
    (hr : resp.IsHonest doc (c.offset + c.contents.length) .utf8)
    (hlt : c.offset + c.contents.length < doc.length) :
    c.offset + c.contents.length
      < (c.appendChunk resp).offset + (c.appendChunk resp).contents.length := by
  have hoff : resp.offset = c.offset + c.contents.length := Option.some.inj hr.offset_eq
  have hpos := List.length_pos_of_ne_nil (hr.chunk_ne_nil (hoff ▸ hlt))
  rw [length_appendChunk]
  change _ < c.offset + _
  omega

/-! ## Lines -/

theorem getLineLoop_returns (hdoc : IsUtf8 doc) (hsource : source.Honest doc rev) {lineNum : ℕ}
    (hn : lineNum < lineCount doc) (fuel : ℕ) (c : ChunkCache) (startOff : ℕ)
    (h : c.Mirrors doc rev) (hstart : startOff ≤ c.contents.length)
    (hline : lineStart doc lineNum = some (c.offset + startOff)) :
    Returns (doc.length - (c.offset + c.contents.length) < fuel)
      (getLineLoop source lineNum fuel c startOff)
      (Settled source doc rev (.ok (lineText doc lineNum))) := by
  induction fuel generalizing c startOff with
  | zero => exact .none (Nat.not_lt_zero _)
  | succ fuel ih =>
    obtain ⟨endOff, hend⟩ := exists_lineStart (Nat.succ_le_of_lt hn)
    have hle := lineStart_mono hline hend (Nat.le_succ lineNum)
    have hfirst : c.firstLine ≤ lineNum := by
      rw [lineStart_of_lt hn] at hline
      rw [h.isChunk.firstLine_eq, ← rank_select hline]
      exact rank_mono (Nat.le_add_right _ _)
    rw [getLineLoop]
    cases hc : c.cachedOffsetOfLine (lineNum + 1) with
    | none => exact absurd hc (h.cached_ne_none _)
    | some r =>
      cases r with
      | some off =>
        -- the end of the line is in the chunk
        obtain ⟨hoff, hin⟩ := h.lineStart_of_cached hc
        obtain rfl : endOff = off := Option.some.inj (hend.symm.trans hoff)
        obtain ⟨-, hlen⟩ := hin (by omega)
        obtain ⟨e, rfl⟩ := Nat.exists_eq_add_of_le (show c.offset ≤ endOff by omega)
        have hslice := h.isChunk.sliceStr_eq (i := startOff) (j := e) (by omega) (by omega)
          (isCharBoundary_lineStart hdoc hline) (isCharBoundary_lineStart hdoc hend)
        have htext : lineText doc lineNum
            = (doc.drop (c.offset + startOff)).take (e - startOff) := by
          rw [lineText, hline, hend]
          dsimp only
          rw [Nat.add_sub_add_left]
        simp only [Option.bind_eq_bind, Option.bind_some, checkedSub, Nat.le_add_right, if_true,
          Nat.add_sub_cancel_left, hslice, ← htext]
        exact .some (settled_expected h)
      | none =>
        have hlt : c.offset + c.contents.length < doc.length := by
          have hlt : c.offset + c.contents.length < endOff := by
            by_contra hge
            rw [h.cached_of_lineStart (by omega) hend (not_lt.mp hge)] at hc
            cases hc
          exact hlt.trans_le (lineStart_le_length hend)
        obtain ⟨c', hclear, h', hoff', hend'⟩ :=
          h.clearUpTo_if hstart (isCharBoundary_lineStart hdoc hline)
        simp only [Option.bind_eq_bind, Option.bind_some, hclear]
        split
        · next err herr => exact .some (settled_error h' herr)
        · next resp hresp =>
          have hr := hsource _ _ _ _ (h'.rev_eq ▸ hresp)
          have hprogress := appendChunk_lt hr (hend'.symm ▸ hlt)
          refine (ih _ 0 (h'.appendChunk hr) (Nat.zero_le _) ?_).mono fun hfuel ↦ by omega
          rw [hline]
          exact congrArg some hoff'.symm

/-- The chunk holds the start of the line. -/
theorem cachedLine_returns (hdoc : IsUtf8 doc) (hsource : source.Honest doc rev)
    (h : c.Mirrors doc rev) {fuel lineNum s : ℕ} (hn : lineNum < lineCount doc)
    (hs : lineStart doc lineNum = some s) (hfirst : c.firstLine ≤ lineNum) (hlo : c.offset ≤ s)
    (hhi : s ≤ c.offset + c.contents.length) :
    Returns (doc.length < fuel)
      (do match ← c.cachedOffsetOfLine lineNum with
          | none => return (.error .badRequest, c)
          | some cacheOffset =>
            if cacheOffset < c.offset then return (.error .badRequest, c)
            else getLineLoop source lineNum fuel c (cacheOffset - c.offset))
      (Settled source doc rev (.ok (lineText doc lineNum))) := by
  rw [h.cached_of_lineStart hfirst hs hhi]
  simp only [Option.bind_eq_bind, Option.bind_some]
  rw [if_neg (by omega)]
  refine (getLineLoop_returns hdoc hsource hn fuel c _ h (by omega) ?_).mono
    fun hfuel ↦ by omega
  rw [hs, Nat.add_sub_cancel' hlo]

theorem getLine_returns (hdoc : IsUtf8 doc) (hsource : source.Honest doc rev)
    (h : c.Mirrors doc rev) (fuel lineNum : ℕ) :
    Returns (doc.length < fuel) (getLine fuel source c lineNum)
      (Settled source doc rev
        (if lineNum < lineCount doc then .ok (lineText doc lineNum) else .error .badRequest)) := by
  rw [getLine, h.numLines_eq]
  by_cases hn : lineNum < lineCount doc
  · rw [if_neg (by omega), if_pos hn]
    obtain ⟨s, hs⟩ := exists_lineStart hn.le
    dsimp only
    split_ifs with hfetch
    · cases hresp : source lineNum .line chunkSize c.rev with
      | error err => exact .some (settled_error h hresp)
      | ok resp =>
        have hr := hsource _ _ _ _ (h.rev_eq ▸ hresp)
        have hoff : resp.offset = s := Option.some.inj (hr.offset_eq.trans hs)
        refine cachedLine_returns hdoc hsource (h.resetChunk hr) hn hs ?_ hoff.le
          (by simp [resetChunk, recalculateLineOffsets, hoff])
        change resp.firstLine ≤ lineNum
        rw [lineStart_of_lt hn] at hs
        rw [hr.isChunk.firstLine_eq, hoff, rank_select hs]
    · push Not at hfetch
      obtain ⟨-, hlo, hfirst, hhi⟩ := hfetch
      rw [h.lineOffsets_eq, length_newlineOffsets] at hhi
      refine cachedLine_returns hdoc hsource h hn hs hlo ?_ ?_
      · rcases hlo.eq_or_lt with rfl | hlt
        · rw [h.isChunk.lineStart_eq, Option.some_inj] at hs
          have := hfirst rfl
          omega
        · rw [lineStart_of_lt hn] at hs
          exact ((lt_select_iff hs).mpr (by rwa [← h.isChunk.firstLine_eq])).le
      · rw [lineStart_of_lt hn] at hs
        rw [select_le_iff hs, h.isChunk.rank_eq le_rfl, rank_length]
        exact hhi
  · rw [if_pos (by omega), if_neg hn]
    exact .some (settled_expected h)

/-- A second round of `offset_of_line` is answered from the chunk. -/
theorem offsetOfLine_returns (hsource : source.Honest doc rev) (h : c.Mirrors doc rev)
    (fuel lineNum : ℕ) :
    Returns (1 < fuel) (offsetOfLine source fuel c lineNum)
      (Settled source doc rev (match lineStart doc lineNum with
        | some s => .ok s
        | none => .error .badRequest)) := by
  cases fuel with
  | zero => exact .none (Nat.not_lt_zero _)
  | succ fuel =>
    rw [offsetOfLine, h.numLines_eq]
    by_cases hn : lineNum ≤ lineCount doc
    · obtain ⟨s, hs⟩ := exists_lineStart hn
      rw [if_neg (not_lt.mpr hn), hs]
      cases hc : c.cachedOffsetOfLine lineNum with
      | none => exact absurd hc (h.cached_ne_none _)
      | some r =>
        simp only [Option.bind_eq_bind, Option.bind_some]
        cases r with
        | some off =>
          obtain rfl : s = off := Option.some.inj (hs.symm.trans (h.lineStart_of_cached hc).1)
          exact .some (settled_expected h)
        | none =>
          cases hresp : source lineNum .line chunkSize c.rev with
          | error err => exact .some (settled_error h hresp)
          | ok resp =>
            have hr := hsource _ _ _ _ (h.rev_eq ▸ hresp)
            have h' := h.resetChunk hr
            have hoff : resp.offset = s := Option.some.inj (hr.offset_eq.trans hs)
            have hfirst : (c.resetChunk resp).firstLine ≤ lineNum := by
              change resp.firstLine ≤ lineNum
              rw [hr.isChunk.firstLine_eq, hoff]
              rcases hn.lt_or_eq with hlt | rfl
              · rw [lineStart_of_lt hlt] at hs
                exact (rank_select hs).le
              · exact (rank_lt_lineCount s).le
            have hcached : (c.resetChunk resp).cachedOffsetOfLine lineNum = some (some s) :=
              h'.cached_of_lineStart hfirst hs (hoff ▸ Nat.le_add_right _ _)
            cases fuel with
            | zero => exact .none (lt_irrefl 1)
            | succ fuel =>
              dsimp only
              rw [offsetOfLine, h'.numLines_eq, if_neg (not_lt.mpr hn), hcached]
              exact .some (settled_expected h')
    · have hnone : lineStart doc lineNum = none := by
        rw [lineStart, if_neg (by omega), select_eq_none_iff]
        rw [lineCount] at hn
        omega
      rw [if_pos (by omega), hnone]
      exact .some (settled_expected h)

/-- The chunk holds the offset. -/
theorem cachedOffset_returns (h : c.Mirrors doc rev) {offset : ℕ} (hlo : c.offset ≤ offset)
    (hhi : offset ≤ c.offset + c.contents.length) :
    Returns True
      (do let relOffset ← checkedSub offset c.offset
          match binarySearch c.lineOffsets relOffset with
          | .ok ix => return (.ok (ix + c.firstLine + 1), c)
          | .error ix => return (.ok (ix + c.firstLine), c))
      (Settled source doc rev (.ok (rank isNewline doc offset))) := by
  obtain ⟨i, rfl⟩ := Nat.exists_eq_add_of_le hlo
  rw [h.isChunk.rank_eq (by omega), h.lineOffsets_eq]
  simp only [checkedSub, Nat.le_add_right, if_true, Nat.add_sub_cancel_left,
    Option.bind_eq_bind, Option.bind_some]
  cases hb : binarySearch (newlineOffsets c.contents) i with
  | ok ix =>
    rw [(rank_of_binarySearch_ok hb).2]
    have hline : ix + c.firstLine + 1 = c.firstLine + (ix + 1) := by omega
    dsimp only
    rw [hline]
    exact .some (settled_expected h)
  | error ix =>
    rw [rank_of_binarySearch_error hb]
    dsimp only
    rw [Nat.add_comm]
    exact .some (settled_expected h)

theorem lineOfOffset_returns (hsource : source.Honest doc rev) (h : c.Mirrors doc rev)
    (offset : ℕ) :
    Returns True (lineOfOffset source c offset)
      (Settled source doc rev
        (if offset ≤ doc.length then .ok (rank isNewline doc offset) else .error .badRequest)) := by
  rw [lineOfOffset, h.bufSize_eq]
  by_cases hle : offset ≤ doc.length
  · rw [if_neg (not_lt.mpr hle), if_pos hle]
    dsimp only
    split_ifs with hfetch
    · cases hresp : source offset .utf8 chunkSize c.rev with
      | error err => exact .some (settled_error h hresp)
      | ok resp =>
        have hr := hsource _ _ _ _ (h.rev_eq ▸ hresp)
        have hoff : resp.offset = offset := Option.some.inj hr.offset_eq
        exact cachedOffset_returns (h.resetChunk hr) hoff.le (hoff ▸ Nat.le_add_right _ _)
    · push Not at hfetch
      exact cachedOffset_returns h hfetch.2.1 hfetch.2.2
  · rw [if_pos (by omega), if_neg hle]
    exact .some (settled_expected h)

/-! ## Regions -/

/-- The arguments of a region: an interval of the document between character boundaries. -/
def IsRegion (doc : List UInt8) (start end_ : ℕ) : Prop :=
  start ≤ end_ ∧ end_ ≤ doc.length ∧ isCharBoundary doc start = true ∧
    isCharBoundary doc end_ = true

theorem getRegionLoop_returns (hsource : source.Honest doc rev) {start end_ : ℕ} (fuel : ℕ)
    (c : ChunkCache) (h : c.Mirrors doc rev) (hlo : c.offset ≤ start)
    (hhi : start ≤ c.offset + c.contents.length) :
    Returns (IsRegion doc start end_ ∧ doc.length - (c.offset + c.contents.length) < fuel)
      (getRegionLoop source start end_ fuel c)
      (Settled source doc rev (.ok ((doc.drop start).take (end_ - start)))) := by
  induction fuel generalizing c with
  | zero => exact .none fun hok ↦ Nat.not_lt_zero _ hok.2
  | succ fuel ih =>
    obtain ⟨i, rfl⟩ := Nat.exists_eq_add_of_le hlo
    have hi : i ≤ c.contents.length := by omega
    rw [getRegionLoop]
    by_cases hend : c.offset ≤ end_
    · obtain ⟨j, rfl⟩ := Nat.exists_eq_add_of_le hend
      simp only [checkedSub, Nat.le_add_right, if_true, Nat.add_sub_cancel_left,
        Option.bind_eq_bind, Option.bind_some]
      by_cases hj : j ≤ c.contents.length
      · -- the region is in the chunk
        rw [if_pos hj]
        cases hslice : sliceStr c.contents i j with
        | none =>
          refine .none fun hok ↦ ?_
          rw [h.isChunk.sliceStr_eq (by have := hok.1.1; omega) hj hok.1.2.2.1 hok.1.2.2.2]
            at hslice
          cases hslice
        | some region =>
          rw [h.isChunk.eq_of_sliceStr hslice, Nat.add_sub_add_left]
          exact .some (settled_expected h)
      · rw [if_neg hj]
        by_cases hb : isCharBoundary doc (c.offset + i) = true
        · obtain ⟨c', hclear, h', hoff', hend'⟩ := h.clearUpTo_if hi hb
          rw [hclear]
          simp only [Option.bind_some]
          split
          · next err herr => exact .some (settled_error h' herr)
          · next resp hresp =>
            have hr := hsource _ _ _ _ (h'.rev_eq ▸ hresp)
            refine (ih _ (h'.appendChunk hr) hoff'.le ?_).mono fun hok ↦ ⟨hok.1, ?_⟩
            · rw [length_appendChunk]
              change _ ≤ c'.offset + _
              omega
            · have hlen := hok.1.2.1
              have hprogress := appendChunk_lt hr (by omega)
              omega
        · -- off a character boundary the chunk cannot be cut
          have hi0 : i ≠ 0 := by
            rintro rfl
            exact hb h.isChunk.isCharBoundary_start
          have hnone : c.clearUpTo i = none := by
            rw [ChunkCache.clearUpTo, if_neg (not_lt.mpr hi), sliceStr, if_neg]
            · rfl
            · exact fun hcut ↦ hb (h.isChunk.isCharBoundary_doc hi hcut.2.2.1)
          rw [if_pos hi0, hnone]
          exact .none fun hok ↦ hb hok.1.2.2.1
    · simp only [checkedSub, Nat.le_add_right, if_true, Option.bind_eq_bind, Option.bind_some,
        if_neg hend, Option.bind_none]
      exact .none fun hok ↦ by have := hok.1.1; omega

theorem getRegion_returns (hsource : source.Honest doc rev) (h : c.Mirrors doc rev)
    (fuel start end_ : ℕ) :
    Returns (IsRegion doc start end_ ∧ doc.length < fuel) (getRegion fuel source c start end_)
      (Settled source doc rev (.ok ((doc.drop start).take (end_ - start)))) := by
  rw [getRegion]
  split_ifs with hfetch
  · cases hresp : source start .utf8 chunkSize c.rev with
    | error err => exact .some (settled_error h hresp)
    | ok resp =>
      have hr := hsource _ _ _ _ (h.rev_eq ▸ hresp)
      have hoff : resp.offset = start := Option.some.inj hr.offset_eq
      exact (getRegionLoop_returns hsource fuel _ (h.resetChunk hr) hoff.le
        (hoff ▸ Nat.le_add_right _ _)).mono fun hok ↦ ⟨hok.1, by omega⟩
  · push Not at hfetch
    exact (getRegionLoop_returns hsource fuel c h hfetch.2.1 hfetch.2.2.le).mono
      fun hok ↦ ⟨hok.1, by omega⟩

/-! ## The document -/

theorem getDocumentLoop_returns (hsource : source.Honest doc rev) (fuel : ℕ) (c : ChunkCache)
    (h : c.Mirrors doc rev) {curIdx : ℕ} (hle : curIdx ≤ doc.length) :
    Returns (doc.length - curIdx < fuel) (getDocumentLoop source fuel c (doc.take curIdx) curIdx)
      (Settled source doc rev (.ok doc)) := by
  induction fuel generalizing c curIdx with
  | zero => exact .none (Nat.not_lt_zero _)
  | succ fuel ih =>
    rw [getDocumentLoop, h.bufSize_eq]
    by_cases hlt : curIdx < doc.length
    · rw [if_pos hlt]
      -- one round with a chunk at the current position
      have hround : ∀ c' : ChunkCache, c'.Mirrors doc rev → c'.offset = curIdx →
          c'.contents ≠ [] →
          Returns (doc.length - curIdx < fuel + 1)
            (getDocumentLoop source fuel c' (doc.take curIdx ++ c'.contents)
              (c'.offset + c'.contents.length))
            (Settled source doc rev (.ok doc)) := by
        rintro c' h' rfl hne
        have hpos := List.length_pos_of_ne_nil hne
        have htake : doc.take c'.offset ++ c'.contents
            = doc.take (c'.offset + c'.contents.length) := by
          rw [List.take_add, ← h'.isChunk.contents_eq]
        rw [htake]
        exact (ih c' h' h'.isChunk.le_length).mono fun hfuel ↦ by omega
      dsimp only
      split_ifs with hfetch
      · cases hresp : source curIdx .utf8 chunkSize c.rev with
        | error err => exact .some (settled_error h hresp)
        | ok resp =>
          have hr := hsource _ _ _ _ (h.rev_eq ▸ hresp)
          have hoff : resp.offset = curIdx := Option.some.inj hr.offset_eq
          exact hround _ (h.resetChunk hr) hoff (hr.chunk_ne_nil (hoff ▸ hlt))
      · push Not at hfetch
        exact hround c h hfetch.2.symm (by simpa using hfetch.1)
    · rw [if_neg hlt, List.take_of_length_le (not_lt.mp hlt)]
      exact .some (settled_expected h)

theorem getDocument_returns (hsource : source.Honest doc rev) (h : c.Mirrors doc rev) (fuel : ℕ) :
    Returns (doc.length < fuel) (getDocument fuel source c)
      (Settled source doc rev (.ok doc)) := by
  have hloop := getDocumentLoop_returns hsource fuel c h (Nat.zero_le doc.length)
  exact hloop.mono fun hfuel ↦ by omega

end ChunkCache

end EeEditor.Plugin
