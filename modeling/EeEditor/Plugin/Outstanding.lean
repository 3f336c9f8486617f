import EeEditor.Plugin.Frontier
import EeEditor.Plugin.Update

/-!
# Outstanding work of the state cache

An update has the plugin start again at the last entry before the edit, and should move the
frontier lines after the edit with their text. `StateCache.KeepsWork` says that no work is lost.
The code moves at most one line, so this holds exactly under `StateCache.FrontierSafe`.
-/

namespace EeEditor.Plugin

namespace StateCache

variable {S : Type}

/-- The interval of the document that an update changes. -/
def editRange (delta : Option (Delta UInt8)) (doc : List UInt8) : ℕ × ℕ :=
  match delta with
  | some d => d.summary.1
  | none => (0, doc.length)

/-- The update is a simple insertion, or a simple deletion inside the cached chunk. -/
def Patches (c : StateCache S) (delta : Option (Delta UInt8)) : Prop :=
  ∃ d, delta = some d ∧ (d.asSimpleInsert ≠ none ∨ d.isSimpleDelete = true ∧
    c.bufCache.offset ≤ d.summary.1.1 ∧
    d.summary.1.2 ≤ c.bufCache.offset + c.bufCache.contents.length)

/-- No outstanding work is lost: the frontier is sorted and has the restart line. Lines before the
restart line stay. When the update is patched, so do lines before the line of the edit, and lines
after the edited range are at their new line number. States up to the edit stay. -/
structure KeepsWork (c c' : StateCache S) (doc doc' : List UInt8)
    (delta : Option (Delta UInt8)) : Prop where
  sorted : c'.frontier.Pairwise (· < ·)
  restart : c.restartLine (editRange delta doc).1 ∈ c'.frontier
  before : ∀ f ∈ c.frontier, f < c.restartLine (editRange delta doc).1 → f ∈ c'.frontier
  upTo : c.Patches delta → ∀ f ∈ c.frontier,
    f < rank isNewline doc (editRange delta doc).1 → f ∈ c'.frontier
  after : c.Patches delta → ∀ f ∈ c.frontier, ∀ s, lineStart doc f = some s →
    (editRange delta doc).2 < s → f + lineCount doc' - lineCount doc ∈ c'.frontier
  states : ∀ e ∈ c.stateCache, e.offset ≤ (editRange delta doc).1 → e ∈ c'.stateCache

/-- When a patched update keeps the work. No frontier line lies between the restart line and the
line of the edit. A frontier line after the edit is the first one from the restart line on, and not
before the new line of the first entry after the edit. And when that first line is not before the
entry, its moved number is above the restart line. -/
structure FrontierSafe (c : StateCache S) (doc doc' : List UInt8)
    (delta : Option (Delta UInt8)) : Prop where
  upTo : c.Patches delta → ∀ f ∈ c.frontier, f < rank isNewline doc (editRange delta doc).1 →
    f ≤ c.restartLine (editRange delta doc).1
  after : c.Patches delta → ∀ f ∈ c.frontier, ∀ s, lineStart doc f = some s →
    (editRange delta doc).2 < s →
    c.frontier.find? (c.restartLine (editRange delta doc).1 ≤ ·) = some f ∧
      ∃ e, c.stateCache.find? ((editRange delta doc).2 < ·.offset) = some e ∧
        e.lineNum + lineCount doc' ≤ f + lineCount doc
  increases : c.Patches delta → ∀ f e,
    c.frontier.find? (c.restartLine (editRange delta doc).1 ≤ ·) = some f →
    c.stateCache.find? ((editRange delta doc).2 < ·.offset) = some e →
    e.lineNum + lineCount doc' ≤ f + lineCount doc →
    c.restartLine (editRange delta doc).1 < wrappingAdd f (lineCount doc' - lineCount doc)

section

variable {c : StateCache S} {doc doc' : List UInt8} {rev start end_ : ℕ} {n : List UInt8}

theorem lineCount_splice (doc n : List UInt8) (start end_ : ℕ) :
    lineCount (splice doc n start end_) + rank isNewline doc end_
      = lineCount doc + rank isNewline doc start + n.countP isNewline := by
  have hdrop := countP_drop (p := isNewline) (l := doc) end_
  have hrank := rank_le_countP isNewline doc end_
  rw [splice, lineCount, lineCount, List.countP_append, List.countP_append, hdrop, ← rank]
  omega

/-- An entry after the edit, moved with its text. -/
def shiftEntry (doc doc' : List UInt8) (start end_ len : ℕ) (e : CacheEntry S) : CacheEntry S :=
  ⟨e.lineNum + lineCount doc' - lineCount doc, e.offset + len - (end_ - start), e.userState⟩

theorem dropWhile_dropWhile {β : Type} {p q : β → Bool} (h : ∀ x, p x = true → q x = true)
    (l : List β) : (l.dropWhile p).dropWhile q = l.dropWhile q := by
  induction l with
  | nil => rfl
  | cons x l ih =>
    by_cases hp : p x = true
    · rw [List.dropWhile_cons_of_pos hp, List.dropWhile_cons_of_pos (h x hp), ih]
    · rw [List.dropWhile_cons_of_neg hp]

theorem lt_of_mem_dropWhile {β : Type} {f : β → ℕ} {l : List β} {a : ℕ} {x : β}
    (hl : (l.map f).Pairwise (· < ·)) (hx : x ∈ l.dropWhile (f · ≤ a)) : a < f x := by
  induction l with
  | nil => simp at hx
  | cons y l ih =>
    obtain ⟨hy, hl⟩ := List.pairwise_cons.mp hl
    by_cases hya : f y ≤ a
    · rw [List.dropWhile_cons_of_pos (by simpa using hya)] at hx
      exact ih hl hx
    · rw [List.dropWhile_cons_of_neg (by simpa using hya)] at hx
      rcases List.mem_cons.mp hx with rfl | hx
      · exact not_le.mp hya
      · exact (not_le.mp hya).trans (hy _ (List.mem_map_of_mem hx))

theorem head?_dropWhile_offset (l : List (CacheEntry S)) (a : ℕ) :
    (l.dropWhile (·.offset ≤ a)).head? = l.find? (a < ·.offset) := by
  rw [← List.find?_not_eq_head?_dropWhile]
  congr 1
  funext e
  by_cases h : a < e.offset
  · simp [h]
  · simp [h, not_lt.mp h]

/-- An entry after the edit is at a line after those of the edit. -/
theorem Valid.rank_lt_lineNum (h : c.Valid doc rev) {e : CacheEntry S}
    (he : e ∈ c.stateCache.dropWhile (·.offset ≤ end_)) :
    rank isNewline doc end_ < e.lineNum ∧ end_ < e.offset := by
  have hlt := lt_of_mem_dropWhile h.offsets_sorted he
  have hmem := (List.dropWhile_sublist _).subset he
  exact ⟨(lt_select_iff (h.select_eq e hmem)).mp hlt, hlt⟩

theorem Valid.simpleInsert_eq (h : c.Valid doc rev) (hdoc' : doc' = splice doc n start start) :
    c.lineCacheSimpleInsert start n.length (countNewlines n)
      = some ⟨c.bufCache, c.entriesUpTo start ++ (c.stateCache.dropWhile (·.offset ≤ start)).map
          (shiftEntry doc doc' start start n.length),
        patchupLoop (c.restartLine start) ((c.stateCache.find? (start < ·.offset)).map
          (shiftEntry doc doc' start start n.length)) (lineCount doc' - lineCount doc) true
          c.frontier⟩ := by
  have hcount : lineCount doc' = lineCount doc + countNewlines n := by
    have := lineCount_splice doc n start start
    rw [hdoc', countNewlines]
    omega
  have hshift : (fun entry : CacheEntry S ↦ { entry with
      lineNum := entry.lineNum + countNewlines n, offset := entry.offset + n.length })
      = shiftEntry doc doc' start start n.length := by
    funext e
    rw [shiftEntry, CacheEntry.mk.injEq]
    exact ⟨by omega, by omega, rfl⟩
  have hdiff : (countNewlines n : ℤ) = lineCount doc' - lineCount doc := by omega
  rw [lineCacheSimpleInsert, h.indexAfter_eq, entriesUpTo, take_length_takeWhile,
    drop_length_takeWhile, ← entriesUpTo, hshift]
  rw [patchupFrontier_eq, List.head?_map, head?_dropWhile_offset, hdiff]

theorem Valid.simpleDelete_eq (h : c.Valid doc rev) (hle : start ≤ end_)
    (hlo : c.bufCache.offset ≤ start)
    (hhi : end_ ≤ c.bufCache.offset + c.bufCache.contents.length)
    (hbs : isCharBoundary doc start = true) (hbe : isCharBoundary doc end_ = true)
    (hdoc' : doc' = splice doc [] start end_) :
    c.lineCacheSimpleDelete start end_
      = some ⟨c.bufCache, c.entriesUpTo start ++ (c.stateCache.dropWhile (·.offset ≤ end_)).map
          (shiftEntry doc doc' start end_ 0),
        patchupLoop (c.restartLine start) ((c.stateCache.find? (end_ < ·.offset)).map
          (shiftEntry doc doc' start end_ 0)) (lineCount doc' - lineCount doc) true
          c.frontier⟩ := by
  have hslice := h.mirrors.isChunk.sliceStr_eq (i := start - c.bufCache.offset)
    (j := end_ - c.bufCache.offset) (by omega) (by omega)
    (by rwa [Nat.add_sub_cancel' hlo]) (by rwa [Nat.add_sub_cancel' (hlo.trans hle)])
  rw [Nat.add_sub_cancel' hlo, Nat.sub_sub_sub_cancel_right hlo] at hslice
  have hdel : countNewlines ((doc.drop start).take (end_ - start))
      = rank isNewline doc end_ - rank isNewline doc start := countP_take_drop hle
  have hmono : rank isNewline doc start ≤ rank isNewline doc end_ := rank_mono hle
  have hcount : lineCount doc' + (rank isNewline doc end_ - rank isNewline doc start)
      = lineCount doc := by
    have := lineCount_splice doc [] start end_
    rw [List.countP_nil] at this
    rw [hdoc']
    omega
  have hpull : (c.stateCache.dropWhile (·.offset ≤ end_)).mapM (fun entry ↦
      pullBack entry (rank isNewline doc end_ - rank isNewline doc start) (end_ - start))
      = some ((c.stateCache.dropWhile (·.offset ≤ end_)).map
        (shiftEntry doc doc' start end_ 0)) := by
    refine mapM_eq_map fun e he ↦ ?_
    obtain ⟨hline, hoff⟩ := h.rank_lt_lineNum he
    rw [pullBack, checkedSub, if_pos (by omega), checkedSub, if_pos (by omega)]
    simp only [Option.bind_eq_bind, Option.bind_some]
    refine congrArg some ?_
    rw [shiftEntry, CacheEntry.mk.injEq]
    exact ⟨by omega, by omega, rfl⟩
  have hdiff : -((rank isNewline doc end_ - rank isNewline doc start : ℕ) : ℤ)
      = lineCount doc' - lineCount doc := by omega
  unfold lineCacheSimpleDelete
  rw [if_pos ⟨hlo, hhi⟩, hslice]
  simp only [Option.bind_eq_bind, Option.bind_some, hdel, checkedSub, hle, if_true]
  rw [h.indexAfter_eq, entriesUpTo, take_length_takeWhile, drop_length_takeWhile, ← entriesUpTo,
    dropWhile_dropWhile (fun e he ↦ by simp at he ⊢; omega), hpull]
  simp only [Option.bind_some]
  rw [patchupFrontier_eq, List.head?_map, head?_dropWhile_offset, hdiff]

variable {delta : Option (Delta UInt8)} {c' : StateCache S}

theorem mem_entriesUpTo (h : c.Valid doc rev) {e : CacheEntry S} (he : e ∈ c.stateCache)
    (hle : e.offset ≤ start) : e ∈ c.entriesUpTo start := by
  have hsplit := List.takeWhile_append_dropWhile (p := fun e : CacheEntry S ↦ e.offset ≤ start)
    (l := c.stateCache)
  rw [← hsplit, List.mem_append] at he
  refine he.resolve_right fun hdrop ↦ ?_
  have := (h.rank_lt_lineNum hdrop).2
  omega

/-- A frontier line that begins after the edit. -/
theorem rank_lt_of_lineStart {f s : ℕ} (hs : lineStart doc f = some s) (hlt : end_ < s) :
    rank isNewline doc end_ < f ∧ f ≤ lineCount doc := by
  rw [lineStart] at hs
  split at hs
  · next hf => exact ⟨hf ▸ rank_lt_lineCount end_, hf.le⟩
  · exact ⟨(lt_select_iff hs).mp hlt, (le_countP_of_select hs).trans (Nat.le_succ _)⟩

theorem lineCount_le (doc : List UInt8) : lineCount doc ≤ doc.length + 1 :=
  Nat.succ_le_succ List.countP_le_length

/-- The exact condition for a patched update. -/
theorem Valid.keepsWork_iff_of_patches (h : c.Valid doc rev) (hP : c.Patches delta)
    (hrange : editRange delta doc = (start, end_)) (hle : start ≤ end_)
    (hdoc' : doc' = splice doc n start end_) (hlen : doc'.length + 1 < 2 ^ 64) {len : ℕ}
    {rest : List (CacheEntry S)} (hcache : c'.stateCache = c.entriesUpTo start ++ rest)
    (hfrontier : c'.frontier = patchupLoop (c.restartLine start)
      ((c.stateCache.find? (end_ < ·.offset)).map (shiftEntry doc doc' start end_ len))
      (lineCount doc' - lineCount doc) true c.frontier) :
    c.KeepsWork c' doc doc' delta ↔ c.FrontierSafe doc doc' delta := by
  have hcount := lineCount_splice doc n start end_
  rw [← hdoc'] at hcount
  have hmono : rank isNewline doc start ≤ rank isNewline doc end_ := rank_mono hle
  have hlines := lineCount_le doc'
  have hrank : rank isNewline doc end_ < lineCount doc := rank_lt_lineCount end_
  have hnext : ∀ {e : CacheEntry S}, c.stateCache.find? (end_ < ·.offset) = some e →
      rank isNewline doc end_ < e.lineNum := by
    intro e he
    rw [← head?_dropWhile_offset] at he
    exact (h.rank_lt_lineNum (List.mem_of_mem_head? he)).1
  have hentry : ∀ e, (c.stateCache.find? (end_ < ·.offset)).map
      (shiftEntry doc doc' start end_ len) = some e → rank isNewline doc start < e.lineNum := by
    intro e he
    obtain ⟨e₀, he₀, rfl⟩ := Option.map_eq_some_iff.mp he
    have := hnext he₀
    rw [shiftEntry]
    dsimp only
    omega
  have hafter : ∀ f ∈ c.frontier, (∃ s, lineStart doc f = some s ∧ end_ < s) →
      (rank isNewline doc start : ℤ) < f + (lineCount doc' - lineCount doc) ∧
        (f : ℤ) + (lineCount doc' - lineCount doc) < 2 ^ 64 := by
    rintro f - ⟨s, hs, hlt⟩
    have := rank_lt_of_lineStart hs hlt
    omega
  have hiff := patchup_iff (d := lineCount doc' - lineCount doc) h.frontier_sorted h.frontier_lt
    h.restartLine_le hentry hafter
  rw [← hfrontier] at hiff
  have htoNat : ∀ f : ℕ, ((f : ℤ) + (lineCount doc' - lineCount doc)).toNat
      = f + lineCount doc' - lineCount doc := fun f ↦ by omega
  have hmoved : ∀ {e : CacheEntry S} {f : ℕ},
      c.stateCache.find? (end_ < ·.offset) = some e →
      ((shiftEntry doc doc' start end_ len e).lineNum ≤ f ↔
        e.lineNum + lineCount doc' ≤ f + lineCount doc) := by
    intro e f he
    have := hnext he
    rw [shiftEntry]
    dsimp only
    omega
  constructor
  · rintro ⟨hsorted, -, -, hupTo, hafter, -⟩
    rw [hrange] at hupTo hafter
    obtain ⟨h1, h2, h3⟩ := hiff.mp ⟨hsorted, fun f hf ⟨s, hs, hlt⟩ ↦ by
      rw [htoNat]
      exact hafter hP f hf s hs hlt, hupTo hP⟩
    refine ⟨fun _ ↦ ?_, fun _ f hf s hs hlt ↦ ?_, fun _ f e hf he hle ↦ ?_⟩
    · rw [hrange]
      exact h1
    · rw [hrange] at hlt ⊢
      obtain ⟨hfind, e, he, hle⟩ := h2 f hf ⟨s, hs, hlt⟩
      obtain ⟨e₀, he₀, rfl⟩ := Option.map_eq_some_iff.mp he
      exact ⟨hfind, e₀, he₀, (hmoved he₀).mp hle⟩
    · rw [hrange] at hf he ⊢
      exact h3 f _ hf (by rw [he]; rfl) ((hmoved he).mpr hle)
  · rintro ⟨hupTo, hafter, hincr⟩
    rw [hrange] at hupTo hafter hincr
    obtain ⟨h1, h2, h3⟩ := hiff.mpr ⟨hupTo hP, fun f hf ⟨s, hs, hlt⟩ ↦ by
      obtain ⟨hfind, e, he, hle⟩ := hafter hP f hf s hs hlt
      exact ⟨hfind, _, by rw [he]; rfl, (hmoved he).mpr hle⟩, fun f e hf he hle ↦ by
      obtain ⟨e₀, he₀, rfl⟩ := Option.map_eq_some_iff.mp he
      exact hincr hP f e₀ hf he₀ ((hmoved he₀).mp hle)⟩
    refine ⟨h1, ?_, fun f hf hlt ↦ ?_, fun _ ↦ ?_, fun _ f hf s hs hlt ↦ ?_, fun e he hoff ↦ ?_⟩
    · rw [hrange, hfrontier, patchupLoop_true h.frontier_sorted]
      simp
    · rw [hrange] at hlt
      exact h3 f hf (lt_of_lt_of_le hlt h.restartLine_le)
    · rw [hrange]
      exact h3
    · rw [hrange] at hlt
      rw [← htoNat]
      exact h2 f hf ⟨s, hs, hlt⟩
    · rw [hrange] at hoff
      rw [hcache, List.mem_append]
      exact .inl (mem_entriesUpTo h he hoff)

/-- Any other update starts again at the restart line. -/
theorem Valid.keepsWork_of_not_patches (h : c.Valid doc rev) (start : ℕ) (hP : ¬c.Patches delta)
    (hstart : (editRange delta doc).1 = start) (hcache : c'.stateCache = c.entriesUpTo start)
    (hfrontier : c'.frontier
      = c.frontier.filter (· < c.restartLine start) ++ [c.restartLine start]) :
    c.KeepsWork c' doc doc' delta ↔ c.FrontierSafe doc doc' delta := by
  refine iff_of_true ⟨?_, ?_, fun f hf hlt ↦ ?_, fun hP' ↦ absurd hP' hP,
    fun hP' ↦ absurd hP' hP, fun e he hoff ↦ ?_⟩
    ⟨fun hP' ↦ absurd hP' hP, fun hP' ↦ absurd hP' hP, fun hP' ↦ absurd hP' hP⟩
  · rw [hfrontier, List.pairwise_append]
    refine ⟨h.frontier_sorted.filter _, List.pairwise_singleton _ _, fun a ha b hb ↦ ?_⟩
    rw [List.mem_filter, decide_eq_true_iff] at ha
    exact List.mem_singleton.mp hb ▸ ha.2
  · rw [hfrontier, hstart]
    simp
  · rw [hstart] at hlt
    rw [hfrontier]
    simp [hf, hlt]
  · rw [hstart] at hoff
    rw [hcache]
    exact mem_entriesUpTo h he hoff

/-- What an update makes of the entries and the frontier. -/
theorem Valid.updateLineCache_eq {d : Delta UInt8} (h : c.Valid doc rev)
    (hb : OnBoundaries d doc) (happly : d.apply doc = some doc') :
    (¬c.Patches (some d) ∧ c.updateLineCache d = c.clearToStart d.summary.1.1) ∨
      c.Patches (some d) ∧ ∃ n start end_ len, d.summary.1 = (start, end_) ∧ start ≤ end_ ∧
        end_ ≤ doc.length ∧ len = n.length ∧ doc' = splice doc n start end_ ∧
        c.updateLineCache d = some ⟨c.bufCache,
          c.entriesUpTo start ++ (c.stateCache.dropWhile (·.offset ≤ end_)).map
            (shiftEntry doc doc' start end_ len),
          patchupLoop (c.restartLine start) ((c.stateCache.find? (end_ < ·.offset)).map
            (shiftEntry doc doc' start end_ len)) (lineCount doc' - lineCount doc) true
            c.frontier⟩ := by
  cases hins : d.asSimpleInsert with
  | some n =>
    right
    obtain ⟨lead, trail, start, hd⟩ := Delta.framed_of_asSimpleInsert hins
    have hsum := hd.summary_eq (.inl ⟨n, rfl⟩)
    obtain ⟨-, hend, hdoc'⟩ := hd.apply_eq (.inl rfl) happly
    refine ⟨⟨d, rfl, .inl (by rw [hins]; simp)⟩, n, start, start, n.length, by rw [hsum], le_rfl,
      hend, rfl, hdoc', ?_⟩
    have hlen : Delta.totalElementLen [DeltaElement.insert n] = n.length := by
      simp [Delta.totalElementLen, DeltaElement.len]
    unfold updateLineCache
    rw [hsum, hins]
    simp only [hlen, and_self, if_true]
    exact h.simpleInsert_eq hdoc'
  | none =>
    by_cases hdel : d.isSimpleDelete = true
    · obtain ⟨lead, trail, start, end_, hd, hlt⟩ := Delta.framed_of_isSimpleDelete hdel
      have hsum := hd.summary_eq (.inr ⟨rfl, hlt⟩)
      have hup : c.updateLineCache d = c.lineCacheSimpleDelete start end_ := by
        unfold updateLineCache
        rw [hsum, hins]
        simp [hdel, Delta.totalElementLen]
      by_cases hin : c.bufCache.offset ≤ start ∧
          end_ ≤ c.bufCache.offset + c.bufCache.contents.length
      · right
        obtain ⟨hlen, hend, hdoc'⟩ := hd.apply_eq (n := []) (.inr ⟨rfl, rfl⟩) happly
        obtain ⟨hbs, hbe⟩ := isCharBoundary_of_framed hd hb hlen
        refine ⟨⟨d, rfl, .inr ⟨hdel, by rw [hsum]; exact hin⟩⟩, [], start, end_, 0, by rw [hsum],
          hlt.le, hend, rfl, hdoc', ?_⟩
        rw [hup]
        exact h.simpleDelete_eq hlt.le hin.1 hin.2 hbs hbe hdoc'
      · left
        refine ⟨?_, ?_⟩
        · rintro ⟨d', hd', hP⟩
          obtain rfl := Option.some.inj hd'
          rcases hP with hP | ⟨-, hP⟩
          · exact hP hins
          · rw [hsum] at hP
            exact hin hP
        · rw [hup, lineCacheSimpleDelete, if_neg hin, hsum]
    · left
      refine ⟨?_, ?_⟩
      · rintro ⟨d', hd', hP⟩
        obtain rfl := Option.some.inj hd'
        rcases hP with hP | ⟨hP, -⟩
        · exact hP hins
        · exact hdel hP
      · unfold updateLineCache
        rw [hins]
        simp [hdel]

theorem update_eq {d : Delta UInt8} {x : StateCache S} {buf : ChunkCache} {len lines rev' : ℕ}
    (hup : c.updateLineCache d = some x) (hx : x.bufCache = c.bufCache)
    (hbuf : c.bufCache.update (some d) len lines rev' = some buf) :
    c.update (some d) len lines rev' = some ⟨buf, x.stateCache, x.frontier⟩ := by
  rw [update]
  simp only [hup, Option.bind_eq_bind, Option.bind_some, hx, hbuf]
  rfl

/-- An update loses no work exactly when the frontier is safe for it. -/
theorem Valid.update_keepsWork_iff (h : c.Valid doc rev) (hdoc : IsUtf8 doc)
    (hdelta : IsUpdate doc doc' delta) (hlen : doc'.length + 1 < 2 ^ 64) (rev' : ℕ) :
    ∃ c', c.update delta doc'.length (lineCount doc') rev' = some c' ∧
      (c.KeepsWork c' doc doc' delta ↔ c.FrontierSafe doc doc' delta) := by
  obtain ⟨buf, hbuf, -⟩ := h.mirrors.update hdoc hdelta.2 rev'
  cases delta with
  | none =>
    refine ⟨⟨buf, _, _⟩, ?_, h.keepsWork_of_not_patches 0 ?_ rfl rfl rfl⟩
    · rw [update]
      simp only [h.clearToStart_eq, Option.bind_eq_bind, Option.bind_some, hbuf]
      rfl
    · rintro ⟨d, hd, -⟩
      cases hd
  | some d =>
    obtain ⟨hb, happly⟩ := hdelta.2 d rfl
    rcases h.updateLineCache_eq hb happly with
      ⟨hP, hup⟩ | ⟨hP, n, start, end_, len, hrange, hle, -, -, hdoc', hup⟩
    · rw [h.clearToStart_eq] at hup
      exact ⟨_, update_eq hup rfl hbuf,
        h.keepsWork_of_not_patches d.summary.1.1 hP rfl rfl rfl⟩
    · refine ⟨_, update_eq hup rfl hbuf, ?_⟩
      exact h.keepsWork_iff_of_patches hP hrange hle hdoc' hlen rfl rfl

/-- The entries up to an offset stay when the document before it does. -/
theorem Valid.entriesUpTo_select (h : c.Valid doc rev) (htake : doc.take start = doc'.take start)
    (hlen : start ≤ doc'.length) :
    (c.entriesUpTo start).Pairwise (·.lineNum < ·.lineNum) ∧
      ∀ e ∈ c.entriesUpTo start, select isNewline doc' e.lineNum = some e.offset := by
  refine ⟨h.sorted.sublist (List.takeWhile_sublist _), fun e he ↦ ?_⟩
  have hle : e.offset ≤ start := by simpa using List.mem_takeWhile_imp he
  exact select_congr_take htake hle (hle.trans hlen)
    (h.select_eq e ((List.takeWhile_sublist _).subset he))

/-- The entries stay at line starts of the document. -/
theorem Valid.update_entries (h : c.Valid doc rev) (hdoc : IsUtf8 doc)
    (hdelta : IsUpdate doc doc' delta) {rev' : ℕ}
    (hc' : c.update delta doc'.length (lineCount doc') rev' = some c') :
    c'.bufCache.Mirrors doc' rev' ∧ c'.stateCache.Pairwise (·.lineNum < ·.lineNum) ∧
      ∀ e ∈ c'.stateCache, select isNewline doc' e.lineNum = some e.offset := by
  obtain ⟨buf, hbuf, hmirror⟩ := h.mirrors.update hdoc hdelta.2 rev'
  cases delta with
  | none =>
    rw [update] at hc'
    simp only [h.clearToStart_eq, Option.bind_eq_bind, Option.bind_some, hbuf] at hc'
    obtain rfl := Option.some.inj hc'
    exact ⟨hmirror, h.entriesUpTo_select rfl (Nat.zero_le _)⟩
  | some d =>
    obtain ⟨hb, happly⟩ := hdelta.2 d rfl
    rcases h.updateLineCache_eq hb happly with
      ⟨-, hup⟩ | ⟨-, n, start, end_, len, -, hle, hend, rfl, rfl, hup⟩
    · rw [h.clearToStart_eq] at hup
      obtain rfl := Option.some.inj ((update_eq hup rfl hbuf).symm.trans hc')
      obtain ⟨hlen, htake⟩ := Delta.take_summary happly
      exact ⟨hmirror, h.entriesUpTo_select htake hlen⟩
    · obtain rfl := Option.some.inj ((update_eq hup rfl hbuf).symm.trans hc')
      have hlen := length_splice n end_ (hle.trans hend)
      have htake : doc.take start = (splice doc n start end_).take start := by
        rw [splice, List.append_assoc, List.take_left' (by rw [List.length_take]; omega)]
      obtain ⟨hsorted, hselect⟩ := h.entriesUpTo_select htake (by omega)
      have hcount := lineCount_splice doc n start end_
      have hrest : ∀ e ∈ c.stateCache.dropWhile (·.offset ≤ end_),
          rank isNewline doc start < (shiftEntry doc (splice doc n start end_) start end_ n.length
            e).lineNum ∧
          select isNewline (splice doc n start end_)
            (shiftEntry doc (splice doc n start end_) start end_ n.length e).lineNum
            = some (shiftEntry doc (splice doc n start end_) start end_ n.length e).offset := by
        intro e he
        obtain ⟨hline, hoff⟩ := h.rank_lt_lineNum he
        have hsel := select_splice n hle hend hoff
          (h.select_eq e ((List.dropWhile_sublist _).subset he))
        rw [shiftEntry]
        dsimp only
        rw [show e.lineNum + lineCount (splice doc n start end_) - lineCount doc
            = e.lineNum + rank isNewline doc start + n.countP isNewline - rank isNewline doc end_
            by omega,
          show e.offset + n.length - (end_ - start) = start + n.length + (e.offset - end_) by omega]
        exact ⟨by omega, hsel⟩
      refine ⟨hmirror, ?_, fun e he ↦ ?_⟩
      · dsimp only
        rw [List.pairwise_append]
        refine ⟨hsorted, ?_, fun a ha b hb' ↦ ?_⟩
        · rw [List.pairwise_map]
          refine (h.sorted.sublist (List.dropWhile_sublist _)).imp_of_mem fun ha hb' hlt ↦ ?_
          have hline := (h.rank_lt_lineNum ha).1
          rw [shiftEntry, shiftEntry]
          dsimp only
          omega
        · obtain ⟨e, he, rfl⟩ := List.mem_map.mp hb'
          have hle' : a.offset ≤ start := by simpa using List.mem_takeWhile_imp ha
          have hline := (select_le_iff (h.select_eq a ((List.takeWhile_sublist _).subset ha))).mp
            hle'
          exact hline.trans_lt (hrest e he).1
      · rcases List.mem_append.mp he with he | he
        · exact hselect e he
        · obtain ⟨e₀, he₀, rfl⟩ := List.mem_map.mp he
          exact (hrest e₀ he₀).2

end

/-- A pending line after the edit is lost: with lines 1 and 3 in the frontier, an insertion into
line 0 keeps only the first of them. -/
theorem update_loses_frontier_line :
    let c : StateCache Unit := ⟨.new 7 1 4, [⟨1, 2, some ()⟩], [1, 3]⟩
    let doc : List UInt8 := [97, 10, 98, 10, 99, 10, 100]
    let delta : Delta UInt8 := ⟨[.insert [120], .copy 0 7], 7⟩
    c.Valid doc 1 ∧ IsUpdate doc (120 :: doc) (some delta) ∧
      c.update (some delta) 8 4 2 = some ⟨.new 8 2 4, [⟨1, 3, some ()⟩], [0, 1]⟩ ∧
      ¬c.KeepsWork ⟨.new 8 2 4, [⟨1, 3, some ()⟩], [0, 1]⟩ doc (120 :: doc) (some delta) := by
  refine ⟨⟨ChunkCache.mirrors_new [97, 10, 98, 10, 99, 10, 100]
    1, by simp, by decide, by decide, by decide⟩,
    ⟨⟨"xa\nb\nc\nd".toList, by decide⟩, fun d hd ↦ ?_⟩, by decide +kernel, fun hkeeps ↦ ?_⟩
  · obtain rfl := Option.some.inj hd
    refine ⟨fun el hel ↦ ?_, rfl⟩
    simp only [List.mem_cons, List.not_mem_nil, or_false] at hel
    rcases hel with rfl | rfl
    · exact ⟨"x".toList, by decide⟩
    · exact ⟨rfl, rfl⟩
  · have hmem := hkeeps.after ⟨_, rfl, .inl (by decide)⟩ 3 (by decide) 6 (by decide) (by decide)
    exact absurd hmem (by decide)

/-- With only line 3 pending, the same insertion keeps it. -/
theorem update_keepsWork_iff_single :
    let c : StateCache Unit := ⟨.new 7 1 4, [⟨1, 2, some ()⟩], [3]⟩
    let doc : List UInt8 := [97, 10, 98, 10, 99, 10, 100]
    let delta : Delta UInt8 := ⟨[.insert [120], .copy 0 7], 7⟩
    ∃ c', c.update (some delta) 8 4 2 = some c' ∧
      c.KeepsWork c' doc (120 :: doc) (some delta) := by
  intro c doc delta
  have hvalid : c.Valid doc 1 :=
    ⟨ChunkCache.mirrors_new doc 1, by simp [c], by decide, by decide, by decide⟩
  have hupdate : IsUpdate doc (120 :: doc) (some delta) := by
    refine ⟨⟨"xa\nb\nc\nd".toList, by decide⟩, fun d hd ↦ ?_⟩
    obtain rfl := Option.some.inj hd
    refine ⟨fun el hel ↦ ?_, rfl⟩
    simp only [delta, List.mem_cons, List.not_mem_nil, or_false] at hel
    rcases hel with rfl | rfl
    · exact ⟨"x".toList, by decide⟩
    · exact ⟨rfl, rfl⟩
  obtain ⟨c', hc', hiff⟩ := hvalid.update_keepsWork_iff ⟨"a\nb\nc\nd".toList, by decide⟩ hupdate
    (by decide) 2
  refine ⟨c', hc', hiff.mpr ⟨fun _ f _ hlt ↦ ?_, fun _ f hf s hs hlt ↦ ?_, fun _ f e hf he _ ↦ ?_⟩⟩
  · exact absurd hlt (Nat.not_lt_zero f)
  · obtain rfl : f = 3 := by simpa [c] using hf
    exact ⟨by decide, _, rfl, by decide⟩
  · obtain rfl := Option.some.inj (show some 3 = some f from hf)
    decide

end StateCache

end EeEditor.Plugin
