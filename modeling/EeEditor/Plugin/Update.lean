import EeEditor.Plugin.Queries

/-!
# Updates of the chunk cache

An update replaces `start..end` of the document. When it is a simple insertion or a simple deletion
that begins in the chunk, the line offsets and the contents are patched up separately; both patches
are those of replacing the same interval in the chunk. Other updates clear the cache.
-/

namespace EeEditor.Plugin

variable {doc doc' : List UInt8} {rev : ℕ} {c : ChunkCache}

/-- A delta of text: it copies between character boundaries and inserts text. -/
def OnBoundaries (delta : Delta UInt8) (doc : List UInt8) : Prop :=
  ∀ el ∈ delta.els, match el with
    | .copy beg end_ => isCharBoundary doc beg = true ∧ isCharBoundary doc end_ = true
    | .insert n => IsUtf8 n

/-- An update that leads to `doc'`: with a delta that makes it of the current document, or
without one. -/
def IsUpdate (doc doc' : List UInt8) (delta : Option (Delta UInt8)) : Prop :=
  IsUtf8 doc' ∧ ∀ d, delta = some d → OnBoundaries d doc ∧ d.apply doc = some doc'

/-- The document with `start..end_` replaced by `n`. -/
def splice (doc n : List UInt8) (start end_ : ℕ) : List UInt8 :=
  doc.take start ++ n ++ doc.drop end_

theorem length_splice (n : List UInt8) {start : ℕ} (end_ : ℕ) (hle : start ≤ doc.length) :
    (splice doc n start end_).length = start + n.length + (doc.length - end_) := by
  rw [splice, List.length_append, List.length_append, List.length_take, min_eq_left hle,
    List.length_drop]

/-! ## Line offsets -/

theorem binarySearch_append {l₁ l₂ : List ℕ} {x : ℕ} (h₁ : ∀ y ∈ l₁, y < x)
    (h₂ : ∀ y ∈ l₂, x < y) : binarySearch (l₁ ++ l₂) x = .error l₁.length := by
  have htake : (l₁ ++ l₂).takeWhile (· < x) = l₁ := by
    rw [List.takeWhile_append_of_pos (by simpa using h₁)]
    cases l₂ with
    | nil => simp
    | cons y l₂ =>
      have := h₂ y (by simp)
      rw [List.takeWhile_cons_of_neg (by simp; omega), List.append_nil]
  rw [binarySearch, htake, if_neg]
  rw [List.getElem?_append_right le_rfl, Nat.sub_self]
  cases l₂ with
  | nil => simp
  | cons y l₂ =>
    have := h₂ y (by simp)
    simp
    omega

theorem ChunkCache.simpleInsert_eq (text : List UInt8) {i : ℕ} (hi : i ≤ c.contents.length)
    (hoffs : c.lineOffsets = newlineOffsets c.contents) :
    c.simpleInsert text (c.offset + i)
      = some { c with lineOffsets := newlineOffsets (splice c.contents text i i) } := by
  have hlen : (c.contents.take i).length = i := by rw [List.length_take, min_eq_left hi]
  have hsplit : newlineOffsets c.contents = newlineOffsets (c.contents.take i)
      ++ (newlineOffsets (c.contents.drop i)).map (· + i) := by
    conv_lhs => rw [← List.take_append_drop i c.contents]
    rw [newlineOffsets_append, hlen]
  have hgoal : newlineOffsets (splice c.contents text i i) = newlineOffsets (c.contents.take i)
      ++ (newlineOffsets text).map (· + i)
      ++ (newlineOffsets (c.contents.drop i)).map (· + (i + text.length)) := by
    rw [splice, newlineOffsets_append, newlineOffsets_append, List.length_append, hlen]
  have hbefore : ∀ x ∈ newlineOffsets (c.contents.take i), x ≤ i :=
    fun x hx ↦ hlen ▸ (bounds_newlineOffsets hx).2
  have hshift : (newlineOffsets c.contents).map
    (fun off ↦ if off > i then off + text.length else off)
      = newlineOffsets (c.contents.take i)
        ++ (newlineOffsets (c.contents.drop i)).map (· + (i + text.length)) := by
    rw [hsplit, List.map_append, List.map_map]
    refine congrArg₂ (· ++ ·) ?_ (List.map_congr_left fun x hx ↦ ?_)
    · refine (List.map_congr_left fun x hx ↦ ?_).trans (List.map_id _)
      rw [if_neg (not_lt.mpr (hbefore x hx))]
      rfl
    · have := (bounds_newlineOffsets hx).1
      dsimp only [Function.comp_apply]
      rw [if_pos (by omega)]
      omega
  rw [simpleInsert, if_pos (Nat.le_add_right _ _), Nat.add_sub_cancel_left, hoffs]
  dsimp only
  rw [hshift, hgoal]
  split
  · next hnil => rw [hnil, List.append_nil]
  · next new news hcons =>
    have hnew : i < new ∧ new ≤ i + text.length := by
      obtain ⟨x, hx, rfl⟩ := List.mem_map.mp
        (show new ∈ (newlineOffsets text).map (· + i) by rw [hcons]; simp)
      have := bounds_newlineOffsets hx
      omega
    have hafter : ∀ y ∈ (newlineOffsets (c.contents.drop i)).map (· + (i + text.length)),
        new < y := by
      intro y hy
      obtain ⟨z, hz, rfl⟩ := List.mem_map.mp hy
      have := (bounds_newlineOffsets hz).1
      omega
    have hsearch := binarySearch_append (fun y hy ↦ (hbefore y hy).trans_lt hnew.1) hafter
    rw [hsearch, hcons]
    dsimp only
    rw [List.take_left, List.drop_left]

theorem mapM_eq_map {β γ : Type} {f : β → Option γ} {g : β → γ} {l : List β}
    (h : ∀ x ∈ l, f x = some (g x)) : l.mapM f = some (l.map g) := by
  induction l with
  | nil => rfl
  | cons x l ih =>
    rw [List.mapM_cons, h x (by simp), ih fun y hy ↦ h y (by simp [hy])]
    rfl

theorem newlineOffsets_eq_nil {text : List UInt8} (h : text.any isNewline = false) :
    newlineOffsets text = [] := by
  rw [← List.length_eq_zero_iff, length_newlineOffsets, List.countP_eq_zero]
  intro b hb
  rw [List.any_eq_false] at h
  exact h b hb

theorem ChunkCache.simpleDelete_eq {i j : ℕ} (hij : i ≤ j) (hj : j ≤ c.contents.length)
    (hoffs : c.lineOffsets = newlineOffsets c.contents) :
    c.simpleDelete (c.offset + i) (c.offset + j)
      = some { c with lineOffsets := newlineOffsets (splice c.contents [] i j) } := by
  have hlen : (c.contents.take i).length = i := by rw [List.length_take, min_eq_left (by omega)]
  have hdel : ((c.contents.drop i).take (j - i)).length = j - i := by
    rw [List.length_take, List.length_drop, min_eq_left (by omega)]
  have hsplit : newlineOffsets c.contents = newlineOffsets (c.contents.take i)
      ++ (newlineOffsets ((c.contents.drop i).take (j - i))).map (· + i)
      ++ (newlineOffsets (c.contents.drop j)).map (· + j) := by
    have hcut : c.contents
        = c.contents.take i ++ (c.contents.drop i).take (j - i) ++ c.contents.drop j := by
      rw [← List.take_add, Nat.add_sub_cancel' hij, List.take_append_drop]
    conv_lhs => rw [hcut]
    rw [newlineOffsets_append, newlineOffsets_append, List.length_append, hlen, hdel,
      Nat.add_sub_cancel' hij]
  have hgoal : newlineOffsets (splice c.contents [] i j) = newlineOffsets (c.contents.take i)
      ++ (newlineOffsets (c.contents.drop j)).map (· + i) := by
    rw [splice, List.append_nil, newlineOffsets_append, hlen]
  have hbefore : ∀ x ∈ newlineOffsets (c.contents.take i), x ≤ i :=
    fun x hx ↦ hlen ▸ (bounds_newlineOffsets hx).2
  rw [simpleDelete, hoffs]
  simp only [checkedSub, Nat.add_le_add_left hij, if_true, Nat.le_add_right,
    Nat.add_sub_cancel_left, Nat.add_sub_add_left, subseq, hij, hj, and_self, Option.bind_eq_bind,
    Option.bind_some]
  rw [hgoal, hsplit]
  split_ifs with hany
  · -- the line starts in the deleted interval go
    have hfirst : (newlineOffsets (c.contents.take i)).filterMap (fun off ↦
        if off ≤ i then some off else if off ≤ j then none else some (off - (j - i)))
        = newlineOffsets (c.contents.take i) := by
      refine (List.filterMap_eq_map_iff_forall_eq_some.mpr fun x hx ↦ ?_).trans (List.map_id _)
      exact if_pos (hbefore x hx)
    have hmid : ((newlineOffsets ((c.contents.drop i).take (j - i))).map (· + i)).filterMap
        (fun off ↦
          if off ≤ i then some off else if off ≤ j then none else some (off - (j - i))) = [] := by
      rw [List.filterMap_eq_nil_iff]
      intro x hx
      obtain ⟨y, hy, rfl⟩ := List.mem_map.mp hx
      have := bounds_newlineOffsets hy
      rw [if_neg (by omega), if_pos (by omega)]
    have hlast : ((newlineOffsets (c.contents.drop j)).map (· + j)).filterMap (fun off ↦
        if off ≤ i then some off else if off ≤ j then none else some (off - (j - i)))
        = (newlineOffsets (c.contents.drop j)).map (· + i) := by
      rw [List.filterMap_map]
      refine List.filterMap_eq_map_iff_forall_eq_some.mpr fun x hx ↦ ?_
      have := bounds_newlineOffsets hx
      dsimp only [Function.comp_apply]
      rw [if_neg (by omega), if_neg (by omega)]
      exact congrArg some (by omega)
    rw [List.filterMap_append, List.filterMap_append, hfirst, hmid, hlast, List.append_nil]
    rfl
  · -- only the line starts after the deleted interval move
    have hmid : newlineOffsets ((c.contents.drop i).take (j - i)) = [] :=
      newlineOffsets_eq_nil (by simpa using hany)
    have hmap := mapM_eq_map (l := newlineOffsets (c.contents.take i)
        ++ (newlineOffsets (c.contents.drop j)).map (· + j))
      (f := fun off ↦ if j ≤ off then (if j - i ≤ off then some (off - (j - i)) else none)
        else some off)
      (g := fun off ↦ if j ≤ off then off - (j - i) else off) (fun x hx ↦ by
        split_ifs
        · rfl
        · omega
        · rfl)
    rw [hmid, List.map_nil, List.append_nil, hmap]
    have hfirst : (newlineOffsets (c.contents.take i)).map
        (fun off ↦ if j ≤ off then off - (j - i) else off) = newlineOffsets
          (c.contents.take i) := by
      refine (List.map_congr_left fun x hx ↦ ?_).trans (List.map_id _)
      have := hbefore x hx
      split_ifs
      · exact (show x - (j - i) = x by omega)
      · rfl
    have hlast : ((newlineOffsets (c.contents.drop j)).map (· + j)).map
        (fun off ↦ if j ≤ off then off - (j - i) else off)
        = (newlineOffsets (c.contents.drop j)).map (· + i) := by
      rw [List.map_map]
      refine List.map_congr_left fun x hx ↦ ?_
      dsimp only [Function.comp_apply]
      rw [if_pos (Nat.le_add_left _ _)]
      omega
    rw [List.map_append, hfirst, hlast]
    rfl

/-! ## Contents -/

section

variable {delta : Delta UInt8} {lead trail : Bool} {start end_ : ℕ} {n : List UInt8}
  {mid : List (DeltaElement UInt8)}

theorem isCharBoundary_of_framed (h : delta.Framed lead trail start end_ mid)
    (hb : OnBoundaries delta doc) (hlen : doc.length = delta.baseLen) :
    isCharBoundary doc start = true ∧ isCharBoundary doc end_ = true := by
  constructor
  · cases lead with
    | false => exact h.lead rfl ▸ isCharBoundary_zero
    | true => exact (hb (.copy 0 start) (by simp [h.els, Delta.frame])).2
  · cases trail with
    | false => exact h.trail rfl ▸ hlen ▸ isCharBoundary_length
    | true => exact (hb (.copy end_ delta.baseLen) (by simp [h.els, Delta.frame])).1

/-- The contents are replaced as the document is. -/
theorem ChunkCache.Mirrors.updateChunk_eq {c' : ChunkCache} (h : c.Mirrors doc rev)
    (hd : delta.Framed lead trail start end_ mid)
    (hmid : mid = [.insert n] ∨ mid = [] ∧ n = []) (hb : OnBoundaries delta doc)
    (hlen : doc.length = delta.baseLen) (hle : start ≤ end_) (hend : end_ ≤ doc.length)
    (hlo : c.offset ≤ start) (hhi : start ≤ c.offset + c.contents.length)
    (hoff : c'.offset = c.offset) (hcon : c'.contents = c.contents) :
    c'.updateChunk delta = some { c' with
      contents := splice c.contents n (start - c.offset) (end_ - c.offset) } := by
  have hdoc := h.isChunk.le_length
  obtain ⟨hbs, hbe⟩ := isCharBoundary_of_framed hd hb hlen
  have hslice : sliceStr c.contents 0 (start - c.offset)
      = some (c.contents.take (start - c.offset)) := by
    have hbs' := h.isChunk.isCharBoundary_contents (i := start - c.offset) (by omega)
      (by rwa [Nat.add_sub_cancel' hlo])
    rw [sliceStr_eq (Nat.zero_le _) (by omega) isCharBoundary_zero hbs', List.drop_zero,
      Nat.sub_zero]
  have hlead : (if lead then [DeltaElement.copy 0 start] else []).foldlM c'.updateChunkStep
      ⟨[], 0, 0, 0⟩ = some ⟨c.contents.take (start - c.offset), start, 0, 0⟩ := by
    cases lead with
    | false =>
      obtain rfl := hd.lead rfl
      simp
    | true =>
      have hmin : min (start - c.offset) c.contents.length = start - c.offset :=
        min_eq_left (by omega)
      simp only [if_true, List.foldlM_cons, List.foldlM_nil, updateChunkStep, hoff, hcon]
      by_cases h0 : 0 < c.offset
      · simp [h0, hlo, hmin, hslice, checkedSub]
      · have h0' : c.offset = 0 := by omega
        simp only [h0', Nat.sub_zero] at hslice hmin
        simp [h0', hmin, hslice, checkedSub]
  have hmiddle : mid.foldlM c'.updateChunkStep ⟨c.contents.take (start - c.offset), start, 0, 0⟩
      = some ⟨c.contents.take (start - c.offset) ++ n, start, 0, 0⟩ := by
    rcases hmid with rfl | ⟨rfl, rfl⟩
    · simp only [List.foldlM_cons, List.foldlM_nil, updateChunkStep, hoff, hcon]
      rw [if_neg (not_lt.mpr hlo), if_pos hhi]
      rfl
    · simp
  have htrail : ∃ prev, (if trail then [DeltaElement.copy end_ delta.baseLen] else []).foldlM
      c'.updateChunkStep ⟨c.contents.take (start - c.offset) ++ n, start, 0, 0⟩
      = some ⟨splice c.contents n (start - c.offset) (end_ - c.offset), prev, 0, 0⟩ := by
    cases trail with
    | false =>
      have hdrop : c.contents.drop (end_ - c.offset) = [] := by
        have := hd.trail rfl
        exact List.drop_eq_nil_of_le (by omega)
      exact ⟨start, by simp [splice, hdrop]⟩
    | true =>
      refine ⟨delta.baseLen, ?_⟩
      simp only [if_true, List.foldlM_cons, List.foldlM_nil, updateChunkStep, hoff, hcon]
      rw [if_neg (by omega)]
      by_cases hin : end_ ≤ c.offset + c.contents.length
      · have hbe' := h.isChunk.isCharBoundary_contents (i := end_ - c.offset) (by omega)
          (by rwa [Nat.add_sub_cancel' (hlo.trans hle)])
        have hlast : sliceStr c.contents (end_ - c.offset) c.contents.length
            = some (c.contents.drop (end_ - c.offset)) := by
          rw [sliceStr_eq (by omega) le_rfl hbe' isCharBoundary_length, List.take_of_length_le]
          rw [List.length_drop]
        rw [if_pos hin, if_neg (not_lt.mpr hlo), checkedSub, if_pos (by omega)]
        simp only [Option.bind_eq_bind, Option.bind_some]
        rw [min_eq_right (by omega), hlast]
        rfl
      · have hdrop : c.contents.drop (end_ - c.offset) = [] :=
          List.drop_eq_nil_of_le (by omega)
        rw [if_neg hin]
        simp [splice, hdrop]
  obtain ⟨prev, htrail⟩ := htrail
  rw [updateChunk, hd.els, Delta.frame, List.foldlM_append, List.foldlM_append, hlead]
  simp only [Option.bind_eq_bind, Option.bind_some]
  rw [hmiddle]
  simp only [Option.bind_some]
  rw [htrail]
  simp [checkedSub]

/-- Replacing an interval that begins in the chunk. -/
theorem IsChunk.splice {contents : List UInt8} {offset firstLine firstLineOffset : ℕ}
    (h : IsChunk doc contents offset firstLine firstLineOffset) (hdoc : IsUtf8 doc)
    (hn : IsUtf8 n) (hle : start ≤ end_) (hend : end_ ≤ doc.length) (hlo : offset ≤ start)
    (hhi : start ≤ offset + contents.length) (hbe : isCharBoundary doc end_ = true) :
    IsChunk (splice doc n start end_) (splice contents n (start - offset) (end_ - offset)) offset
      firstLine firstLineOffset := by
  have hlen := h.le_length
  have hlen' := length_splice n end_ (hle.trans hend)
  have hlo' : start - offset ≤ contents.length := by omega
  have hlenc := length_splice n (end_ - offset) hlo'
  have htake : doc.take offset = (Plugin.splice doc n start end_).take offset := by
    rw [Plugin.splice, List.append_assoc, List.take_append_of_le_length, List.take_take,
      min_eq_left hlo]
    rw [List.length_take]
    omega
  refine ⟨by omega, ?_, ?_, h.firstLineOffset_le, ?_, ?_, ?_⟩
  · rw [← List.prefix_iff_eq_take]
    have hfirst : (doc.take start).drop offset = contents.take (start - offset) := by
      conv_rhs => rw [h.contents_eq]
      rw [List.drop_take, List.take_take, min_eq_left (by omega)]
    have hlast : contents.drop (end_ - offset) <+: doc.drop end_ := by
      conv_lhs => rw [h.contents_eq]
      rw [List.drop_take, List.drop_drop, Nat.add_sub_cancel' (hlo.trans hle)]
      exact List.take_prefix _ _
    rw [Plugin.splice, Plugin.splice, List.append_assoc, List.append_assoc,
      List.drop_append_of_le_length (by rw [List.length_take]; omega), hfirst,
      List.prefix_append_right_inj, List.prefix_append_right_inj]
    exact hlast
  · rw [h.firstLine_eq]
    exact rank_congr_take htake le_rfl
  · have hsel := h.lineStart_eq
    rw [lineStart_of_lt (h.firstLine_eq ▸ rank_lt_lineCount offset)] at hsel
    exact lineStart_of_select (select_congr_take htake (Nat.sub_le _ _) (by omega) hsel)
  · exact isCharBoundary_splice_of_le hn hle hend hbe hlo h.isCharBoundary_start
  · by_cases hin : end_ ≤ offset + contents.length
    · have hb := isCharBoundary_splice_of_ge hdoc n hle hend hin h.isCharBoundary_end
      have hpos : offset + (Plugin.splice contents n (start - offset) (end_ - offset)).length
          = start + n.length + (offset + contents.length - end_) := by omega
      rwa [hpos]
    · have hb := isCharBoundary_splice_of_ge hdoc n hle hend le_rfl hbe
      have hpos : offset + (Plugin.splice contents n (start - offset) (end_ - offset)).length
          = start + n.length + (end_ - end_) := by omega
      rwa [hpos]

end

/-! ## Updates -/

namespace ChunkCache

theorem Mirrors.clear_update (c : ChunkCache) (doc' : List UInt8) (rev' : ℕ) :
    { c.clear with bufSize := doc'.length, numLines := lineCount doc', rev := rev' }.Mirrors
      doc' rev' :=
  ⟨.nil doc', rfl, rfl, rfl, rfl⟩

/-- A patched cache mirrors the new document. -/
theorem Mirrors.patch {delta : Delta UInt8} {lead trail : Bool} {start end_ : ℕ}
    {n : List UInt8} {mid : List (DeltaElement UInt8)} {c' : ChunkCache} (h : c.Mirrors doc rev)
    (hdoc : IsUtf8 doc) (hn : IsUtf8 n) (hd : delta.Framed lead trail start end_ mid)
    (hmid : mid = [.insert n] ∨ mid = [] ∧ n = []) (hb : OnBoundaries delta doc)
    (happly : delta.apply doc = some doc') (hle : start ≤ end_) (hlo : c.offset ≤ start)
    (hhi : start ≤ c.offset + c.contents.length) (rev' : ℕ)
    (hc' : c' = { c with
      lineOffsets := newlineOffsets (splice c.contents n (start - c.offset) (end_ - c.offset)) }) :
    ∃ c'', c'.updateChunk delta = some c'' ∧
      { c'' with bufSize := doc'.length, numLines := lineCount doc', rev := rev' }.Mirrors
        doc' rev' := by
  obtain ⟨hlen, hend, rfl⟩ := hd.apply_eq hmid happly
  have hbe := (isCharBoundary_of_framed hd hb hlen).2
  rw [h.updateChunk_eq hd hmid hb hlen hle hend hlo hhi (hc' ▸ rfl) (hc' ▸ rfl)]
  refine ⟨_, rfl, ?_, hc' ▸ rfl, rfl, rfl, rfl⟩
  subst hc'
  exact h.isChunk.splice hdoc hn hle hend hlo hhi hbe

theorem Mirrors.update {delta : Option (Delta UInt8)} (h : c.Mirrors doc rev) (hdoc : IsUtf8 doc)
    (hdelta : ∀ d, delta = some d → OnBoundaries d doc ∧ d.apply doc = some doc') (rev' : ℕ) :
    ∃ c', c.update delta doc'.length (lineCount doc') rev' = some c' ∧ c'.Mirrors doc' rev' := by
  have hclear : ∃ c', some { c.clear with
      bufSize := doc'.length, numLines := lineCount doc', rev := rev' } = some c' ∧
      c'.Mirrors doc' rev' := ⟨_, rfl, Mirrors.clear_update c doc' rev'⟩
  unfold ChunkCache.update
  cases delta with
  | none => exact hclear
  | some d =>
    obtain ⟨hb, happly⟩ := hdelta d rfl
    by_cases hempty : c.offset = 0 ∧ c.contents = []
    · simpa [hempty] using hclear
    · obtain ⟨b, hsum⟩ : ∃ b, d.summary = b := ⟨_, rfl⟩
      obtain ⟨⟨start, end_⟩, newLen⟩ := b
      simp only [shouldClear, hempty, hsum, not_false_eq_true, if_true]
      by_cases hout : start < c.offset ∨ start > c.offset + c.contents.length
      · simpa [hout] using hclear
      · simp only [hout, if_false]
        push Not at hout
        obtain ⟨i, rfl⟩ := Nat.exists_eq_add_of_le hout.1
        by_cases hdel : d.isSimpleDelete = true
        · obtain ⟨lead, trail, s, e, hd, hlt⟩ := Delta.framed_of_isSimpleDelete hdel
          rw [hd.summary_eq (.inr ⟨rfl, hlt⟩)] at hsum
          obtain ⟨⟨rfl, rfl⟩, -⟩ := by simpa using hsum
          have hsub : splice c.contents [] i (e - c.offset)
              = splice c.contents [] i (min e (c.offset + c.contents.length) - c.offset) := by
            rw [splice, splice]
            rcases le_total e (c.offset + c.contents.length) with hle | hge
            · rw [min_eq_left hle]
            · rw [min_eq_right hge, List.drop_eq_nil_of_le (by omega : c.contents.length ≤ _),
                List.drop_eq_nil_of_le (by omega : c.contents.length ≤ _)]
          have hpatch : c.simpleDelete (c.offset + i) (min e (c.offset + c.contents.length))
              = some { c with lineOffsets :=
                  newlineOffsets (splice c.contents [] i (e - c.offset)) } := by
            have hj : c.offset + (min e (c.offset + c.contents.length) - c.offset)
                = min e (c.offset + c.contents.length) := by omega
            rw [hsub, ← simpleDelete_eq (j := min e (c.offset + c.contents.length) - c.offset)
              (by omega) (by omega) h.lineOffsets_eq, hj]
          obtain ⟨c'', hchunk, hmirror⟩ := h.patch (n := []) hdoc ⟨[], rfl⟩ hd (.inr ⟨rfl, rfl⟩)
            hb happly hlt.le hout.1 hout.2 rev' rfl
          rw [Nat.add_sub_cancel_left] at hchunk
          exact ⟨_, by simp [hdel, hpatch, hchunk], hmirror⟩
        · cases hins : d.asSimpleInsert with
          | none => simpa [hdel] using hclear
          | some text =>
            obtain ⟨lead, trail, s, hd⟩ := Delta.framed_of_asSimpleInsert hins
            rw [hd.summary_eq (.inl ⟨text, rfl⟩)] at hsum
            obtain ⟨⟨rfl, rfl⟩, -⟩ := by simpa using hsum
            have hn : IsUtf8 text := hb (.insert text) (by simp [hd.els, Delta.frame])
            have hpatch := simpleInsert_eq text (show i ≤ c.contents.length by omega)
              h.lineOffsets_eq
            obtain ⟨c'', hchunk, hmirror⟩ := h.patch hdoc hn hd (.inl rfl) hb happly le_rfl hout.1
              hout.2 rev' rfl
            rw [Nat.add_sub_cancel_left] at hchunk
            exact ⟨_, by simp [hdel, hpatch, hchunk], hmirror⟩

end ChunkCache

end EeEditor.Plugin
