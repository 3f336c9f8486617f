import EeEditor.Vlf.OverlayRead

/-!
# Runs of edits of a piece overlay

Along every run of insertions, deletions and releases of undo groups the overlay stands for the
document that the edits which succeed make. What the limits release on the way to an edit is not
referred to by a piece, so an edit that is then refused leaves the document as it was.
-/

namespace EeEditor.Vlf.PieceOverlay

variable {file : List UInt8} {s s' : PieceOverlay}

/-! ## Undo groups -/

/-- The same document in another state of the buffers and of the history. -/
structure SameDoc (file : List UInt8) (s s' : PieceOverlay) : Prop where
  wf : s'.Wf file
  pieces_eq : s'.pieces = s.pieces
  flatten_eq : s'.flatten file = s.flatten file

theorem Wf.refl (h : s.Wf file) : SameDoc file s s := ⟨h, rfl, rfl⟩

theorem SameDoc.trans {s'' : PieceOverlay} (h : SameDoc file s s') (h' : SameDoc file s' s'') :
    SameDoc file s s'' :=
  ⟨h'.wf, h'.pieces_eq.trans h.pieces_eq, h'.flatten_eq.trans h.flatten_eq⟩

/-- A buffer that no piece refers to can be dropped. -/
theorem Wf.dropBuffer (h : s.Wf file) {id : ℕ} (hid : id ∉ s.pieces.filterMap (·.bufferId?)) :
    SameDoc file s (s.dropBuffer id) := by
  have hkeeps : Keeps s.pieces s.buffers (s.buffers.erase id) := by
    intro p hp j hj bytes hbytes
    have hne : j ≠ id := fun heq ↦ hid (List.mem_filterMap.mpr ⟨p, hp, heq ▸ hj⟩)
    exact ⟨[], by rw [AList.lookup_erase_ne hne, hbytes, List.append_nil]⟩
  refine ⟨⟨fun p hp ↦ (hkeeps.live hp (h.live p hp)).1, h.cumOffsets_eq, h.totalByteLen_eq,
    h.original_eq, fun j ↦ ?_⟩, rfl, hkeeps.flatMap_content h.live⟩
  show ((s.buffers.erase id).lookup j).isSome ↔
    (if s.activeBuffer = some id then none else s.activeBuffer) = some j
  by_cases hj : j = id
  · subst hj
    rw [AList.lookup_erase]
    split <;> simp [*]
  · rw [AList.lookup_erase_ne hj, h.active_iff]
    split
    · next hactive => simp [hactive, Ne.symm hj]
    · rfl

theorem Wf.gcUndoGroup (h : s.Wf file) (undoGroup : ℕ) :
    SameDoc file s (s.gcUndoGroup undoGroup) := by
  rw [PieceOverlay.gcUndoGroup]
  split
  · exact h.refl
  next delta hdelta =>
  dsimp only
  have hstart : SameDoc file s { s with
      undoHistory := s.undoHistory.erase undoGroup
      undoGroupOrder := s.undoGroupOrder.filter (· ≠ undoGroup) } :=
    ⟨⟨h.live, h.cumOffsets_eq, h.totalByteLen_eq, h.original_eq, h.active_iff⟩, rfl, rfl⟩
  generalize (s.undoHistory.erase undoGroup).entries.flatMap
    (fun e ↦ e.2.ops.filterMap (·.bufferId?)) = historyBufferIds
  generalize { s with
      undoHistory := s.undoHistory.erase undoGroup
      undoGroupOrder := s.undoGroupOrder.filter (· ≠ undoGroup) } = t at hstart ⊢
  induction delta.ops.filterMap (·.bufferId?) generalizing t with
  | nil => exact hstart
  | cons id ids ih =>
    rw [List.foldl_cons]
    refine ih _ ?_
    split
    · next hdead => exact hstart.trans (hstart.wf.dropBuffer (hstart.pieces_eq ▸ hdead.1))
    · exact hstart

theorem Wf.gcOldestWhile (h : s.Wf file) (exceeds : PieceOverlay → Bool) (fuel : ℕ) :
    SameDoc file s (gcOldestWhile exceeds fuel s) := by
  induction fuel generalizing s with
  | zero => exact h.refl
  | succ fuel ih =>
    rw [PieceOverlay.gcOldestWhile]
    split
    · split
      · exact h.refl
      · next oldest rest _ =>
        have hrest : SameDoc file s { s with undoGroupOrder := rest } :=
          ⟨⟨h.live, h.cumOffsets_eq, h.totalByteLen_eq, h.original_eq, h.active_iff⟩, rfl, rfl⟩
        have hgc := hrest.trans (hrest.wf.gcUndoGroup oldest)
        exact hgc.trans (ih hgc.wf)
    · exact h.refl

theorem Wf.enforceLimits (h : s.Wf file) (pieceSize incomingBytes : ℕ) :
    SameDoc file s (s.enforceLimits pieceSize incomingBytes).2 := by
  rw [PieceOverlay.enforceLimits]
  dsimp only
  have hgroups := h.gcOldestWhile
    (fun self ↦ self.undoHistory.entries.length ≥ self.limits.maxUndoGroups)
    s.undoGroupOrder.length
  split
  · exact hgroups.trans (hgroups.wf.gcOldestWhile _ _)
  · exact hgroups.trans (hgroups.wf.gcOldestWhile _ _)

theorem Wf.record (h : s.Wf file) (ctx : OverlayEditContext) (op : OverlayOp) :
    SameDoc file s (s.record ctx op) :=
  ⟨⟨h.live, h.cumOffsets_eq, h.totalByteLen_eq, h.original_eq, h.active_iff⟩, rfl, rfl⟩

/-! ## Edits in a group -/

section

variable {pieceSize at_ : ℕ} {text : List UInt8} {range : ByteRange} {ctx : OverlayEditContext}

/-- An insertion leaves an active buffer. -/
theorem insert_active (hne : text ≠ []) (hins : s.insert at_ text = some (.ok s')) :
    s'.activeBuffer.isSome := by
  have happend : ∀ {s₁ : PieceOverlay} {r}, s.appendActive text = some (s₁, r) →
      s₁.activeBuffer.isSome := by
    intro s₁ r h
    rw [appendActive, activeBufferMut] at h
    cases hactive : s.activeBuffer with
    | some id =>
      rw [hactive] at h
      obtain ⟨bytes, -, h⟩ := Option.map_eq_some_iff.mp h
      obtain ⟨rfl, -⟩ := Prod.mk.inj h
      exact hactive ▸ rfl
    | none =>
      rw [hactive] at h
      obtain ⟨bytes, -, h⟩ := Option.map_eq_some_iff.mp h
      obtain ⟨rfl, -⟩ := Prod.mk.inj h
      rfl
  rw [insert] at hins
  split at hins
  · cases hins
  split at hins
  · next hempty => exact absurd (List.isEmpty_iff.mp hempty) hne
  simp only [Option.bind_eq_bind, Option.bind_eq_some_iff] at hins
  obtain ⟨n, -, ⟨s₁, r⟩, hs₁, hins⟩ := hins
  have hactive := happend hs₁
  dsimp only at hins
  split at hins
  · obtain rfl := Except.ok.inj (Option.some.inj hins)
    exact hactive
  obtain ⟨⟨idx, start⟩, -, hins⟩ := Option.bind_eq_some_iff.mp hins
  dsimp only at hins
  split at hins
  · obtain rfl := Except.ok.inj (Option.some.inj hins)
    exact hactive
  obtain ⟨⟨lo, hi⟩, -, hins⟩ := Option.bind_eq_some_iff.mp hins
  obtain rfl := Except.ok.inj (Option.some.inj hins)
  exact hactive

/-- An insertion that succeeds splices the text in, and one that fails changes nothing. -/
theorem Wf.insertInGroup (h : s.Wf file) {r : Except OverlayError Unit}
    (hins : s.insertInGroup pieceSize at_ text ctx = some (r, s')) :
    s'.Wf file ∧ (∀ e, r = .error e → s'.flatten file = s.flatten file) ∧
      (r = .ok () → s'.flatten file
        = (s.flatten file).take at_ ++ text ++ (s.flatten file).drop at_) := by
  have hlimits := h.enforceLimits pieceSize text.length
  rw [PieceOverlay.insertInGroup] at hins
  rcases hl : s.enforceLimits pieceSize text.length with ⟨rl, sl⟩
  rw [hl] at hins hlimits
  cases rl with
  | error e =>
    obtain ⟨rfl, rfl⟩ := Prod.mk.inj (Option.some.inj hins)
    exact ⟨hlimits.wf, fun _ _ ↦ hlimits.flatten_eq, nofun⟩
  | ok u =>
    obtain ⟨ri, hri, hins⟩ := Option.bind_eq_some_iff.mp hins
    cases ri with
    | error e =>
      obtain ⟨rfl, rfl⟩ := Prod.mk.inj (Option.some.inj hins)
      exact ⟨hlimits.wf, fun _ _ ↦ hlimits.flatten_eq, nofun⟩
    | ok si =>
      simp only [Option.bind_eq_bind, Option.bind_eq_some_iff] at hins
      obtain ⟨id, -, buf, -, hins⟩ := hins
      obtain ⟨rfl, rfl⟩ := Prod.mk.inj (Option.some.inj hins)
      obtain ⟨hwf, -, hflat⟩ := hlimits.wf.insert_ok hri
      refine ⟨(hwf.record ctx _).wf, nofun, fun _ ↦ ?_⟩
      rw [(hwf.record ctx _).flatten_eq, hflat, hlimits.flatten_eq]

/-- A deletion that succeeds takes the range out, and one that fails changes nothing. -/
theorem Wf.deleteInGroup (h : s.Wf file) {r : Except OverlayError Unit}
    (hdel : s.deleteInGroup pieceSize range ctx = some (r, s')) :
    s'.Wf file ∧ (∀ e, r = .error e → s'.flatten file = s.flatten file) ∧
      (r = .ok () → s'.flatten file = (s.flatten file).take range.start
        ++ (s.flatten file).drop (max range.start range.end_)) := by
  have hlimits := h.enforceLimits pieceSize 0
  rw [PieceOverlay.deleteInGroup] at hdel
  rcases hl : s.enforceLimits pieceSize 0 with ⟨rl, sl⟩
  rw [hl] at hdel hlimits
  cases rl with
  | error e =>
    obtain ⟨rfl, rfl⟩ := Prod.mk.inj (Option.some.inj hdel)
    exact ⟨hlimits.wf, fun _ _ ↦ hlimits.flatten_eq, nofun⟩
  | ok u =>
    obtain ⟨rd, hrd, hdel⟩ := Option.bind_eq_some_iff.mp hdel
    cases rd with
    | error e =>
      obtain ⟨rfl, rfl⟩ := Prod.mk.inj (Option.some.inj hdel)
      exact ⟨hlimits.wf, fun _ _ ↦ hlimits.flatten_eq, nofun⟩
    | ok sd =>
      obtain ⟨rfl, rfl⟩ := Prod.mk.inj (Option.some.inj hdel)
      obtain ⟨hwf, hflat⟩ := hlimits.wf.delete_ok hrd
      refine ⟨(hwf.record ctx _).wf, nofun, fun _ ↦ ?_⟩
      rw [(hwf.record ctx _).flatten_eq, hflat, hlimits.flatten_eq]

/-- An insertion of text at a boundary returns. -/
theorem Wf.insertInGroup_isSome (h : s.Wf file) (hne : text ≠ []) (hutf8 : IsUtf8 text)
    (hb : s.AlignedAt file at_) : (s.insertInGroup pieceSize at_ text ctx).isSome := by
  have hlimits := h.enforceLimits pieceSize text.length
  rw [PieceOverlay.insertInGroup]
  rcases hl : s.enforceLimits pieceSize text.length with ⟨rl, sl⟩
  rw [hl] at hlimits
  cases rl with
  | error e => rfl
  | ok u =>
    obtain ⟨ri, hri⟩ := Option.isSome_iff_exists.mp <|
      hlimits.wf.insert_isSome hutf8 <|
        h.alignedAt_congr hlimits.wf hlimits.pieces_eq hlimits.flatten_eq hb
    dsimp only
    rw [hri, Option.bind_eq_bind, Option.bind_some]
    cases ri with
    | error e => rfl
    | ok si =>
      obtain ⟨id, hid⟩ := Option.isSome_iff_exists.mp (insert_active hne hri)
      obtain ⟨buf, hbuf⟩ := Option.isSome_iff_exists.mp <|
        ((hlimits.wf.insert_ok hri).1.active_iff id).mpr hid
      simp only [hid, hbuf, Option.bind_eq_bind, Option.bind_some]
      rfl

/-- A deletion between boundaries returns. -/
theorem Wf.deleteInGroup_isSome (h : s.Wf file) (hstart : s.AlignedAt file range.start)
    (hend : s.AlignedAt file range.end_) : (s.deleteInGroup pieceSize range ctx).isSome := by
  have hlimits := h.enforceLimits pieceSize 0
  rw [PieceOverlay.deleteInGroup]
  rcases hl : s.enforceLimits pieceSize 0 with ⟨rl, sl⟩
  rw [hl] at hlimits
  cases rl with
  | error e => rfl
  | ok u =>
    have halign : ∀ {b : ℕ}, s.AlignedAt file b → sl.AlignedAt file b :=
      h.alignedAt_congr hlimits.wf hlimits.pieces_eq hlimits.flatten_eq
    obtain ⟨rd, hrd⟩ := Option.isSome_iff_exists.mp <|
      hlimits.wf.delete_isSome (halign hstart) (halign hend)
    dsimp only
    rw [hrd, Option.bind_eq_bind, Option.bind_some]
    cases rd <;> rfl

end

/-! ## Runs -/

/-- The overlays that edits of a file lead to, each with the document that the edits make: those
that succeed splice it, and those that fail leave it alone. -/
inductive Reachable (file : List UInt8) (limits : OverlayLimits) (pieceSize : ℕ) :
    PieceOverlay → List UInt8 → Prop
  | new : Reachable file limits pieceSize (.withLimits file.length limits) file
  | insertOk {s s' : PieceOverlay} {doc text : List UInt8} {at_ : ℕ} {ctx : OverlayEditContext}
    (hs : Reachable file limits pieceSize s doc)
    (hins : s.insertInGroup pieceSize at_ text ctx = some (.ok (), s')) :
    Reachable file limits pieceSize s' (doc.take at_ ++ text ++ doc.drop at_)
  | insertErr {s s' : PieceOverlay} {doc text : List UInt8} {at_ : ℕ} {ctx : OverlayEditContext}
    {e : OverlayError} (hs : Reachable file limits pieceSize s doc)
    (hins : s.insertInGroup pieceSize at_ text ctx = some (.error e, s')) :
    Reachable file limits pieceSize s' doc
  | deleteOk {s s' : PieceOverlay} {doc : List UInt8} {range : ByteRange}
    {ctx : OverlayEditContext} (hs : Reachable file limits pieceSize s doc)
    (hdel : s.deleteInGroup pieceSize range ctx = some (.ok (), s')) :
    Reachable file limits pieceSize s'
      (doc.take range.start ++ doc.drop (max range.start range.end_))
  | deleteErr {s s' : PieceOverlay} {doc : List UInt8} {range : ByteRange}
    {ctx : OverlayEditContext} {e : OverlayError} (hs : Reachable file limits pieceSize s doc)
    (hdel : s.deleteInGroup pieceSize range ctx = some (.error e, s')) :
    Reachable file limits pieceSize s' doc
  | gc {s : PieceOverlay} {doc : List UInt8} (hs : Reachable file limits pieceSize s doc)
    (undoGroup : ℕ) : Reachable file limits pieceSize (s.gcUndoGroup undoGroup) doc

variable {limits : OverlayLimits} {pieceSize : ℕ} {doc : List UInt8}

theorem wf_withLimits (file : List UInt8) (limits : OverlayLimits) :
    (withLimits file.length limits).Wf file ∧
      (withLimits file.length limits).flatten file = file := by
  by_cases hlen : file.length = 0
  · obtain rfl := List.eq_nil_of_length_eq_zero hlen
    exact ⟨⟨by simp [withLimits], rfl, rfl, rfl, fun id ↦ by simp [withLimits]⟩, rfl⟩
  · refine ⟨⟨fun p hp ↦ ?_, ?_, ?_, rfl, fun id ↦ by simp [withLimits]⟩, ?_⟩
    · simp only [withLimits, if_neg hlen, List.mem_singleton] at hp
      subst hp
      exact ⟨Nat.pos_of_ne_zero hlen, le_rfl, rfl⟩
    · simp [withLimits, hlen, starts]
    · simp [withLimits, hlen, Piece.byteLen]
    · simp [withLimits, flatten, hlen, Piece.content]

theorem Reachable.wf (h : Reachable file limits pieceSize s doc) :
    s.Wf file ∧ s.flatten file = doc := by
  induction h with
  | new => exact wf_withLimits file limits
  | insertOk _ hins ih =>
    obtain ⟨hwf, -, hflat⟩ := ih.1.insertInGroup hins
    exact ⟨hwf, by rw [hflat rfl, ih.2]⟩
  | insertErr _ hins ih =>
    obtain ⟨hwf, hflat, -⟩ := ih.1.insertInGroup hins
    exact ⟨hwf, by rw [hflat _ rfl, ih.2]⟩
  | deleteOk _ hdel ih =>
    obtain ⟨hwf, -, hflat⟩ := ih.1.deleteInGroup hdel
    exact ⟨hwf, by rw [hflat rfl, ih.2]⟩
  | deleteErr _ hdel ih =>
    obtain ⟨hwf, hflat, -⟩ := ih.1.deleteInGroup hdel
    exact ⟨hwf, by rw [hflat _ rfl, ih.2]⟩
  | gc _ undoGroup ih =>
    have hgc := ih.1.gcUndoGroup undoGroup
    exact ⟨hgc.wf, hgc.flatten_eq.trans ih.2⟩

theorem Wf.cumOffsets_eq_map (h : s.Wf file) :
    s.cumOffsets = (List.range s.pieces.length).map fun i ↦
      ((s.pieces.take i).flatMap (Piece.content file s.buffers)).length := by
  rw [h.cumOffsets_eq]
  refine List.ext_getElem? fun i ↦ ?_
  rcases Nat.lt_or_ge i s.pieces.length with hi | hi
  · have htake : (s.pieces.take i).length = i := by
      rw [List.length_take]
      omega
    have hget : (starts Piece.byteLen 0 (s.pieces.take i ++ s.pieces.drop i))[i]?
        = some (extent Piece.byteLen (s.pieces.take i)) := by
      rw [starts_append, List.getElem?_append_right (by simp), length_starts, htake, Nat.sub_self,
        List.drop_eq_getElem_cons hi, starts, List.getElem?_cons_zero, Nat.zero_add]
    rw [List.take_append_drop] at hget
    rw [hget, List.getElem?_map, List.getElem?_range hi, Option.map_some,
      length_flatMap_extent fun p hp ↦ h.length_content p (List.mem_of_mem_take hp)]
  · rw [List.getElem?_eq_none (by simpa using hi), List.getElem?_eq_none (by simpa using hi)]

/-- The overlay refines the document. Its pieces make it, those that are inserted lie in buffers
that are there, the table is that of the starts of the pieces, and reads through the overlay visit
the bytes of the document. Edits at boundaries return. -/
theorem Reachable.refines (h : Reachable file limits pieceSize s doc) :
    s.flatten file = doc ∧
      (∀ id r n, Piece.inserted id r n ∈ s.pieces →
        ∃ bytes, s.buffers.lookup id = some bytes ∧ r.start < r.end_ ∧ r.end_ ≤ bytes.length) ∧
      s.cumOffsets.Pairwise (· < ·) ∧
      s.cumOffsets = ((List.range s.pieces.length).map fun i ↦
        ((s.pieces.take i).flatMap (Piece.content file s.buffers)).length) ∧
      s.totalByteLen = (s.pieces.map Piece.byteLen).sum ∧ s.totalByteLen = doc.length ∧
      (∀ maxReadSize reads range,
        (∀ bytes, s.overlayReadExactRange file maxReadSize reads range = some bytes →
          bytes = (doc.drop range.start).take range.len) ∧
        (range.end_ ≤ doc.length → 0 < maxReadSize →
          (∀ a b, b - a ≤ maxReadSize → reads a b = true) →
          (s.overlayReadExactRange file maxReadSize reads range).isSome)) ∧
      (∀ at_ text ctx, text ≠ [] → IsUtf8 text → isCharBoundary doc at_ = true →
        (s.insertInGroup pieceSize at_ text ctx).isSome) ∧
      ∀ range ctx, isCharBoundary doc range.start = true → isCharBoundary doc range.end_ = true →
        (s.deleteInGroup pieceSize range ctx).isSome := by
  obtain ⟨hwf, rfl⟩ := h.wf
  refine ⟨rfl, fun id r n hp ↦ ?_, ?_, hwf.cumOffsets_eq_map, hwf.totalByteLen_eq,
    hwf.length_flatten.symm, fun maxReadSize reads range ↦ ⟨fun bytes ↦ ?_, fun hend hmax ↦ ?_⟩,
    fun at_ text ctx hne hutf8 hb ↦ hwf.insertInGroup_isSome hne hutf8 (hwf.alignedAt hb),
    fun range ctx hstart hend ↦
      hwf.deleteInGroup_isSome (hwf.alignedAt hstart) (hwf.alignedAt hend)⟩
  · obtain ⟨hlt, -, bytes, hlookup, hle, -⟩ := hwf.live _ hp
    exact ⟨bytes, hlookup, hlt, hle⟩
  · rw [hwf.cumOffsets_eq]
    exact starts_sorted hwf.byteLen_pos
  · exact hwf.overlayReadExactRange_eq
  · rw [hwf.length_flatten] at hend
    exact fun hreads ↦ hwf.overlayReadExactRange_isSome hmax hreads hend

/-- An insertion into the middle of a file splits its piece. -/
theorem Reachable.refines_split : ∃ s, Reachable [97, 98] {} 56 s [97, 88, 98] ∧
    s.pieces.length = 3 ∧ s.flatten [97, 98] = [97, 88, 98] := by
  have hrun : ((withLimits 2 {}).insertInGroup 56 1 [88] ⟨1, 1⟩).map
      (fun x ↦ (x.1, x.2.pieces.length)) = some (.ok (), 3) := rfl
  obtain ⟨⟨r, s⟩, hins, heq⟩ := Option.map_eq_some_iff.mp hrun
  obtain ⟨rfl, hlen⟩ := Prod.mk.inj heq
  have hnew : Reachable [97, 98] {} 56 (withLimits 2 {}) [97, 98] := .new
  have hreach := hnew.insertOk hins
  exact ⟨s, hreach, hlen, hreach.refines.1⟩

end EeEditor.Vlf.PieceOverlay
