import EeEditor.Vlf.PieceOverlay

/-!
# The document of a piece overlay

An overlay stands for the document that its pieces make, read from the file and from the buffers.
`PieceOverlay.Wf` is the invariant: no piece is empty, every piece lies inside the file or inside a
buffer that is there, the table holds the starts of the pieces, and the only buffer is the active
one. Insertions and deletions splice the document, and what the history drops is not in it.
-/

namespace EeEditor.Vlf

open PieceOverlay

/-- The bytes that a piece stands for. -/
def Piece.content (file : List UInt8) (buffers : AList fun _ : ℕ ↦ List UInt8) :
    Piece → List UInt8
  | original r _ => (file.drop r.start).take (r.end_ - r.start)
  | inserted id r _ =>
    (((buffers.lookup id).getD []).drop r.start).take (r.end_ - r.start)

/-- The piece is not empty and lies inside the file, or holds text of a buffer that is there. -/
def Piece.Live (file : List UInt8) (buffers : AList fun _ : ℕ ↦ List UInt8) : Piece → Prop
  | original r n => r.start < r.end_ ∧ r.end_ ≤ file.length ∧ n = r.end_ - r.start
  | inserted id r n => r.start < r.end_ ∧ n = r.end_ - r.start ∧
      ∃ bytes, buffers.lookup id = some bytes ∧ r.end_ ≤ bytes.length ∧
        IsUtf8 ((bytes.drop r.start).take (r.end_ - r.start))

/-- The document. -/
def PieceOverlay.flatten (file : List UInt8) (s : PieceOverlay) : List UInt8 :=
  s.pieces.flatMap (Piece.content file s.buffers)

/-- The offset is at a boundary if it falls within inserted text. -/
def PieceOverlay.AlignedAt (file : List UInt8) (s : PieceOverlay) (b : ℕ) : Prop :=
  ∀ ps id r n qs, s.pieces = ps ++ .inserted id r n :: qs → extent Piece.byteLen ps ≤ b →
    b < extent Piece.byteLen ps + n →
      isCharBoundary (Piece.content file s.buffers (.inserted id r n)) (b - extent Piece.byteLen ps)

structure PieceOverlay.Wf (file : List UInt8) (s : PieceOverlay) : Prop where
  live : ∀ p ∈ s.pieces, p.Live file s.buffers
  cumOffsets_eq : s.cumOffsets = starts Piece.byteLen 0 s.pieces
  totalByteLen_eq : s.totalByteLen = extent Piece.byteLen s.pieces
  original_eq : s.originalFileByteLen = file.length
  active_iff : ∀ id, (s.buffers.lookup id).isSome ↔ s.activeBuffer = some id

variable {file : List UInt8} {s s' : PieceOverlay}

/-! ## Pieces -/

section

variable {buffers buffers' : AList fun _ : ℕ ↦ List UInt8} {p : Piece} {ps : List Piece}

theorem Piece.Live.byteLen_pos (h : p.Live file buffers) : 0 < p.byteLen := by
  cases p with
  | original r n =>
    obtain ⟨hlt, -, rfl⟩ := h
    exact Nat.sub_pos_of_lt hlt
  | inserted id r n =>
    obtain ⟨hlt, rfl, -⟩ := h
    exact Nat.sub_pos_of_lt hlt

theorem Piece.Live.length_content (h : p.Live file buffers) :
    (p.content file buffers).length = p.byteLen := by
  cases p with
  | original r n =>
    obtain ⟨hlt, hle, rfl⟩ := h
    rw [content, List.length_take, List.length_drop, byteLen]
    omega
  | inserted id r n =>
    obtain ⟨hlt, rfl, bytes, hlookup, hle, -⟩ := h
    rw [content, hlookup, Option.getD_some, List.length_take, List.length_drop, byteLen]
    omega

/-- The buffers of the pieces are still there, and have only grown. -/
def Keeps (ps : List Piece) (buffers buffers' : AList fun _ : ℕ ↦ List UInt8) : Prop :=
  ∀ p ∈ ps, ∀ id, p.bufferId? = some id → ∀ bytes, buffers.lookup id = some bytes →
    ∃ more, buffers'.lookup id = some (bytes ++ more)

theorem Keeps.live (h : Keeps ps buffers buffers') (hp : p ∈ ps) (hlive : p.Live file buffers) :
    p.Live file buffers' ∧ p.content file buffers' = p.content file buffers := by
  cases p with
  | original r n => exact ⟨hlive, rfl⟩
  | inserted id r n =>
    obtain ⟨hlt, hn, bytes, hlookup, hle, hutf8⟩ := hlive
    obtain ⟨more, hmore⟩ := h _ hp id rfl bytes hlookup
    have hslice : ((bytes ++ more).drop r.start).take (r.end_ - r.start)
        = (bytes.drop r.start).take (r.end_ - r.start) := by
      rw [List.drop_append_of_le_length (by omega), List.take_append_of_le_length]
      rw [List.length_drop]
      omega
    refine ⟨⟨hlt, hn, _, hmore, ?_, by rwa [hslice]⟩, ?_⟩
    · rw [List.length_append]
      omega
    · rw [Piece.content, Piece.content, hmore, hlookup, Option.getD_some, Option.getD_some, hslice]

theorem Keeps.flatMap_content (h : Keeps ps buffers buffers')
    (hlive : ∀ p ∈ ps, p.Live file buffers) :
    ps.flatMap (Piece.content file buffers') = ps.flatMap (Piece.content file buffers) :=
  List.flatMap_congr fun _ hp ↦ (h.live hp (hlive _ hp)).2

end

namespace PieceOverlay.Wf

theorem byteLen_pos (h : s.Wf file) : ∀ p ∈ s.pieces, 0 < p.byteLen :=
  fun p hp ↦ (h.live p hp).byteLen_pos

theorem length_content (h : s.Wf file) :
    ∀ p ∈ s.pieces, (p.content file s.buffers).length = p.byteLen :=
  fun p hp ↦ (h.live p hp).length_content

theorem length_flatten (h : s.Wf file) : (s.flatten file).length = s.totalByteLen := by
  rw [flatten, length_flatMap_extent h.length_content, h.totalByteLen_eq]

/-- The invariant of an overlay with other pieces, whose table has been rebuilt. -/
theorem rebuild (h : s.Wf file) {ps : List Piece} (hlive : ∀ p ∈ ps, p.Live file s.buffers) :
    ({ s with pieces := ps }.rebuildOffsets).Wf file :=
  ⟨hlive, rfl, rfl, h.original_eq, h.active_iff⟩

/-- The search finds the piece of a byte. -/
theorem pieceForByte_eq (h : s.Wf file) {b : ℕ} (hb : b < s.totalByteLen) :
    ∃ ps p qs, s.pieces = ps ++ p :: qs ∧ extent Piece.byteLen ps ≤ b ∧
      b < extent Piece.byteLen ps + p.byteLen ∧
      s.pieceForByte b = some (ps.length, extent Piece.byteLen ps) := by
  obtain ⟨ps, p, qs, heq, hlo, hhi⟩ := exists_piece (h.totalByteLen_eq ▸ hb)
  refine ⟨ps, p, qs, heq, hlo, hhi, ?_⟩
  have hpos : ∀ x ∈ ps, 0 < x.byteLen := fun x hx ↦ h.byteLen_pos x (by simp [heq, hx])
  have hget : s.cumOffsets[ps.length]? = some (extent Piece.byteLen ps) := by
    rw [h.cumOffsets_eq, heq, starts_append, List.getElem?_append_right (by simp)]
    simp [starts]
  have hne : (decide (b ≥ s.totalByteLen) || s.pieces.isEmpty) = false := by
    simp [heq, hb]
  rw [pieceForByte, hne, h.cumOffsets_eq, heq, partitionPoint_le_starts hpos hlo hhi]
  dsimp only
  rw [← heq, ← h.cumOffsets_eq, Nat.add_sub_cancel, hget]
  rfl

/-! ## Splits -/

/-- The two halves of a piece at an offset. -/
structure Halves (file : List UInt8) (buffers : AList fun _ : ℕ ↦ List UInt8) (p : Piece)
    (offset : ℕ) (lo hi : Piece) : Prop where
  lo_live : lo.Live file buffers
  hi_live : hi.Live file buffers
  lo_byteLen : lo.byteLen = offset
  hi_byteLen : lo.byteLen + hi.byteLen = p.byteLen
  content_eq : lo.content file buffers ++ hi.content file buffers = p.content file buffers

theorem fromBytes_eq_some {bytes : List UInt8} {n : ℕ} :
    fromBytes bytes = some n ↔ IsUtf8 bytes ∧ n = bytes.length := by
  rw [fromBytes]
  split
  · next h => simp [validateUTF8_iff.mp h, eq_comm]
  · next h => simpa using fun hutf8 ↦ absurd (validateUTF8_iff.mpr hutf8) h

section

variable {ps qs : List Piece} {p : Piece} {offset : ℕ}

/-- A split makes two halves. -/
theorem splitPiece_halves (h : s.Wf file) (heq : s.pieces = ps ++ p :: qs) (hpos : 0 < offset)
    (hlt : offset < p.byteLen) {lo hi : Piece}
    (hsplit : s.splitPiece ps.length offset = some (lo, hi)) :
    Halves file s.buffers p offset lo hi := by
  have hget : s.pieces[ps.length]? = some p := by simp [heq]
  have hlive := h.live p (by simp [heq])
  rw [splitPiece, hget, Option.bind_eq_bind, Option.bind_some] at hsplit
  cases p with
  | original r n =>
    obtain ⟨hr, hle, rfl⟩ := hlive
    obtain ⟨rfl, rfl⟩ := Prod.mk.inj (Option.some.inj hsplit)
    rw [Piece.byteLen] at hlt
    refine ⟨⟨?_, ?_, rfl⟩, ⟨?_, hle, rfl⟩, ?_, ?_, ?_⟩
    · show r.start < r.start + offset
      omega
    · show r.start + offset ≤ file.length
      omega
    · show r.start + offset < r.end_
      omega
    · simp [Piece.byteLen, ByteRange.len]
    · simp only [Piece.byteLen, ByteRange.len]
      omega
    · exact take_drop_append (by simp) (by dsimp only; omega)
  | inserted id r n =>
    obtain ⟨hr, rfl, bytes, hlookup, hle, hutf8⟩ := hlive
    rw [Piece.byteLen] at hlt
    have hlo : sliceBuffer bytes ⟨r.start, r.start + offset⟩
        = some ((bytes.drop r.start).take (r.start + offset - r.start)) :=
      if_pos ⟨by simp, by dsimp only; omega⟩
    have hhi : sliceBuffer bytes ⟨r.start + offset, r.end_⟩
        = some ((bytes.drop (r.start + offset)).take (r.end_ - (r.start + offset))) :=
      if_pos ⟨by dsimp only; omega, hle⟩
    simp only [hlookup, hlo, hhi, Option.bind_eq_bind, Option.bind_some,
      Option.bind_eq_some_iff] at hsplit
    obtain ⟨loLen, hloLen, hiLen, hhiLen, hsplit⟩ := hsplit
    obtain ⟨hloUtf8, rfl⟩ := fromBytes_eq_some.mp hloLen
    obtain ⟨hhiUtf8, rfl⟩ := fromBytes_eq_some.mp hhiLen
    obtain ⟨rfl, rfl⟩ := Prod.mk.inj (Option.some.inj hsplit)
    refine ⟨⟨?_, ?_, bytes, hlookup, ?_, hloUtf8⟩, ⟨?_, ?_, bytes, hlookup, hle, hhiUtf8⟩, ?_, ?_,
      ?_⟩
    · show r.start < r.start + offset
      omega
    · rw [List.length_take, List.length_drop]
      dsimp only
      omega
    · show r.start + offset ≤ bytes.length
      omega
    · show r.start + offset < r.end_
      omega
    · rw [List.length_take, List.length_drop]
      dsimp only
      omega
    · rw [Piece.byteLen, List.length_take, List.length_drop]
      omega
    · simp only [Piece.byteLen, List.length_take, List.length_drop]
      omega
    · simp only [Piece.content, hlookup, Option.getD_some]
      exact take_drop_append (by simp) (by omega)

/-- A split at a boundary does not panic. -/
theorem splitPiece_isSome (h : s.Wf file) (heq : s.pieces = ps ++ p :: qs)
    (hlt : offset < p.byteLen)
    (hb : ∀ id r n, p = .inserted id r n → isCharBoundary (p.content file s.buffers) offset) :
    (s.splitPiece ps.length offset).isSome := by
  have hget : s.pieces[ps.length]? = some p := by simp [heq]
  have hlive := h.live p (by simp [heq])
  rw [splitPiece, hget, Option.bind_eq_bind, Option.bind_some]
  cases p with
  | original r n => rfl
  | inserted id r n =>
    obtain ⟨hr, rfl, bytes, hlookup, hle, hutf8⟩ := hlive
    rw [Piece.byteLen] at hlt
    have hb := hb _ _ _ rfl
    rw [Piece.content, hlookup, Option.getD_some] at hb
    obtain ⟨hlo, hhi⟩ := hutf8.split hb
    rw [List.take_take, min_eq_left hlt.le] at hlo
    rw [List.drop_take, List.drop_drop, Nat.sub_sub] at hhi
    have hlo' : sliceBuffer bytes ⟨r.start, r.start + offset⟩
        = some ((bytes.drop r.start).take offset) :=
      (if_pos ⟨by simp, by dsimp only; omega⟩).trans (by simp)
    have hhi' : sliceBuffer bytes ⟨r.start + offset, r.end_⟩
        = some ((bytes.drop (r.start + offset)).take (r.end_ - (r.start + offset))) :=
      if_pos ⟨by dsimp only; omega, hle⟩
    simp only [hlookup, hlo', hhi', fromBytes_eq_some.mpr ⟨hlo, rfl⟩,
      fromBytes_eq_some.mpr ⟨hhi, rfl⟩, Option.bind_eq_bind, Option.bind_some]
    rfl

theorem flatMap_halves (ps qs : List Piece) {buffers : AList fun _ : ℕ ↦ List UInt8} {lo hi : Piece}
    (h : Halves file buffers p offset lo hi) :
    (ps ++ lo :: hi :: qs).flatMap (Piece.content file buffers)
      = (ps ++ p :: qs).flatMap (Piece.content file buffers) := by
  simp only [List.flatMap_append, List.flatMap_cons, ← h.content_eq, List.append_assoc]

theorem live_halves {buffers : AList fun _ : ℕ ↦ List UInt8} {lo hi : Piece}
    (h : Halves file buffers p offset lo hi)
    (hlive : ∀ x ∈ ps ++ p :: qs, x.Live file buffers) :
    ∀ x ∈ ps ++ lo :: hi :: qs, x.Live file buffers := by
  intro x hx
  simp only [List.mem_append, List.mem_cons] at hx
  rcases hx with hx | rfl | rfl | hx
  · exact hlive x (by simp [hx])
  · exact h.lo_live
  · exact h.hi_live
  · exact hlive x (by simp [hx])

end

/-! ## Insertions -/

/-- The active buffer takes the text, and the pieces read as before. -/
theorem appendActive_eq (h : s.Wf file) {text : List UInt8} (hne : text ≠ [])
    (hutf8 : IsUtf8 text) :
    ∃ s₁ id range, s.appendActive text = some (s₁, id, range) ∧ s₁.Wf file ∧
      s₁.pieces = s.pieces ∧ s₁.totalByteLen = s.totalByteLen ∧
      s₁.flatten file = s.flatten file ∧
      (Piece.inserted id range text.length).Live file s₁.buffers ∧
      (Piece.inserted id range text.length).content file s₁.buffers = text := by
  obtain ⟨s₀, id, bytes, hactive, hlookup, hpieces, hcum, htotal, horig, hkeep, hbuf⟩ :
      ∃ s₀ id bytes, s.activeBufferMut = (s₀, id) ∧ s₀.buffers.lookup id = some bytes ∧
        s₀.pieces = s.pieces ∧ s₀.cumOffsets = s.cumOffsets ∧ s₀.totalByteLen = s.totalByteLen ∧
        s₀.originalFileByteLen = s.originalFileByteLen ∧
        (∀ j x, s.buffers.lookup j = some x → s₀.buffers.lookup j = some x) ∧
        ∀ j, (s₀.buffers.lookup j).isSome ↔ s₀.activeBuffer = some j := by
    rw [activeBufferMut]
    cases hactive : s.activeBuffer with
    | some id =>
      obtain ⟨bytes, hbytes⟩ := Option.isSome_iff_exists.mp ((h.active_iff id).mpr hactive)
      exact ⟨s, id, bytes, rfl, hbytes, rfl, rfl, rfl, rfl, fun _ _ hj ↦ hj, h.active_iff⟩
    | none =>
      -- there is no buffer, so a new one hides none
      have hempty : ∀ j, s.buffers.lookup j = none := fun j ↦ by
        rw [← Option.not_isSome_iff_eq_none, h.active_iff, hactive]
        simp
      refine ⟨_, _, [], rfl, AList.lookup_insert _, rfl, rfl, rfl, rfl, fun j x hj ↦ ?_, fun j ↦ ?_⟩
      · rw [hempty j] at hj
        cases hj
      · by_cases hj : j = s.nextBufferId
        · subst hj
          simp [AList.lookup_insert]
        · rw [AList.lookup_insert_ne hj, hempty j]
          simp [eq_comm, hj]
  refine ⟨_, id, _, by rw [appendActive, hactive]; dsimp only; rw [hlookup]; rfl, ?_⟩
  have hkeeps : Keeps s.pieces s.buffers (s₀.buffers.insert id (bytes ++ text)) := by
    intro p _ j _ x hx
    by_cases hj : j = id
    · subst hj
      rw [hkeep j x hx] at hlookup
      obtain rfl := Option.some.inj hlookup
      exact ⟨text, AList.lookup_insert _⟩
    · exact ⟨[], by rw [AList.lookup_insert_ne hj, hkeep j x hx, List.append_nil]⟩
  refine ⟨⟨?_, ?_, ?_, horig.trans h.original_eq, fun j ↦ ?_⟩, hpieces, htotal, ?_,
    ⟨?_, ?_, bytes ++ text, ?_, ?_, ?_⟩, ?_⟩
  · intro p hp
    rw [hpieces] at hp
    exact (hkeeps.live hp (h.live p hp)).1
  · show s₀.cumOffsets = starts _ _ s₀.pieces
    rw [hcum, hpieces, h.cumOffsets_eq]
  · show s₀.totalByteLen = extent _ s₀.pieces
    rw [htotal, hpieces, h.totalByteLen_eq]
  · rw [← hbuf j]
    by_cases hj : j = id
    · subst hj
      simp [hlookup]
    · rw [AList.lookup_insert_ne hj]
  · show s₀.pieces.flatMap _ = _
    rw [hpieces]
    exact hkeeps.flatMap_content h.live
  · have := List.length_pos_of_ne_nil hne
    dsimp only
    omega
  · exact (Nat.add_sub_cancel_left ..).symm
  · exact AList.lookup_insert _
  · exact (List.length_append ..).ge
  · simpa using hutf8
  · simp [Piece.content]

/-- A piece that is put in at a cut splices its bytes in. -/
theorem insert_cut (h : s.Wf file) (ps qs : List Piece) {p : Piece}
    (hlive : ∀ x ∈ ps ++ qs, x.Live file s.buffers)
    (hflat : (ps ++ qs).flatMap (Piece.content file s.buffers) = s.flatten file)
    (hp : p.Live file s.buffers) :
    ({ s with pieces := ps ++ p :: qs }.rebuildOffsets).Wf file ∧
      ({ s with pieces := ps ++ p :: qs }.rebuildOffsets).flatten file
        = (s.flatten file).take (extent Piece.byteLen ps) ++ p.content file s.buffers
          ++ (s.flatten file).drop (extent Piece.byteLen ps) := by
  refine ⟨h.rebuild fun x hx ↦ ?_, ?_⟩
  · rcases List.mem_append.mp hx with hx | hx
    · exact hlive x (by simp [hx])
    · rcases List.mem_cons.mp hx with rfl | hx
      · exact hp
      · exact hlive x (by simp [hx])
  · have hlen : ∀ x ∈ ps, (x.content file s.buffers).length = x.byteLen :=
      fun x hx ↦ (hlive x (by simp [hx])).length_content
    show (ps ++ p :: qs).flatMap (Piece.content file s.buffers) = _
    rw [← hflat, take_extent hlen, drop_extent hlen, List.flatMap_append, List.flatMap_cons,
      List.append_assoc]

/-- An insertion that succeeds splices the text in. -/
theorem insert_ok (h : s.Wf file) {at_ : ℕ} {text : List UInt8}
    (hins : s.insert at_ text = some (.ok s')) :
    s'.Wf file ∧ at_ ≤ (s.flatten file).length ∧
      s'.flatten file = (s.flatten file).take at_ ++ text ++ (s.flatten file).drop at_ := by
  rw [insert] at hins
  split at hins
  · cases hins
  next hat =>
  have hle : at_ ≤ (s.flatten file).length := by
    rw [h.length_flatten]
    omega
  split at hins
  · next hempty =>
    obtain rfl := Except.ok.inj (Option.some.inj hins)
    obtain rfl := List.isEmpty_iff.mp hempty
    exact ⟨h, hle, by simp⟩
  next hne =>
  have hne' : text ≠ [] := fun hnil ↦ hne (List.isEmpty_iff.mpr hnil)
  simp only [Option.bind_eq_bind, Option.bind_eq_some_iff] at hins
  obtain ⟨n, hn, ⟨s₁, id, range⟩, happend, hins⟩ := hins
  obtain ⟨hutf8, rfl⟩ := fromBytes_eq_some.mp hn
  obtain ⟨s₂, id', range', happend', h₁, hpieces, htotal, hflat, hlive, hcontent⟩ :=
    h.appendActive_eq hne' hutf8
  obtain ⟨rfl, rfl, rfl⟩ : s₁ = s₂ ∧ id = id' ∧ range = range' := by
    rw [happend'] at happend
    simpa [eq_comm] using happend
  rw [← and_assoc, and_right_comm]
  refine ⟨?_, hle⟩
  rw [← hflat, ← hcontent]
  dsimp only at hins
  split at hins
  · next hend =>
    obtain rfl := Except.ok.inj (Option.some.inj hins)
    have hcut := h₁.insert_cut s₁.pieces [] (by simpa using h₁.live) (by simp [flatten]) hlive
    rw [hend, h₁.totalByteLen_eq]
    refine Eq.subst (motive := fun t : PieceOverlay ↦ t.Wf file ∧ t.flatten file = _) ?_ hcut
    simp [rebuildOffsets, starts_append, starts, h₁.cumOffsets_eq, Piece.byteLen]
  next hend =>
  obtain ⟨⟨idx, start⟩, hfor, hins⟩ := Option.bind_eq_some_iff.mp hins
  obtain ⟨ps, p, qs, heq, hlo, hhi, hfor'⟩ := h₁.pieceForByte_eq (b := at_) (by omega)
  obtain ⟨rfl, rfl⟩ := Prod.mk.inj (Option.some.inj (hfor'.symm.trans hfor))
  dsimp only at hins
  rw [heq] at hins
  split at hins
  · next hzero =>
    obtain rfl := Except.ok.inj (Option.some.inj hins)
    have hcut := h₁.insert_cut ps (p :: qs) (by simpa [heq] using h₁.live)
      (by rw [flatten, heq]) hlive
    rw [List.take_left, List.drop_left, show at_ = extent Piece.byteLen ps by omega]
    exact hcut
  next hpos =>
  obtain ⟨⟨lo, hi⟩, hsplit, hins⟩ := Option.bind_eq_some_iff.mp hins
  obtain rfl := Except.ok.inj (Option.some.inj hins)
  have hhalves := h₁.splitPiece_halves heq (by omega) (by omega) hsplit
  have hcut := h₁.insert_cut (ps ++ [lo]) (hi :: qs)
    (by simpa using live_halves hhalves (heq ▸ h₁.live))
    (by simpa [flatten, heq] using flatMap_halves ps qs hhalves) hlive
  have hat' : at_ = extent Piece.byteLen (ps ++ [lo]) := by
    rw [extent_append, extent_cons, extent_nil, hhalves.lo_byteLen]
    omega
  rw [List.take_left, List.drop_length_add_append, List.drop_one, List.tail_cons, hat']
  simpa using hcut

/-- A piece is a slice of the document. -/
theorem content_eq_slice (h : s.Wf file) {ps qs : List Piece} {p : Piece}
    (heq : s.pieces = ps ++ p :: qs) :
    p.content file s.buffers
      = ((s.flatten file).drop (extent Piece.byteLen ps)).take p.byteLen := by
  have hlen := h.length_content
  have hps : ∀ x ∈ ps, (x.content file s.buffers).length = x.byteLen :=
    fun x hx ↦ hlen x (by simp [heq, hx])
  rw [flatten, heq, drop_extent hps, List.flatMap_cons, List.take_left' (hlen p (by simp [heq]))]

/-- A boundary of the document is one of the piece that contains it. -/
theorem alignedAt (h : s.Wf file) {b : ℕ} (hb : isCharBoundary (s.flatten file) b = true) :
    s.AlignedAt file b := by
  intro ps id r n qs heq hlo hhi
  have htotal := h.length_flatten
  rw [h.totalByteLen_eq, heq, extent_append, extent_cons, Piece.byteLen] at htotal
  rw [h.content_eq_slice heq, Piece.byteLen]
  refine isCharBoundary_slice (by omega) (by omega) ?_
  rwa [Nat.add_sub_cancel' hlo]

/-- The same document in the same pieces has the same boundaries. -/
theorem alignedAt_congr (h : s.Wf file) (h' : s'.Wf file) (hpieces : s'.pieces = s.pieces)
    (hflat : s'.flatten file = s.flatten file) {b : ℕ} (hb : s.AlignedAt file b) :
    s'.AlignedAt file b := by
  intro ps id r n qs heq hlo hhi
  rw [h'.content_eq_slice heq, hflat, ← h.content_eq_slice (hpieces ▸ heq)]
  exact hb ps id r n qs (hpieces ▸ heq) hlo hhi

/-- The piece of an aligned offset can be split there. -/
theorem splitPiece_isSome_of_alignedAt (h : s.Wf file) {ps qs : List Piece} {p : Piece} {b : ℕ}
    (heq : s.pieces = ps ++ p :: qs) (hlo : extent Piece.byteLen ps ≤ b)
    (hhi : b < extent Piece.byteLen ps + p.byteLen) (hb : s.AlignedAt file b) :
    (s.splitPiece ps.length (b - extent Piece.byteLen ps)).isSome := by
  refine h.splitPiece_isSome heq (by omega) ?_
  rintro id r n rfl
  exact hb ps id r n qs heq hlo hhi

/-- An insertion at a boundary does not panic. -/
theorem insert_isSome (h : s.Wf file) {at_ : ℕ} {text : List UInt8} (hutf8 : IsUtf8 text)
    (hb : s.AlignedAt file at_) : (s.insert at_ text).isSome := by
  rw [insert]
  split
  · rfl
  next hat =>
  split
  · rfl
  next hne =>
  have hne' : text ≠ [] := fun hnil ↦ hne (List.isEmpty_iff.mpr hnil)
  obtain ⟨s₁, id, range, happend, h₁, hpieces, htotal, hflat, hlive, hcontent⟩ :=
    h.appendActive_eq hne' hutf8
  simp only [fromBytes_eq_some.mpr ⟨hutf8, rfl⟩, happend, Option.bind_eq_bind, Option.bind_some]
  split
  · rfl
  next hend =>
  obtain ⟨ps, p, qs, heq, hlo, hhi, hfor⟩ := h₁.pieceForByte_eq (b := at_) (by omega)
  simp only [hfor, Option.bind_some]
  split
  · rfl
  next hpos =>
  obtain ⟨⟨lo, hi⟩, hsplit⟩ := Option.isSome_iff_exists.mp <|
    h₁.splitPiece_isSome_of_alignedAt heq hlo hhi <| h.alignedAt_congr h₁ hpieces hflat hb
  rw [hsplit]
  rfl

/-! ## Deletions -/

/-- A split makes a cut, and changes nothing of the document. -/
theorem splitAt_eq (h : s.Wf file) {b : ℕ} (hb : b < s.totalByteLen)
    (hs : s.splitAt b = some s') :
    s'.Wf file ∧ s'.flatten file = s.flatten file ∧ IsCut Piece.byteLen s'.pieces b ∧
      ∀ c, IsCut Piece.byteLen s.pieces c → IsCut Piece.byteLen s'.pieces c := by
  obtain ⟨ps, p, qs, heq, hlo, hhi, hfor⟩ := h.pieceForByte_eq hb
  have hget : s.pieces[ps.length]? = some p := by simp [heq]
  simp only [splitAt, hfor, hget, Option.bind_eq_bind, Option.bind_some] at hs
  split at hs
  · next hoff =>
    obtain ⟨⟨lo, hi⟩, hsplit, hs⟩ := Option.bind_eq_some_iff.mp hs
    obtain rfl := Option.some.inj hs
    have hhalves := h.splitPiece_halves heq hoff.1 hoff.2 hsplit
    have hpieces : s.pieces.take ps.length ++ lo :: hi :: s.pieces.drop (ps.length + 1)
        = ps ++ lo :: hi :: qs := by
      rw [heq, List.take_left, List.drop_length_add_append, List.drop_one, List.tail_cons]
    rw [hpieces]
    refine ⟨h.rebuild (live_halves hhalves (heq ▸ h.live)), ?_, ?_, fun c hc ↦ ?_⟩
    · rw [flatten, flatten, heq]
      exact flatMap_halves ps qs hhalves
    · refine ⟨ps ++ [lo], hi :: qs, by simp [rebuildOffsets], ?_⟩
      rw [extent_append, extent_cons, extent_nil, hhalves.lo_byteLen]
      omega
    · rw [heq] at hc
      exact hc.split hhalves.hi_byteLen
  · obtain rfl := Option.some.inj hs
    refine ⟨h, rfl, ?_, fun _ hc ↦ hc⟩
    rw [heq, show b = extent Piece.byteLen ps by omega]
    exact isCut_append

theorem splitAt_isSome (h : s.Wf file) {b : ℕ} (hb : b < s.totalByteLen)
    (hbound : s.AlignedAt file b) : (s.splitAt b).isSome := by
  obtain ⟨ps, p, qs, heq, hlo, hhi, hfor⟩ := h.pieceForByte_eq hb
  have hget : s.pieces[ps.length]? = some p := by simp [heq]
  simp only [splitAt, hfor, hget, Option.bind_eq_bind, Option.bind_some]
  split
  · next hoff =>
    obtain ⟨⟨lo, hi⟩, hsplit⟩ := Option.isSome_iff_exists.mp <|
      h.splitPiece_isSome_of_alignedAt heq hlo hhi hbound
    rw [hsplit]
    rfl
  · rfl

/-- The halves of a piece are of its kind. -/
theorem splitPiece_bufferId? {ps qs : List Piece} {p lo hi : Piece} {offset : ℕ}
    (heq : s.pieces = ps ++ p :: qs) (hsplit : s.splitPiece ps.length offset = some (lo, hi)) :
    lo.bufferId? = p.bufferId? := by
  have hget : s.pieces[ps.length]? = some p := by simp [heq]
  rw [splitPiece, hget, Option.bind_eq_bind, Option.bind_some] at hsplit
  cases p with
  | original r n =>
    obtain ⟨rfl, -⟩ := Prod.mk.inj (Option.some.inj hsplit)
    rfl
  | inserted id r n =>
    simp only [Option.bind_eq_bind, Option.bind_eq_some_iff] at hsplit
    obtain ⟨buf, -, slice, -, loLen, -, slice', -, hiLen, -, hsplit⟩ := hsplit
    obtain ⟨rfl, -⟩ := Prod.mk.inj (Option.some.inj hsplit)
    rfl

/-- A split leaves the offsets before it aligned. -/
theorem alignedAt_splitAt (h : s.Wf file) {b c : ℕ} (hb : b < s.totalByteLen)
    (hs : s.splitAt b = some s') (hc : c < b) (halign : s.AlignedAt file c) :
    s'.AlignedAt file c := by
  obtain ⟨ps, p, qs, heq, hlo, hhi, hfor⟩ := h.pieceForByte_eq hb
  have hget : s.pieces[ps.length]? = some p := by simp [heq]
  simp only [splitAt, hfor, hget, Option.bind_eq_bind, Option.bind_some] at hs
  split at hs
  swap
  · obtain rfl := Option.some.inj hs
    exact halign
  next hoff =>
  obtain ⟨⟨lo, hi⟩, hsplit, hs⟩ := Option.bind_eq_some_iff.mp hs
  obtain rfl := Option.some.inj hs
  have hhalves := h.splitPiece_halves heq hoff.1 hoff.2 hsplit
  intro us id r n vs heq' hus hn
  rw [heq, List.take_left, List.drop_length_add_append, List.drop_one, List.tail_cons] at heq'
  change ps ++ lo :: hi :: qs = us ++ .inserted id r n :: vs at heq'
  change isCharBoundary (Piece.content file s.buffers _) _ = true
  -- the offset is in a piece before the two halves, or in the first of them
  have hfirst : us = ps → lo = .inserted id r n → isCharBoundary
      (Piece.content file s.buffers (.inserted id r n)) (c - extent Piece.byteLen us) = true := by
    rintro rfl rfl
    have hkind := splitPiece_bufferId? heq hsplit
    have hlen := h.length_content p (by simp [heq])
    cases p with
    | original r' n' => cases hkind
    | inserted id' r' n' =>
      have hp := halign us id' r' n' qs heq hus (by rw [Piece.byteLen] at hhi; omega)
      have hlolen := hhalves.lo_live.length_content
      have hhilen := hhalves.hi_live.length_content
      rw [← hhalves.content_eq] at hp hlen
      have hslice := @isCharBoundary_slice _ (c - extent Piece.byteLen us) 0 n
        (by rw [hlen, ← hhalves.hi_byteLen, Piece.byteLen]; omega) (by omega)
        (by rwa [Nat.zero_add])
      have htake : ∀ more, (Piece.content file s.buffers (.inserted id r n) ++ more).take n
          = Piece.content file s.buffers (.inserted id r n) := fun more ↦ List.take_left' hlolen
      rwa [List.drop_zero, htake] at hslice
  rcases List.append_eq_append_iff.mp heq' with ⟨ws, rfl, hws⟩ | ⟨ws, rfl, hws⟩
  · cases ws with
    | nil => exact hfirst (List.append_nil ps) (List.cons.inj hws).1
    | cons w ws =>
      obtain ⟨rfl, hws⟩ := List.cons.inj hws
      have hlolen := hhalves.lo_byteLen
      rw [extent_append, extent_cons] at hus
      omega
  · cases ws with
    | nil => exact hfirst (List.append_nil us).symm (List.cons.inj hws).1.symm
    | cons w ws =>
      obtain ⟨rfl, hws⟩ := List.cons.inj hws
      exact halign us id r n (ws ++ p :: qs) (by rw [heq, List.append_assoc]; rfl) hus hn

/-- The pieces between two cuts are drained. -/
theorem drain_eq (h : s.Wf file) {start end_ : ℕ} (hle : start ≤ end_)
    (hstart : IsCut Piece.byteLen s.pieces start) (hend : IsCut Piece.byteLen s.pieces end_) :
    ∃ s', s.drain start end_ = some s' ∧ s'.Wf file ∧
      s'.flatten file = (s.flatten file).take start ++ (s.flatten file).drop end_ := by
  obtain ⟨ys, zs, heq, rfl⟩ := hend
  obtain ⟨us, vs, rfl, rfl⟩ := IsCut.of_append hle (heq ▸ hstart)
    fun x hx ↦ h.byteLen_pos x (by simp [heq, hx])
  have hpos := h.byteLen_pos
  have hlen := h.length_content
  have hlast : partitionPoint (· < extent Piece.byteLen (us ++ vs)) s.cumOffsets
      = (us ++ vs).length := by
    rw [h.cumOffsets_eq, heq]
    exact partitionPoint_lt_starts fun x hx ↦ hpos x (by rw [heq]; exact List.mem_append_left _ hx)
  have hfirst : partitionPoint (· < extent Piece.byteLen us) s.cumOffsets = us.length := by
    rw [h.cumOffsets_eq, heq, List.append_assoc]
    exact partitionPoint_lt_starts fun x hx ↦ hpos x (by simp [heq, hx])
  have hpieces : s.pieces.take us.length ++ s.pieces.drop (us ++ vs).length = us ++ zs := by
    rw [heq, List.drop_left, List.append_assoc, List.take_left]
  refine ⟨{ s with pieces := us ++ zs }.rebuildOffsets, ?_, h.rebuild fun x hx ↦ ?_, ?_⟩
  · rw [drain, hlast, hfirst, if_pos ⟨by simp, by simp [heq]⟩, hpieces]
  · refine h.live x ?_
    rw [heq]
    rcases List.mem_append.mp hx with hx | hx <;> simp [hx]
  · show (us ++ zs).flatMap (Piece.content file s.buffers) = _
    rw [flatten, heq, drop_extent fun x hx ↦ hlen x (by rw [heq]; exact List.mem_append_left _ hx),
      List.append_assoc, take_extent fun x hx ↦ hlen x (by simp [heq, hx]), List.flatMap_append]

/-- The two splits of a deletion. -/
theorem splitEnds_eq (h : s.Wf file) {start end_ : ℕ} (hlt : start < end_)
    (hle : end_ ≤ s.totalByteLen) (hs : s.splitEnds start end_ = some s') :
    s'.Wf file ∧ s'.flatten file = s.flatten file ∧ IsCut Piece.byteLen s'.pieces start ∧
      IsCut Piece.byteLen s'.pieces end_ := by
  obtain ⟨s₁, h₁, h₂⟩ := Option.bind_eq_some_iff.mp hs
  obtain ⟨hwf₁, hflat₁, hcut₁⟩ : s₁.Wf file ∧ s₁.flatten file = s.flatten file ∧
      IsCut Piece.byteLen s₁.pieces end_ := by
    split at h₁
    · next hlt' =>
      obtain ⟨hwf, hflat, hcut, -⟩ := h.splitAt_eq hlt' h₁
      exact ⟨hwf, hflat, hcut⟩
    · obtain rfl := Option.some.inj h₁
      refine ⟨h, rfl, ?_⟩
      rw [show end_ = extent Piece.byteLen s.pieces by rw [← h.totalByteLen_eq]; omega]
      exact isCut_extent
  split at h₂
  · have hstart : start < s₁.totalByteLen := by
      rw [← hwf₁.length_flatten, hflat₁, h.length_flatten]
      omega
    obtain ⟨hwf₂, hflat₂, hcut₂, hkeep⟩ := hwf₁.splitAt_eq hstart h₂
    exact ⟨hwf₂, hflat₂.trans hflat₁, hcut₂, hkeep _ hcut₁⟩
  · obtain rfl := Option.some.inj h₂
    obtain rfl : start = 0 := by omega
    exact ⟨hwf₁, hflat₁, isCut_zero, hcut₁⟩

theorem splitEnds_isSome (h : s.Wf file) {start end_ : ℕ} (hlt : start < end_)
    (hle : end_ ≤ s.totalByteLen) (hstart : s.AlignedAt file start)
    (hend : s.AlignedAt file end_) : (s.splitEnds start end_).isSome := by
  obtain ⟨s₁, h₁, hwf₁, hflat₁, hstart₁⟩ : ∃ s₁,
      (if end_ < s.totalByteLen then s.splitAt end_ else some s) = some s₁ ∧ s₁.Wf file ∧
        s₁.flatten file = s.flatten file ∧ s₁.AlignedAt file start := by
    split
    · next hlt' =>
      obtain ⟨s₁, h₁⟩ := Option.isSome_iff_exists.mp (h.splitAt_isSome hlt' hend)
      obtain ⟨hwf, hflat, -⟩ := h.splitAt_eq hlt' h₁
      exact ⟨s₁, h₁, hwf, hflat, h.alignedAt_splitAt hlt' h₁ hlt hstart⟩
    · exact ⟨s, rfl, h, rfl, hstart⟩
  rw [splitEnds, h₁, Option.bind_some]
  split
  · refine hwf₁.splitAt_isSome ?_ hstart₁
    rw [← hwf₁.length_flatten, hflat₁, h.length_flatten]
    omega
  · rfl

/-- A deletion that succeeds takes the range out. -/
theorem delete_ok (h : s.Wf file) {range : ByteRange} (hdel : s.delete range = some (.ok s')) :
    s'.Wf file ∧ s'.flatten file = (s.flatten file).take range.start
      ++ (s.flatten file).drop (max range.start range.end_) := by
  rw [delete] at hdel
  split at hdel
  · cases hdel
  next hend =>
  split at hdel
  · next hge =>
    obtain rfl := Except.ok.inj (Option.some.inj hdel)
    rw [max_eq_left hge, List.take_append_drop]
    exact ⟨h, rfl⟩
  next hlt =>
  obtain ⟨s₁, hsplit, hdel⟩ := Option.bind_eq_some_iff.mp hdel
  obtain ⟨hwf, hflat, hstart, hcut⟩ := h.splitEnds_eq (by omega) (by omega) hsplit
  obtain ⟨s₂, hdrain, hwf₂, hflat₂⟩ := hwf.drain_eq (by omega) hstart hcut
  rw [hdrain] at hdel
  obtain rfl := Except.ok.inj (Option.some.inj hdel)
  rw [max_eq_right (by omega), ← hflat]
  exact ⟨hwf₂, hflat₂⟩

/-- A deletion between boundaries does not panic. -/
theorem delete_isSome (h : s.Wf file) {range : ByteRange} (hstart : s.AlignedAt file range.start)
    (hend : s.AlignedAt file range.end_) : (s.delete range).isSome := by
  rw [delete]
  split
  · rfl
  next hle =>
  split
  · rfl
  next hlt =>
  obtain ⟨s₁, hsplit⟩ := Option.isSome_iff_exists.mp <|
    h.splitEnds_isSome (by omega) (by omega) hstart hend
  obtain ⟨hwf, -, hcut, hcut'⟩ := h.splitEnds_eq (by omega) (by omega) hsplit
  obtain ⟨s₂, hdrain, -⟩ := hwf.drain_eq (by omega) hcut hcut'
  rw [hsplit, Option.bind_eq_bind, Option.bind_some, hdrain]
  rfl

end PieceOverlay.Wf

end EeEditor.Vlf
