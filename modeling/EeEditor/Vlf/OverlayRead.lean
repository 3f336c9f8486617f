import EeEditor.Vlf.OverlaySpec
import EeEditor.Vlf.Store

/-!
# Reads through a piece overlay

The model of `visit_overlay_range_slab` and `overlay_read_exact_range` of
`xi-core-lib/src/vlf/store/overlay.rs`: a range of the edited document is visited in chunks, those
of the file read in slabs of a bounded size, those of the insert buffers as they are. The chunks
are contiguous and make up the range, wherever the slabs and the pieces are cut.

`none` is an error of a read. `Reader` says which reads succeed.
-/

namespace EeEditor.Vlf

variable {σ : Type}

/-- What a visitor does with a chunk at an offset: the next state, and whether to go on. -/
abbrev Visitor (σ : Type) := σ → ℕ → List UInt8 → σ × Bool

/-- `FilePager::read_at`. -/
def readAt (file : List UInt8) (maxReadSize : ℕ) (reads : Reader) (range : ByteRange) :
    Option (List UInt8) :=
  if !reads range.start range.end_ then none
  else if range.len = 0 then some []
  else if range.len > maxReadSize then none
  else if range.end_ > file.length then none
  else some ((file.drop range.start).take range.len)

/-- The loop over the slabs of a range of the file. -/
def visitOriginal (read : ByteRange → Option (List UInt8)) (visitor : Visitor σ)
    (chunkCap fileEnd : ℕ) : ℕ → ℕ → ℕ → σ → Option (σ × Bool)
  | 0, _, _, acc => some (acc, true)
  | fuel + 1, filePos, logicalPos, acc =>
    if filePos < fileEnd then
      let nextFileEnd := min (filePos + chunkCap) fileEnd
      match read ⟨filePos, nextFileEnd⟩ with
      | none => none
      | some chunk =>
        match visitor acc logicalPos chunk with
        | (acc, false) => some (acc, false)
        | (acc, true) => visitOriginal read visitor chunkCap fileEnd fuel nextFileEnd
            (logicalPos + (nextFileEnd - filePos)) acc
    else some (acc, true)

namespace PieceOverlay

/-- Visit the bytes `localStart..localEnd` of a piece that starts at `docPos`. -/
def visitPiece (self : PieceOverlay) (read : ByteRange → Option (List UInt8))
    (visitor : Visitor σ) (chunkCap docPos localStart localEnd : ℕ) (acc : σ) :
    Piece → Option (σ × Bool)
  | .original fileRange _ =>
    visitOriginal read visitor chunkCap (fileRange.start + localEnd) (localEnd - localStart)
      (fileRange.start + localStart) (docPos + localStart) acc
  | .inserted bufferId range byteLen =>
    match self.insertedBytesForPiece (.inserted bufferId range byteLen) with
    | none => some (acc, true)
    | some bytes =>
      let start := min localStart bytes.length
      let end_ := min localEnd bytes.length
      if start < end_ then
        some (visitor acc (docPos + localStart) ((bytes.drop start).take (end_ - start)))
      else some (acc, true)

/-- The loop over the pieces. -/
def visitPieces (self : PieceOverlay) (read : ByteRange → Option (List UInt8))
    (visitor : Visitor σ) (chunkCap : ℕ) (range : ByteRange) : ℕ → List Piece → σ → Option σ
  | _, [], acc => some acc
  | docPos, piece :: pieces, acc =>
    let pieceEnd := docPos + piece.byteLen
    if pieceEnd ≤ range.start then
      self.visitPieces read visitor chunkCap range pieceEnd pieces acc
    else if docPos ≥ range.end_ then some acc
    else
      let localStart := min (range.start - docPos) piece.byteLen
      let localEnd := min (range.end_ - docPos) piece.byteLen
      if localStart ≥ localEnd then
        self.visitPieces read visitor chunkCap range pieceEnd pieces acc
      else
        match self.visitPiece read visitor chunkCap docPos localStart localEnd acc piece with
        | none => none
        | some (acc, false) => some acc
        | some (acc, true) => self.visitPieces read visitor chunkCap range pieceEnd pieces acc

def visitOverlayRangeSlab (self : PieceOverlay) (file : List UInt8) (maxReadSize : ℕ)
    (reads : Reader) (range : ByteRange) (slabCap : ℕ) (visitor : Visitor σ) (acc : σ) :
    Option σ :=
  if range.end_ > self.totalByteLen then none
  else
    self.visitPieces (readAt file maxReadSize reads) visitor (max (min slabCap maxReadSize) 1) range
      0 self.pieces acc

/-- The bytes that `overlay_read_exact_range` visits and decodes. -/
def overlayReadExactRange (self : PieceOverlay) (file : List UInt8) (maxReadSize : ℕ)
    (reads : Reader) (range : ByteRange) : Option (List UInt8) :=
  if range.end_ > self.totalByteLen then none
  else
    self.visitOverlayRangeSlab file maxReadSize reads range (max range.len 1)
      (fun bytes _ chunk ↦ (bytes ++ chunk, true)) []

end PieceOverlay

/-! ## Chunks -/

/-- The chunks follow one another from `pos` on, and none is empty. -/
def Contiguous : ℕ → List (ℕ × List UInt8) → Prop
  | _, [] => True
  | pos, (at_, chunk) :: chunks => at_ = pos ∧ chunk ≠ [] ∧ Contiguous (pos + chunk.length) chunks

/-- The visitor run over chunks, until it stops. -/
def visitAll (visitor : Visitor σ) : List (ℕ × List UInt8) → σ → σ × Bool
  | [], acc => (acc, true)
  | (at_, chunk) :: chunks, acc =>
    match visitor acc at_ chunk with
    | (acc, false) => (acc, false)
    | (acc, true) => visitAll visitor chunks acc

/-- The slabs of a range of the file. -/
def originalChunks (file : List UInt8) (chunkCap fileEnd : ℕ) : ℕ → ℕ → ℕ →
    List (ℕ × List UInt8)
  | 0, _, _ => []
  | fuel + 1, filePos, logicalPos =>
    if filePos < fileEnd then
      let nextFileEnd := min (filePos + chunkCap) fileEnd
      (logicalPos, (file.drop filePos).take (nextFileEnd - filePos)) ::
        originalChunks file chunkCap fileEnd fuel nextFileEnd (logicalPos + (nextFileEnd - filePos))
    else []

/-- The chunks of a piece. -/
def Piece.chunks (file : List UInt8) (buffers : AList fun _ : ℕ ↦ List UInt8)
    (chunkCap docPos localStart localEnd : ℕ) : Piece → List (ℕ × List UInt8)
  | original fileRange _ => originalChunks file chunkCap (fileRange.start + localEnd)
      (localEnd - localStart) (fileRange.start + localStart) (docPos + localStart)
  | inserted bufferId range byteLen => [(docPos + localStart,
      (((inserted bufferId range byteLen).content file buffers).drop localStart).take
        (localEnd - localStart))]

/-- The chunks of a range of the document. -/
def chunksOf (file : List UInt8) (buffers : AList fun _ : ℕ ↦ List UInt8) (chunkCap : ℕ)
    (range : ByteRange) : ℕ → List Piece → List (ℕ × List UInt8)
  | _, [] => []
  | docPos, piece :: pieces =>
    let localStart := min (range.start - docPos) piece.byteLen
    let localEnd := min (range.end_ - docPos) piece.byteLen
    (if localStart ≥ localEnd then []
      else piece.chunks file buffers chunkCap docPos localStart localEnd)
      ++ chunksOf file buffers chunkCap range (docPos + piece.byteLen) pieces

section

variable {chunks chunks' : List (ℕ × List UInt8)} {pos : ℕ} {visitor : Visitor σ} {acc : σ}

theorem Contiguous.append (h : Contiguous pos chunks)
    (h' : Contiguous (pos + (chunks.flatMap (·.2)).length) chunks') :
    Contiguous pos (chunks ++ chunks') := by
  induction chunks generalizing pos with
  | nil => exact h'
  | cons c chunks ih =>
    obtain ⟨rfl, hne, hrest⟩ := h
    refine ⟨rfl, hne, ih hrest ?_⟩
    rwa [List.flatMap_cons, List.length_append, ← Nat.add_assoc] at h'

theorem Contiguous.eq_nil (h : Contiguous pos chunks) (hflat : chunks.flatMap (·.2) = []) :
    chunks = [] := by
  cases chunks with
  | nil => rfl
  | cons c chunks =>
    obtain ⟨-, hne, -⟩ := h
    rw [List.flatMap_cons, List.append_eq_nil_iff] at hflat
    exact absurd hflat.1 hne

theorem visitAll_append : visitAll visitor (chunks ++ chunks') acc
    = match visitAll visitor chunks acc with
      | (acc, false) => (acc, false)
      | (acc, true) => visitAll visitor chunks' acc := by
  induction chunks generalizing acc with
  | nil => rfl
  | cons c chunks ih =>
    rw [List.cons_append, visitAll, visitAll]
    obtain ⟨acc', go⟩ := visitor acc c.1 c.2
    cases go with
    | false => rfl
    | true => exact ih

/-- A visitor that collects the chunks. -/
theorem visitAll_collect (chunks : List (ℕ × List UInt8)) (bytes : List UInt8) :
    visitAll (fun bytes _ chunk ↦ (bytes ++ chunk, true)) chunks bytes
      = (bytes ++ chunks.flatMap (·.2), true) := by
  induction chunks generalizing bytes with
  | nil => simp [visitAll]
  | cons c chunks ih =>
    rw [visitAll]
    dsimp only
    rw [ih, List.flatMap_cons, List.append_assoc]

end

/-! ## Slabs of the file -/

section

variable {file : List UInt8} {chunkCap fileEnd maxReadSize : ℕ}

theorem originalChunks_spec (hcap : 0 < chunkCap) (hend : fileEnd ≤ file.length)
    (fuel filePos logicalPos : ℕ) (hle : filePos ≤ fileEnd) (hfuel : fileEnd - filePos ≤ fuel) :
    (originalChunks file chunkCap fileEnd fuel filePos logicalPos).flatMap (·.2)
        = (file.drop filePos).take (fileEnd - filePos) ∧
      Contiguous logicalPos (originalChunks file chunkCap fileEnd fuel filePos logicalPos) := by
  induction fuel generalizing filePos logicalPos with
  | zero =>
    rw [show fileEnd - filePos = 0 by omega]
    exact ⟨by simp [originalChunks], trivial⟩
  | succ fuel ih =>
    rw [originalChunks]
    split
    · next hlt =>
      have hnext : filePos < min (filePos + chunkCap) fileEnd := by omega
      obtain ⟨hflat, hcont⟩ := ih (min (filePos + chunkCap) fileEnd)
        (logicalPos + (min (filePos + chunkCap) fileEnd - filePos)) (by omega) (by omega)
      have hlen : ((file.drop filePos).take (min (filePos + chunkCap) fileEnd - filePos)).length
          = min (filePos + chunkCap) fileEnd - filePos := by
        rw [List.length_take, List.length_drop]
        omega
      refine ⟨?_, rfl, List.ne_nil_of_length_pos (by omega), ?_⟩
      · rw [List.flatMap_cons, hflat]
        exact take_drop_append hnext.le (by omega)
      · rw [hlen]
        exact hcont
    · rw [show fileEnd - filePos = 0 by omega]
      exact ⟨by simp, trivial⟩

variable {read : ByteRange → Option (List UInt8)} {visitor : Visitor σ}

/-- The reads that succeed return the bytes of the file. -/
def ReadsFile (file : List UInt8) (read : ByteRange → Option (List UInt8)) : Prop :=
  ∀ range bytes, read range = some bytes → bytes = (file.drop range.start).take range.len

/-- The reads of at most `chunkCap` bytes inside the file succeed. -/
def ReadsAll (file : List UInt8) (chunkCap : ℕ) (read : ByteRange → Option (List UInt8)) : Prop :=
  ∀ range, range.end_ ≤ file.length → range.len ≤ chunkCap → (read range).isSome

theorem readsFile_readAt (reads : Reader) : ReadsFile file (readAt file maxReadSize reads) := by
  intro range bytes h
  rw [readAt] at h
  split at h
  · cases h
  split at h
  · next hlen =>
    obtain rfl := Option.some.inj h
    rw [hlen, List.take_zero]
  split at h
  · cases h
  split at h
  · cases h
  · exact (Option.some.inj h).symm

theorem readsAll_readAt {reads : Reader} (hreads : ∀ a b, b - a ≤ maxReadSize → reads a b = true)
    (hcap : chunkCap ≤ maxReadSize) : ReadsAll file chunkCap (readAt file maxReadSize reads) := by
  intro range hend hlen
  rw [readAt, if_neg (by simp [hreads range.start range.end_ (hlen.trans hcap)])]
  split
  · rfl
  · rw [if_neg (by omega), if_neg (by omega)]
    rfl

theorem visitOriginal_eq (hread : ReadsFile file read) (fuel filePos logicalPos : ℕ) (acc : σ)
    {r : σ × Bool}
    (h : visitOriginal read visitor chunkCap fileEnd fuel filePos logicalPos acc = some r) :
    r = visitAll visitor (originalChunks file chunkCap fileEnd fuel filePos logicalPos) acc := by
  induction fuel generalizing filePos logicalPos acc with
  | zero => exact (Option.some.inj h).symm
  | succ fuel ih =>
    rw [visitOriginal] at h
    rw [originalChunks]
    split at h
    · next hlt =>
      rw [if_pos hlt, visitAll]
      cases hbytes : read ⟨filePos, min (filePos + chunkCap) fileEnd⟩ with
      | none =>
        simp only [hbytes] at h
        cases h
      | some chunk =>
        obtain rfl := hread _ _ hbytes
        simp only [hbytes, ByteRange.len] at h
        rcases hv : visitor acc logicalPos
          ((file.drop filePos).take (min (filePos + chunkCap) fileEnd - filePos)) with ⟨acc', go⟩
        rw [hv] at h
        cases go with
        | false => exact (Option.some.inj h).symm
        | true => exact ih _ _ _ h
    · next hge =>
      rw [if_neg hge]
      exact (Option.some.inj h).symm

theorem visitOriginal_isSome (hall : ReadsAll file chunkCap read) (hend : fileEnd ≤ file.length)
    (fuel filePos logicalPos : ℕ) (acc : σ) :
    (visitOriginal read visitor chunkCap fileEnd fuel filePos logicalPos acc).isSome := by
  induction fuel generalizing filePos logicalPos acc with
  | zero => rfl
  | succ fuel ih =>
    rw [visitOriginal]
    split
    · obtain ⟨chunk, hchunk⟩ := Option.isSome_iff_exists.mp <|
        hall ⟨filePos, min (filePos + chunkCap) fileEnd⟩ (by dsimp only; omega)
          (by dsimp only [ByteRange.len]; omega)
      simp only [hchunk]
      obtain ⟨acc', go⟩ := visitor acc logicalPos chunk
      cases go with
      | false => rfl
      | true => exact ih _ _ _
    · rfl

end

/-! ## Pieces -/

section

variable {file : List UInt8} {s : PieceOverlay} {chunkCap docPos localStart localEnd : ℕ}
  {p : Piece} {ps : List Piece} {range : ByteRange} {read : ByteRange → Option (List UInt8)}
  {visitor : Visitor σ}

/-- The chunks of a piece make up its part of the range. -/
theorem Piece.Live.chunks_spec (h : p.Live file s.buffers) (hcap : 0 < chunkCap)
    (hlt : localStart < localEnd) (hle : localEnd ≤ p.byteLen) :
    (p.chunks file s.buffers chunkCap docPos localStart localEnd).flatMap (·.2)
        = ((p.content file s.buffers).drop localStart).take (localEnd - localStart) ∧
      Contiguous (docPos + localStart)
        (p.chunks file s.buffers chunkCap docPos localStart localEnd) := by
  have hlen := h.length_content
  cases p with
  | original r n =>
    obtain ⟨hr, hfile, rfl⟩ := h
    rw [Piece.byteLen] at hle
    have hend : r.start + localEnd ≤ file.length := by omega
    obtain ⟨hflat, hcont⟩ := originalChunks_spec hcap hend (localEnd - localStart)
      (r.start + localStart) (docPos + localStart) (by omega) (by omega)
    refine ⟨?_, hcont⟩
    rw [Piece.chunks, hflat, Piece.content, List.drop_take, List.take_take, List.drop_drop]
    congr 1
    omega
  | inserted id r n =>
    refine ⟨by simp [Piece.chunks], rfl, List.ne_nil_of_length_pos ?_, trivial⟩
    rw [List.length_take, List.length_drop, hlen]
    omega

theorem insertedBytes_eq {id n : ℕ} {r : InsertRange}
    (h : (Piece.inserted id r n).Live file s.buffers) :
    s.insertedBytesForPiece (.inserted id r n)
      = some ((Piece.inserted id r n).content file s.buffers) := by
  obtain ⟨hr, -, bytes, hlookup, hle, -⟩ := h
  rw [PieceOverlay.insertedBytesForPiece, Piece.content, hlookup, Option.getD_some,
    Option.bind_eq_bind, Option.bind_some, sliceBuffer, if_pos ⟨hr.le, hle⟩]

theorem Piece.Live.visitPiece_inserted {id n : ℕ} {r : InsertRange}
    (h : (Piece.inserted id r n).Live file s.buffers) (hlt : localStart < localEnd)
    (hle : localEnd ≤ n) (acc : σ) :
    s.visitPiece read visitor chunkCap docPos localStart localEnd acc (.inserted id r n)
      = some (visitAll visitor
          ((Piece.inserted id r n).chunks file s.buffers chunkCap docPos localStart localEnd)
          acc) := by
  have hlen := h.length_content
  rw [Piece.byteLen] at hlen
  rw [PieceOverlay.visitPiece, insertedBytes_eq h]
  dsimp only
  rw [hlen, min_eq_left (by omega), min_eq_left hle, if_pos hlt, Piece.chunks, visitAll]
  obtain ⟨acc', go⟩ := visitor acc (docPos + localStart)
    (((Piece.inserted id r n).content file s.buffers).drop localStart |>.take
      (localEnd - localStart))
  cases go <;> rfl

theorem Piece.Live.visitPiece_eq (h : p.Live file s.buffers) (hread : ReadsFile file read)
    (hlt : localStart < localEnd) (hle : localEnd ≤ p.byteLen) {acc : σ} {r : σ × Bool}
    (hr : s.visitPiece read visitor chunkCap docPos localStart localEnd acc p = some r) :
    r = visitAll visitor (p.chunks file s.buffers chunkCap docPos localStart localEnd) acc := by
  cases p with
  | original r n => exact visitOriginal_eq hread _ _ _ _ hr
  | inserted id r n =>
    rw [h.visitPiece_inserted hlt hle] at hr
    exact (Option.some.inj hr).symm

theorem Piece.Live.visitPiece_isSome (h : p.Live file s.buffers)
    (hall : ReadsAll file chunkCap read)
    (hlt : localStart < localEnd) (hle : localEnd ≤ p.byteLen) (acc : σ) :
    (s.visitPiece read visitor chunkCap docPos localStart localEnd acc p).isSome := by
  cases p with
  | original r n =>
    obtain ⟨hr, hfile, rfl⟩ := h
    rw [Piece.byteLen] at hle
    exact visitOriginal_isSome hall (by omega) _ _ _ _
  | inserted id r n =>
    rw [h.visitPiece_inserted hlt hle]
    rfl

/-- The chunks make up the range of the document. -/
theorem chunksOf_spec (hlive : ∀ p ∈ ps, p.Live file s.buffers) (hcap : 0 < chunkCap) :
    (chunksOf file s.buffers chunkCap range docPos ps).flatMap (·.2)
        = ((ps.flatMap (Piece.content file s.buffers)).drop (range.start - docPos)).take
          (range.end_ - max docPos range.start) ∧
      Contiguous (max docPos range.start) (chunksOf file s.buffers chunkCap range docPos ps) := by
  induction ps generalizing docPos with
  | nil => exact ⟨by simp [chunksOf], trivial⟩
  | cons p ps ih =>
    have hp := hlive p (by simp)
    have hlen := hp.length_content
    have hpos := hp.byteLen_pos
    obtain ⟨hflat, hcont⟩ := @ih (docPos + p.byteLen) fun x hx ↦ hlive x (by simp [hx])
    have hrest : range.end_ ≤ max (docPos + p.byteLen) range.start →
        chunksOf file s.buffers chunkCap range (docPos + p.byteLen) ps = [] := fun hle ↦ by
      refine hcont.eq_nil ?_
      rw [hflat, Nat.sub_eq_zero_of_le hle, List.take_zero]
    rw [chunksOf, List.flatMap_cons, slice_append, hlen, ← hflat]
    by_cases hge : min (range.start - docPos) p.byteLen ≥ min (range.end_ - docPos) p.byteLen
    · rw [if_pos hge, List.nil_append, Nat.sub_eq_zero_of_le hge, List.take_zero, List.nil_append]
      refine ⟨rfl, ?_⟩
      rcases Nat.lt_or_ge range.start (docPos + p.byteLen) with hlt | hbefore
      · -- the range is empty
        rw [hrest (by omega)]
        trivial
      · rwa [max_eq_right (by omega), ← max_eq_right hbefore]
    · rw [if_neg hge]
      obtain ⟨hflat', hcont'⟩ := hp.chunks_spec hcap (not_le.mp hge) (Nat.min_le_right _ _)
      rw [List.flatMap_append, hflat', show max docPos range.start
        = docPos + min (range.start - docPos) p.byteLen by omega]
      refine ⟨rfl, hcont'.append ?_⟩
      rw [hflat', List.length_take, List.length_drop, hlen]
      rcases Nat.lt_or_ge (docPos + p.byteLen) range.end_ with hend | hend
      · convert hcont using 1
        omega
      · rw [hrest (by omega)]
        trivial

theorem chunksOf_of_ge (h : docPos ≥ range.end_) :
    chunksOf file s.buffers chunkCap range docPos ps = [] := by
  induction ps generalizing docPos with
  | nil => rfl
  | cons p ps ih =>
    rw [chunksOf, if_pos (by simp [Nat.sub_eq_zero_of_le h]), List.nil_append]
    exact ih (h.trans (Nat.le_add_right _ _))

/-- The visitor sees the chunks of the range. -/
theorem visitPieces_eq (hlive : ∀ p ∈ ps, p.Live file s.buffers) (hread : ReadsFile file read)
    {acc acc' : σ} (h : s.visitPieces read visitor chunkCap range docPos ps acc = some acc') :
    acc' = (visitAll visitor (chunksOf file s.buffers chunkCap range docPos ps) acc).1 := by
  induction ps generalizing docPos acc with
  | nil => exact (Option.some.inj h).symm
  | cons p ps ih =>
    have htail : ∀ x ∈ ps, x.Live file s.buffers := fun x hx ↦ hlive x (by simp [hx])
    rw [PieceOverlay.visitPieces] at h
    rw [chunksOf]
    dsimp only at h ⊢
    split at h
    · next hbefore =>
      rw [if_pos (by omega), List.nil_append]
      exact ih htail h
    split at h
    · next hafter =>
      rw [if_pos (by simp [Nat.sub_eq_zero_of_le hafter]), List.nil_append,
        chunksOf_of_ge (by omega)]
      exact (Option.some.inj h).symm
    split at h
    · next hempty =>
      rw [if_pos hempty, List.nil_append]
      exact ih htail h
    next hempty =>
    rw [if_neg hempty, visitAll_append]
    split at h
    · cases h
    · next acc₁ hvisit =>
      rw [← (hlive p (by simp)).visitPiece_eq hread (by omega) (by omega) hvisit]
      exact (Option.some.inj h).symm
    · next acc₁ hvisit =>
      rw [← (hlive p (by simp)).visitPiece_eq hread (by omega) (by omega) hvisit]
      exact ih htail h

theorem visitPieces_isSome (hlive : ∀ p ∈ ps, p.Live file s.buffers)
    (hall : ReadsAll file chunkCap read) (acc : σ) :
    (s.visitPieces read visitor chunkCap range docPos ps acc).isSome := by
  induction ps generalizing docPos acc with
  | nil => rfl
  | cons p ps ih =>
    have htail : ∀ x ∈ ps, x.Live file s.buffers := fun x hx ↦ hlive x (by simp [hx])
    rw [PieceOverlay.visitPieces]
    dsimp only
    split
    · exact ih htail _
    split
    · rfl
    split
    · exact ih htail _
    next hempty =>
    have hsome : (s.visitPiece read visitor chunkCap docPos (min (range.start - docPos) p.byteLen)
        (min (range.end_ - docPos) p.byteLen) acc p).isSome :=
      (hlive p (by simp)).visitPiece_isSome hall (not_le.mp hempty) (Nat.min_le_right _ _) acc
    obtain ⟨⟨acc₁, go⟩, hvisit⟩ := Option.isSome_iff_exists.mp hsome
    rw [hvisit]
    cases go with
    | false => rfl
    | true => exact ih htail _

end

namespace PieceOverlay.Wf

variable {file : List UInt8} {s : PieceOverlay} {maxReadSize : ℕ} {reads : Reader}
  {range : ByteRange}

/-- What a read of a range visits is the range of the document. -/
theorem overlayReadExactRange_eq (h : s.Wf file) {bytes : List UInt8}
    (hread : s.overlayReadExactRange file maxReadSize reads range = some bytes) :
    bytes = ((s.flatten file).drop range.start).take range.len := by
  rw [overlayReadExactRange] at hread
  split at hread
  · cases hread
  rw [visitOverlayRangeSlab] at hread
  split at hread
  · cases hread
  rw [visitPieces_eq h.live (readsFile_readAt reads) hread, visitAll_collect, List.nil_append,
    (chunksOf_spec h.live (by omega)).1, Nat.zero_max, Nat.sub_zero]
  rfl

/-- A read inside the document succeeds when the reads of the file do. -/
theorem overlayReadExactRange_isSome (h : s.Wf file) (hmax : 0 < maxReadSize)
    (hreads : ∀ a b, b - a ≤ maxReadSize → reads a b = true)
    (hend : range.end_ ≤ s.totalByteLen) :
    (s.overlayReadExactRange file maxReadSize reads range).isSome := by
  rw [overlayReadExactRange, if_neg (by omega), visitOverlayRangeSlab, if_neg (by omega)]
  exact visitPieces_isSome h.live (readsAll_readAt hreads (by omega)) _

end PieceOverlay.Wf

end EeEditor.Vlf
