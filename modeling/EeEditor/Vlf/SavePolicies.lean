import EeEditor.Vlf.OverlayRuns
import EeEditor.Vlf.SaveSpec

/-!
# Saves under every policy

A save leaves the document at its destination, whatever the policy, unless the temporary file is the
source itself. That happens when the source is named as the destination with `.swp` appended: the
source is then truncated before it is read.
-/

namespace EeEditor.Vlf

open PieceOverlay

variable {env : Env} {files₀ : Files} {source dest : FilePath} {file : List UInt8}
  {s : PieceOverlay} {policy : VlfSavePolicy}

/-! ## Every policy -/

theorem sameCanonicalPath_spec (lhs rhs : FilePath) {F : Files → Prop}
    (E : VlfSaveError → Files → Prop) :
    FileTriple env F (sameCanonicalPath lhs rhs) (fun same files ↦ F files ∧ (same → lhs = rhs))
      E := by
  intro w hw r w' hr
  obtain ⟨rfl, rfl⟩ := Prod.mk.inj (Option.some.inj hr)
  exact ⟨hw, fun hsame ↦ by simpa using (Bool.and_eq_true_iff.mp hsame).2⟩

/-- The policy applies in place: the destination is the source, and the length is kept or not as the
policy asks. -/
def VlfSavePolicy.InPlace (policy : VlfSavePolicy) (s : PieceOverlay) (source dest : FilePath) :
    Prop :=
  dest = source ∧
    match policy with
    | .sameSizeInPlaceOverwrite => s.totalByteLen = s.originalFileByteLen
    | .tailShift _ => s.totalByteLen ≠ s.originalFileByteLen
    | _ => False

/-- A policy that may be followed in place of another: the same file is written, through the same
temporary file, or it is the policy itself, in place. -/
def VlfSavePolicy.Follows (policy : VlfSavePolicy) (s : PieceOverlay) (source dest : FilePath) :
    VlfSavePolicy → Prop
  | .tempFileRewrite tempDir => policy.finalDest dest = dest ∧
      policy.tempPath dest = buildTempPath dest (tempDir.getD dest.dir)
  | .saveAs path => policy.finalDest dest = path ∧
      policy.tempPath dest = buildTempPath path path.dir
  | p => policy = p ∧ policy.InPlace s source dest

theorem validatedPolicy_spec (env : Env) (s : PieceOverlay) (source dest : FilePath) (size : ℕ)
    (policy : VlfSavePolicy) {F : Files → Prop} (E : VlfSaveError → Files → Prop) :
    FileTriple env F (validatedPolicy s ⟨source, size⟩ dest policy)
      (fun p files ↦ F files ∧ policy.Follows s source dest p) E := by
  cases policy with
  | tempFileRewrite tempDir => exact .pure fun files hF ↦ ⟨hF, rfl, rfl⟩
  | saveAs path => exact .pure fun files hF ↦ ⟨hF, rfl, rfl⟩
  | sameSizeInPlaceOverwrite | tailShift =>
    rw [validatedPolicy]
    split
    · next hsize =>
      refine .bind (sameCanonicalPath_spec dest source E) (fun same ↦ .pure fun files hF ↦ ?_)
        fun e files he ↦ he
      cases same with
      | true => exact ⟨hF.1, rfl, hF.2 rfl, hsize⟩
      | false => exact ⟨hF.1, rfl, rfl⟩
    · exact .pure fun files hF ↦ ⟨hF, rfl, rfl⟩

/-- The temporary file of a policy is not the source, or nothing is read from the source. -/
def VlfSavePolicy.SparesSource (policy : VlfSavePolicy) (source dest : FilePath)
    (s : PieceOverlay) : Prop :=
  policy.tempPath dest ≠ source ∨ ∀ p ∈ s.pieces, p.bufferId?.isSome

theorem streamSaveFromSource_spec (h : s.Wf file) (hfull : env.ReadsFully)
    (hfile : Files.data files₀ source = file) {size : ℕ}
    (hspare : policy.SparesSource source dest s) :
    FileTriple env (· = files₀) (streamSaveFromSource s ⟨source, size⟩ dest policy)
      (fun _ files ↦ Files.data files (policy.finalDest dest) = s.flatten file)
      (Unchanged files₀ (policy.finalDest dest)) := by
  have hspare' := hspare.imp_left Ne.symm
  refine .bind (validatedPolicy_spec env s source dest size policy fun _ _ ↦ False) (fun p ↦ ?_)
    fun e files he ↦ he.elim
  refine .assume (fun _ hF ↦ hF.2) fun hp ↦ ?_
  refine .conseq (F := (· = files₀)) ?_ (fun _ hF ↦ hF.1) (fun _ _ hR ↦ hR) fun _ _ hE ↦ hE
  cases p with
  | tempFileRewrite | saveAs =>
    obtain ⟨hdest, htemp⟩ := hp
    rw [hdest]
    exact streamSaveTempFile_spec h hfull (htemp ▸ hspare') hfile
  | sameSizeInPlaceOverwrite =>
    obtain ⟨rfl, rfl, hsize⟩ := hp
    exact saveSameSizeInPlace_spec h hfull hfile hsize
  | tailShift fallbackTempDir =>
    obtain ⟨rfl, rfl, -⟩ := hp
    exact saveWithTailShift_spec h hfull hfile fallbackTempDir

/-! ## How much is written -/

section

variable {pager : FilePager} {tempPath : FilePath}

/-- Every positioned read that asks for a byte returns fewer than it asks for. -/
def Env.ReadsShort (env : Env) : Prop := ∀ t, ∃ n, env.read t = .short n

theorem readForSave_length (errPath : FilePath) (range : ByteRange) {F : Files → Prop} :
    FileTriple env F (readForSave pager errPath range)
      (fun bytes files ↦ F files ∧ bytes.length ≤ range.len ∧
        (env.ReadsShort → 0 < range.len → bytes.length < range.len))
      fun _ ↦ F := by
  rw [readForSave]
  split
  · next hzero => exact .pure fun files hF ↦ ⟨hF, Nat.zero_le _, fun _ hpos ↦ by omega⟩
  split
  · exact .throw fun files hF ↦ hF
  intro w hw r w' hr
  have hlen : (((w.data pager.canonicalPath).drop range.start).take range.len).length
      ≤ range.len := by
    rw [List.length_take]
    exact Nat.min_le_left _ _
  rw [preadExact] at hr
  split at hr
  · obtain ⟨rfl, rfl⟩ := Prod.mk.inj (Option.some.inj hr)
    exact hw
  · next hall =>
    obtain ⟨rfl, rfl⟩ := Prod.mk.inj (Option.some.inj hr)
    refine ⟨hw, hlen, fun hshort ↦ ?_⟩
    obtain ⟨n, hn⟩ := hshort w.clock
    rw [hall] at hn
    cases hn
  · next missing _ =>
    obtain ⟨rfl, rfl⟩ := Prod.mk.inj (Option.some.inj hr)
    have hle := List.length_take_le
      ((((w.data pager.canonicalPath).drop range.start).take range.len).length - (missing + 1))
      (((w.data pager.canonicalPath).drop range.start).take range.len)
    exact ⟨hw, by omega, fun _ _ ↦ by omega⟩

theorem writeOriginalLoop_length {chunk : ℕ} (hchunk : 0 < chunk)
    (totalBytes end_ fuel pos bytesWritten : ℕ) (hfuel : end_ - pos ≤ fuel) (out : List UInt8) :
    FileTriple env (files₀.Has tempPath out)
      (writeOriginalLoop chunk pager tempPath totalBytes end_ fuel pos bytesWritten)
      (fun _ files ↦ ∃ more, files₀.Has tempPath (out ++ more) files ∧ more.length ≤ end_ - pos ∧
        (env.ReadsShort → pos < end_ → more.length < end_ - pos))
      fun _ ↦ files₀.Around tempPath := by
  induction fuel generalizing pos bytesWritten out with
  | zero =>
    refine .pure fun files hF ↦ ⟨[], by rwa [List.append_nil], Nat.zero_le _, fun _ hlt ↦ ?_⟩
    omega
  | succ fuel ih =>
    rw [writeOriginalLoop]
    split
    · next hlt =>
      refine .bind (readForSave_length tempPath _) (fun raw ↦ ?_) fun e files h ↦ h.1
      refine .assume (fun files h ↦ h.2) fun hread ↦ ?_
      obtain ⟨hraw, hshort⟩ := hread
      refine .bind (.conseq (writeAll_spec tempPath raw out) (fun files h ↦ h.1) (fun _ _ h ↦ h)
        fun _ _ h ↦ h) (fun _ ↦ ?_) fun e files h ↦ h.2
      refine .bind (onProgress_spec _ fun _ _ ↦ False) (fun go ↦ ?_) fun e files h ↦ h.elim
      simp only [ByteRange.len] at hraw hshort
      split
      · refine .conseq (ih _ _ (by omega) (out ++ raw)) (fun _ hF ↦ hF) (fun _ files hF ↦ ?_)
          fun _ _ hE ↦ hE
        obtain ⟨more, hhas, hlen, -⟩ := hF
        refine ⟨raw ++ more, by rwa [← List.append_assoc], ?_, fun hreads _ ↦ ?_⟩
        · rw [List.length_append]
          omega
        · have hless := hshort hreads (by omega)
          rw [List.length_append]
          omega
      · exact .throw fun files h ↦ h.1
    · next hge =>
      refine .pure fun files hF ↦ ⟨[], by rwa [List.append_nil], Nat.zero_le _, fun _ hlt ↦ ?_⟩
      omega

/-- The pieces add at most as many bytes as they have, and fewer if a piece is read short. -/
theorem writePieces_length {ps : List Piece} (hlive : ∀ p ∈ ps, p.Live file s.buffers)
    (bytesWritten : ℕ) (out : List UInt8) :
    FileTriple env (files₀.Has tempPath out) (writePieces s pager tempPath ps bytesWritten)
      (fun _ files ↦ ∃ more, files₀.Has tempPath (out ++ more) files ∧
        more.length ≤ extent Piece.byteLen ps ∧
        (env.ReadsShort → (¬ ∀ p ∈ ps, p.bufferId?.isSome) →
          more.length < extent Piece.byteLen ps))
      fun _ ↦ files₀.Around tempPath := by
  induction ps generalizing bytesWritten out with
  | nil =>
    exact .pure fun files hF ↦ ⟨[], by rwa [List.append_nil], le_rfl,
      fun _ h ↦ absurd (List.forall_mem_nil _) h⟩
  | cons p ps ih =>
    have hp := hlive p (by simp)
    have htail : ∀ m out₁ more₁, out₁ = out ++ more₁ → more₁.length ≤ p.byteLen →
        (env.ReadsShort → ¬ p.bufferId?.isSome → more₁.length < p.byteLen) →
        FileTriple env (files₀.Has tempPath out₁) (writePieces s pager tempPath ps m)
          (fun _ files ↦ ∃ more, files₀.Has tempPath (out ++ more) files ∧
            more.length ≤ extent Piece.byteLen (p :: ps) ∧
            (env.ReadsShort → (¬ ∀ q ∈ p :: ps, q.bufferId?.isSome) →
              more.length < extent Piece.byteLen (p :: ps)))
          fun _ ↦ files₀.Around tempPath := by
      rintro m _ more₁ rfl hmore₁ hless₁
      refine .conseq (ih (fun x hx ↦ hlive x (by simp [hx])) m _) (fun _ hF ↦ hF)
        (fun _ files hF ↦ ?_) fun _ _ hE ↦ hE
      obtain ⟨more, hhas, hlen, hless⟩ := hF
      refine ⟨more₁ ++ more, by rwa [← List.append_assoc], ?_, fun hreads hnot ↦ ?_⟩
      · rw [List.length_append, extent_cons]
        omega
      · rw [List.length_append, extent_cons]
        rw [List.forall_mem_cons, not_and_or] at hnot
        rcases hnot with hnot | hnot
        · have := hless₁ hreads hnot
          omega
        · have := hless hreads hnot
          omega
    cases p with
    | original r n =>
      rw [writePieces]
      refine .bind (writeOriginalLoop_length saveChunkBytes_pos _ _ _ _ _ le_rfl out) (fun m ↦ ?_)
        fun e files h ↦ h
      refine .exists_pre fun more ↦ .assume (fun _ hF ↦ hF.2) fun hboth ↦ ?_
      obtain ⟨hmore, hless⟩ := hboth
      obtain ⟨hlt, -, rfl⟩ := hp
      exact .conseq (htail m _ more rfl hmore fun hreads _ ↦ hless hreads hlt)
        (fun _ hF ↦ hF.1) (fun _ _ hR ↦ hR) fun _ _ hE ↦ hE
    | inserted id r n =>
      rw [writePieces, insertedBytes_eq hp]
      refine .bind (writeAll_spec tempPath _ out) (fun _ ↦ ?_) fun e files h ↦ h.2
      refine .bind (onProgress_spec _ fun _ _ ↦ False) (fun go ↦ ?_) fun e files h ↦ h.elim
      split
      · exact htail _ _ _ rfl hp.length_content.le fun _ h ↦ absurd rfl h
      · exact .throw fun files h ↦ h.1

/-- A save whose reads are short loses bytes without an error. -/
theorem rewriteThrough_short_ne (h : s.Wf file) (hshort : env.ReadsShort)
    (hsome : ¬ ∀ p ∈ s.pieces, p.bufferId?.isSome) (finalDest : FilePath) :
    FileTriple env (· = files₀) (rewriteThrough s pager tempPath finalDest)
      (fun _ files ↦ Files.data files finalDest ≠ s.flatten file)
      fun _ ↦ files₀.Around tempPath := by
  refine .bind (createFile_spec tempPath) (fun _ ↦ ?_) fun e files h ↦ h
  refine .bind (writePieces_length h.live 0 []) (fun _ ↦ ?_) fun e files h ↦ h
  refine .exists_pre fun out ↦ .assume (fun _ hF ↦ hF.2.2 hshort hsome) fun hless ↦ ?_
  refine .conseq (F := files₀.Has tempPath ([] ++ out))
    (.bind (attempt_spec tempPath) (fun _ ↦ rename_spec tempPath finalDest _) fun e files h ↦ h.2.1)
    (fun _ hF ↦ hF.1) (fun _ files hF heq ↦ ?_) fun _ _ hE ↦ hE
  have hlen := congrArg List.length (hF.symm.trans heq)
  rw [List.nil_append, h.length_flatten, h.totalByteLen_eq] at hlen
  omega

end

/-! ## A temporary file that is the source -/

section

variable {chunk : ℕ} {size : ℕ}

/-- The source is read back while it is written: what an original piece adds begins with the byte
that stands at its start by then, if there is one. -/
theorem writeOriginalLoop_self (hchunk : 0 < chunk) (hfull : env.ReadsFully)
    (totalBytes end_ fuel pos bytesWritten : ℕ) (hfuel : end_ - pos ≤ fuel) (out : List UInt8) :
    FileTriple env (files₀.Has source out)
      (writeOriginalLoop chunk ⟨source, size⟩ source totalBytes end_ fuel pos bytesWritten)
      (fun _ files ↦ ∃ more, files₀.Has source (out ++ more) files ∧ more.length ≤ end_ - pos ∧
        (pos < end_ → more.head? = out[pos]?))
      fun _ ↦ files₀.Around source := by
  induction fuel generalizing pos bytesWritten out with
  | zero =>
    refine .pure fun files hF ↦ ⟨[], by rwa [List.append_nil], Nat.zero_le _, fun hlt ↦ ?_⟩
    omega
  | succ fuel ih =>
    rw [writeOriginalLoop]
    split
    · next hlt =>
      refine .bind (readForSave_spec source (fun files hF ↦ hF.2) hfull) (fun raw ↦ ?_)
        fun e files h ↦ h.2.1
      refine .assume (fun files h ↦ h.2) fun hraw ↦ ?_
      refine .bind (.conseq (writeAll_spec source raw out) (fun files h ↦ h.1) (fun _ _ h ↦ h)
        fun _ _ h ↦ h) (fun _ ↦ ?_) fun e files h ↦ h.2
      refine .bind (onProgress_spec _ fun _ _ ↦ False) (fun go ↦ ?_) fun e files h ↦ h.elim
      split
      · refine .conseq (ih _ _ (by omega) (out ++ raw)) (fun _ hF ↦ hF) (fun _ files hF ↦ ?_)
          fun _ _ hE ↦ hE
        obtain ⟨more, hhas, hlen, hhead⟩ := hF
        have hlenraw : raw.length ≤ min (pos + chunk) end_ - pos := by
          rw [hraw, List.length_take]
          exact Nat.min_le_left _ _
        refine ⟨raw ++ more, by rwa [← List.append_assoc], ?_, fun _ ↦ ?_⟩
        · rw [List.length_append]
          omega
        · have hhead' : raw.head? = out[pos]? := by
            rw [hraw, List.head?_take, if_neg (by simp only [ByteRange.len]; omega),
              List.head?_drop]
          cases hcase : raw with
          | cons b raw' => rw [List.cons_append, List.head?_cons, ← hhead', hcase, List.head?_cons]
          | nil =>
            -- Nothing stands at `pos`, hence nothing after it.
            have hend : out.length ≤ pos := by
              rw [← List.getElem?_eq_none_iff, ← hhead', hcase, List.head?_nil]
            rw [List.nil_append, List.getElem?_eq_none hend]
            rcases Nat.lt_or_ge (min (pos + chunk) end_) end_ with hmore | hdone
            · rw [hhead hmore, hcase, List.append_nil]
              exact List.getElem?_eq_none (by omega)
            · rw [List.eq_nil_of_length_eq_zero (by omega : more.length = 0), List.head?_nil]
      · exact .throw fun files h ↦ h.1
    · next hge =>
      refine .pure fun files hF ↦ ⟨[], by rwa [List.append_nil], Nat.zero_le _, fun hlt ↦ ?_⟩
      omega

/-- The first original piece reads what has been written before it. -/
theorem writePieces_self (hfull : env.ReadsFully) {ps qs : List Piece} {r : ByteRange} {n : ℕ}
    (hlive : ∀ p ∈ ps ++ .original r n :: qs, p.Live file s.buffers)
    (hps : ∀ p ∈ ps, p.bufferId?.isSome) (bytesWritten : ℕ) (out : List UInt8) :
    FileTriple env (files₀.Has source out)
      (writePieces s ⟨source, size⟩ source (ps ++ .original r n :: qs) bytesWritten)
      (fun _ files ↦ ∃ m₁ m₂, files₀.Has source
          (out ++ ps.flatMap (Piece.content file s.buffers) ++ m₁ ++ m₂) files ∧
        m₁.head? = (out ++ ps.flatMap (Piece.content file s.buffers))[r.start]? ∧
        m₂.length ≤ extent Piece.byteLen qs)
      fun _ ↦ files₀.Around source := by
  induction ps generalizing bytesWritten out with
  | nil =>
    have hp := hlive (.original r n) (by simp)
    rw [List.flatMap_nil, List.append_nil, List.nil_append, writePieces]
    refine .bind (writeOriginalLoop_self saveChunkBytes_pos hfull _ _ _ _ _ le_rfl out)
      (fun m ↦ ?_) fun e files h ↦ h
    refine .exists_pre fun m₁ ↦ .assume (fun _ hF ↦ hF.2.2) fun hhead ↦ ?_
    refine .conseq (writePieces_length (fun x hx ↦ hlive x (by simp [hx])) m (out ++ m₁))
      (fun _ hF ↦ hF.1) (fun _ files hF ↦ ?_) fun _ _ hE ↦ hE
    obtain ⟨m₂, hhas, hlen, -⟩ := hF
    exact ⟨m₁, m₂, hhas, hhead hp.1, hlen⟩
  | cons p ps ih =>
    have hp := hlive p (by simp)
    rw [List.flatMap_cons, ← List.append_assoc]
    cases p with
    | original r n => exact absurd (hps _ List.mem_cons_self) Bool.false_ne_true
    | inserted id r' n' =>
      rw [List.cons_append, writePieces, insertedBytes_eq hp]
      refine .bind (writeAll_spec source _ out) (fun _ ↦ ?_) fun e files h ↦ h.2
      refine .bind (onProgress_spec _ fun _ _ ↦ False) (fun go ↦ ?_) fun e files h ↦ h.elim
      split
      · exact ih (fun x hx ↦ hlive x (by simp [hx])) (fun x hx ↦ hps x (by simp [hx])) _ _
      · exact .throw fun files h ↦ h.1

end

/-- The invariant of an overlay says of the file only how long it is. -/
theorem PieceOverlay.Wf.of_length (h : s.Wf file) {file' : List UInt8}
    (hlen : file'.length = file.length) : s.Wf file' := by
  refine ⟨fun p hp ↦ ?_, h.cumOffsets_eq, h.totalByteLen_eq, h.original_eq.trans hlen.symm,
    h.active_iff⟩
  have hlive := h.live p hp
  cases p with
  | original r n => exact ⟨hlive.1, hlen ▸ hlive.2.1, hlive.2.2⟩
  | inserted id r n => exact hlive

theorem Piece.content_eq_of_bufferId {p : Piece} (h : p.bufferId?.isSome) (file file' : List UInt8)
    (buffers : AList fun _ : ℕ ↦ List UInt8) :
    p.content file buffers = p.content file' buffers := by
  cases p with
  | original r n => cases h
  | inserted id r n => rfl

/-- The pieces before the first original one. -/
theorem exists_first_original {ps : List Piece} (h : ¬ ∀ p ∈ ps, p.bufferId?.isSome) :
    ∃ ins r n rest, ps = ins ++ .original r n :: rest ∧ ∀ p ∈ ins, p.bufferId?.isSome := by
  induction ps with
  | nil => exact absurd nofun h
  | cons p ps ih =>
    cases p with
    | original r n => exact ⟨[], r, n, ps, rfl, nofun⟩
    | inserted id r n =>
      obtain ⟨ins, r', n', rest, rfl, hins⟩ := ih fun hall ↦ h fun p hp ↦ by
        rcases List.mem_cons.mp hp with rfl | hp
        · rfl
        · exact hall p hp
      refine ⟨.inserted id r n :: ins, r', n', rest, rfl, fun p hp ↦ ?_⟩
      rcases List.mem_cons.mp hp with rfl | hp
      · rfl
      · exact hins p hp

/-- Some file of every length is not saved if the temporary file is the source: the first original
piece is read after the source has been truncated, and is lost or replaced by text inserted before
it. -/
theorem rewriteThrough_self_ne (source : FilePath) (h : s.Wf file)
    (hsome : ¬ ∀ p ∈ s.pieces, p.bufferId?.isSome) :
    ∃ file' : List UInt8, file'.length = file.length ∧
      ∀ {env : Env} {files₀ : Files} {size : ℕ} (finalDest : FilePath), env.ReadsFully →
        FileTriple env (· = files₀) (rewriteThrough s ⟨source, size⟩ source finalDest)
          (fun _ files ↦ Files.data files finalDest ≠ s.flatten file')
          fun _ ↦ files₀.Around source := by
  obtain ⟨ins, r, n, rest, hpieces, hins⟩ := exists_first_original hsome
  let written := ins.flatMap (Piece.content file s.buffers)
  obtain ⟨c, hc⟩ : ∃ c : UInt8, written[r.start]? ≠ some c := by
    by_cases h0 : written[r.start]? = some 0
    · exact ⟨1, by rw [h0]; decide⟩
    · exact ⟨0, h0⟩
  have hlen : (List.replicate file.length c).length = file.length := List.length_replicate
  refine ⟨List.replicate file.length c, hlen, fun {env files₀ size} finalDest hfull ↦ ?_⟩
  have hwf := h.of_length hlen
  have hwritten : ins.flatMap (Piece.content (List.replicate file.length c) s.buffers) = written :=
    List.flatMap_congr fun p hp ↦ Piece.content_eq_of_bufferId (hins p hp) _ _ _
  have hlive := hpieces ▸ hwf.live
  obtain ⟨hlt, hend, rfl⟩ := hlive (.original r n) (by simp)
  refine .bind (createFile_spec source) (fun _ ↦ ?_) fun e files h ↦ h
  refine .bind (R := fun _ files ↦ ∃ m : List UInt8 × List UInt8,
    files₀.Has source (written ++ m.1 ++ m.2) files ∧ m.1.head? = written[r.start]? ∧
      m.2.length ≤ extent Piece.byteLen rest) (E := fun _ ↦ files₀.Around source) ?_ (fun _ ↦ ?_)
    fun e files h ↦ h
  · rw [hpieces]
    refine .conseq (writePieces_self hfull hlive hins 0 []) (fun _ hF ↦ hF) (fun _ files hF ↦ ?_)
      fun _ _ hE ↦ hE
    obtain ⟨m₁, m₂, hhas, hhead, hm₂⟩ := hF
    rw [List.nil_append, hwritten] at hhas hhead
    exact ⟨(m₁, m₂), hhas, hhead, hm₂⟩
  refine .exists_pre fun ⟨m₁, m₂⟩ ↦ .assume (fun _ hF ↦ hF.2) fun ⟨hhead, hm₂⟩ ↦ ?_
  dsimp only at hhead hm₂ ⊢
  refine .conseq (F := files₀.Has source (written ++ m₁ ++ m₂))
    (.bind (attempt_spec source) (fun _ ↦ rename_spec source finalDest _) fun e files h ↦ h.2.1)
    (fun _ hF ↦ hF.1) (fun _ files hF heq ↦ ?_) fun _ _ hE ↦ hE
  have hflat : s.flatten (List.replicate file.length c)
      = written ++ (List.replicate (r.end_ - r.start) c
        ++ rest.flatMap (Piece.content (List.replicate file.length c) s.buffers)) := by
    have hslice : ((List.replicate file.length c).drop r.start).take (r.end_ - r.start)
        = List.replicate (r.end_ - r.start) c := by
      rw [List.drop_replicate, List.take_replicate]
      congr 1
      omega
    rw [PieceOverlay.flatten, hpieces, List.flatMap_append, hwritten, List.flatMap_cons,
      Piece.content, hslice]
  rw [hF, hflat, List.append_assoc] at heq
  have htail := List.append_cancel_left heq
  cases m₁ with
  | cons b m₁ =>
    obtain ⟨k, hk⟩ : ∃ k, r.end_ - r.start = k + 1 := ⟨r.end_ - r.start - 1, by omega⟩
    rw [hk, List.replicate_succ, List.cons_append, List.cons_append] at htail
    exact hc (hhead.symm.trans (by rw [List.head?_cons, (List.cons.inj htail).1]))
  | nil =>
    have hlens := congrArg List.length htail
    have hrest : (rest.flatMap (Piece.content (List.replicate file.length c) s.buffers)).length
        = extent Piece.byteLen rest :=
      length_flatMap_extent fun p hp ↦ (hlive p (by simp [hp])).length_content
    rw [List.nil_append, List.length_append, List.length_replicate, hrest] at hlens
    omega

/-! ## Saves that end -/

/-- Every operation succeeds and nothing is cancelled. -/
structure Env.Obliging (env : Env) : Prop where
  read : ∀ t, env.read t ≠ .fails
  write_all : ∀ t, env.write t = .all
  ok : ∀ t, env.ok t = true
  progress : ∀ t p, env.progress t p = true

section

variable {E : VlfSaveError → Prop} (hE : (∀ e, E e) ∨ env.Obliging) {pager : FilePager}

include hE

theorem attempt_ends (path : FilePath) : Ends env E (attempt path) := by
  refine fun w ↦ ⟨_, _, rfl, fun e he ↦ ?_⟩
  rcases hE with hE | henv
  · exact hE e
  · rw [henv.ok] at he
    cases he

theorem createFile_ends (path : FilePath) : Ends env E (createFile path) := by
  intro w
  rw [createFile]
  split
  · exact ⟨_, _, rfl, fun e he ↦ by cases he⟩
  · next hok => exact ⟨_, _, rfl, fun e _ ↦ hE.elim (· e) fun henv ↦ absurd (henv.ok _) hok⟩

theorem rename_ends (src dst : FilePath) : Ends env E (rename src dst) := by
  intro w
  rw [rename]
  split
  · exact ⟨_, _, rfl, fun e he ↦ by cases he⟩
  · next hok => exact ⟨_, _, rfl, fun e _ ↦ hE.elim (· e) fun henv ↦ absurd (henv.ok _) hok⟩

theorem writeAll_ends (path : FilePath) (bytes : List UInt8) :
    Ends env E (writeAll path bytes) := by
  intro w
  rw [writeAll]
  split
  · exact ⟨_, _, rfl, fun e he ↦ by cases he⟩
  · next n hn =>
    refine ⟨_, _, rfl, fun e _ ↦ hE.elim (· e) fun henv ↦ ?_⟩
    rw [henv.write_all] at hn
    cases hn

theorem readForSave_ends (errPath : FilePath) {range : ByteRange}
    (h : range.end_ ≤ pager.fileSize) :
    Ends env E (readForSave pager errPath range) := by
  rw [readForSave, if_neg (not_lt.mpr h)]
  split
  · exact .pure _
  intro w
  rw [preadExact]
  split
  · next hn => exact ⟨_, _, rfl, fun e _ ↦ hE.elim (· e) fun henv ↦ absurd hn (henv.read _)⟩
  · exact ⟨_, _, rfl, fun e he ↦ by cases he⟩
  · exact ⟨_, _, rfl, fun e he ↦ by cases he⟩

/-- What follows a report of the progress runs unless it is cancelled. -/
theorem onProgress_ends {α : Type} {x : Save α} (hx : Ends env E x) (progress : SaveProgress) :
    Ends env E (do
      let go ← onProgress progress
      if go then x else .throw .cancelled) := by
  intro w
  obtain ⟨r, w', hr, hre⟩ := hx w.tick
  cases hgo : env.progress w.clock progress with
  | true =>
    refine ⟨r, w', ?_, hre⟩
    rw [← hr]
    simp only [bind, onProgress, hgo, if_true]
  | false =>
    refine ⟨.error .cancelled, w.tick, ?_, fun e _ ↦ hE.elim (· e) fun henv ↦ ?_⟩
    · simp only [bind, onProgress, hgo]
      rfl
    · rw [henv.progress] at hgo
      cases hgo

theorem writeOriginalLoop_ends (chunk : ℕ) (tempPath : FilePath) (totalBytes : ℕ) {end_ : ℕ}
    (hend : end_ ≤ pager.fileSize) (fuel pos bytesWritten : ℕ) :
    Ends env E (writeOriginalLoop chunk pager tempPath totalBytes end_ fuel pos bytesWritten) := by
  induction fuel generalizing pos bytesWritten with
  | zero => exact .pure _
  | succ fuel ih =>
    rw [writeOriginalLoop]
    split
    · refine .bind (readForSave_ends hE tempPath ((Nat.min_le_right _ _).trans hend)) fun raw ↦ ?_
      exact .bind (writeAll_ends hE tempPath raw) fun _ ↦ onProgress_ends hE (ih _ _) _
    · exact .pure _

theorem writePieces_ends (hsize : file.length = pager.fileSize) (tempPath : FilePath)
    {ps : List Piece} (hlive : ∀ p ∈ ps, p.Live file s.buffers) (bytesWritten : ℕ) :
    Ends env E (writePieces s pager tempPath ps bytesWritten) := by
  induction ps generalizing bytesWritten with
  | nil => exact .pure _
  | cons p ps ih =>
    have hp := hlive p (by simp)
    have htail := ih fun x hx ↦ hlive x (by simp [hx])
    cases p with
    | original r n =>
      rw [writePieces]
      exact .bind (writeOriginalLoop_ends hE _ _ _ (hsize ▸ hp.2.1) _ _ _) htail
    | inserted id r n =>
      rw [writePieces, insertedBytes_eq hp]
      exact .bind (writeAll_ends hE _ _) fun _ ↦ onProgress_ends hE (htail _) _

theorem streamSaveTempFile_ends (h : s.Wf file) (hsize : file.length = pager.fileSize)
    (finalDest : FilePath) (tempDir : Option (List String)) :
    Ends env E (streamSaveTempFile s pager finalDest tempDir) := by
  intro w
  have hends : Ends env E (rewriteThrough s pager
      (buildTempPath finalDest (tempDir.getD finalDest.dir)) finalDest) :=
    .bind (createFile_ends hE _) fun _ ↦ .bind (writePieces_ends hE hsize _ h.live 0) fun _ ↦
      .bind (attempt_ends hE _) fun _ ↦ rename_ends hE _ _
  obtain ⟨r, w', hr, hre⟩ := hends w
  rw [streamSaveTempFile, hr]
  cases r with
  | ok u => exact ⟨_, _, rfl, fun e he ↦ by cases he⟩
  | error e => exact ⟨_, _, rfl, fun e' he ↦ hre e' he⟩

end

section

variable {pager : FilePager}

theorem preadExact_ends (path errPath : FilePath) (offset len : ℕ) :
    Ends env (fun _ ↦ True) (preadExact path errPath offset len) := by
  intro w
  rw [preadExact]
  split <;> exact ⟨_, _, rfl, fun _ _ ↦ trivial⟩

theorem pwriteAll_ends (path : FilePath) (offset : ℕ) (bytes : List UInt8) :
    Ends env (fun _ ↦ True) (pwriteAll path offset bytes) := by
  intro w
  rw [pwriteAll]
  split <;> exact ⟨_, _, rfl, fun _ _ ↦ trivial⟩

theorem openFile_ends (path : FilePath) : Ends env (fun _ ↦ True) (openFile path) := by
  intro w
  rw [openFile]
  split <;> exact ⟨_, _, rfl, fun _ _ ↦ trivial⟩

theorem setLen_ends (path : FilePath) (len : ℕ) : Ends env (fun _ ↦ True) (setLen path len) := by
  intro w
  rw [setLen]
  split <;> exact ⟨_, _, rfl, fun _ _ ↦ trivial⟩

theorem collectPieces_ends (range : ByteRange) {ps : List Piece}
    (hlive : ∀ p ∈ ps, p.Live file s.buffers) (logicalStart : ℕ) (out : List UInt8) :
    Ends env (fun _ ↦ True) (collectPieces s pager range ps logicalStart out) := by
  induction ps generalizing logicalStart out with
  | nil => exact .pure _
  | cons p ps ih =>
    have hp := hlive p (by simp)
    have htail := ih fun x hx ↦ hlive x (by simp [hx])
    rw [collectPieces]
    dsimp only
    split
    · exact htail _ _
    split
    · exact .pure _
    cases p with
    | original r n =>
      refine .bind ?_ fun bytes ↦ htail _ _
      rw [readForSave]
      split
      · exact .pure _
      split
      · exact .throw trivial
      · exact preadExact_ends _ _ _ _
    | inserted id r n =>
      have hlen := hp.length_content
      dsimp only
      rw [insertedBytes_eq hp]
      dsimp only
      rw [if_pos (by rw [hlen]; simp only [Piece.byteLen] at *; omega)]
      exact htail _ _

theorem collectLogicalRangeBytes_ends (h : s.Wf file) (range : ByteRange) :
    Ends env (fun _ ↦ True) (collectLogicalRangeBytes s pager range) := by
  rw [collectLogicalRangeBytes]
  split
  · exact .throw trivial
  · exact collectPieces_ends range h.live _ _

theorem shiftTailRight_ends (path : FilePath) (tailStart delta fuel end_ : ℕ) :
    Ends env (fun _ ↦ True) (shiftTailRight path tailStart delta fuel end_) := by
  induction fuel generalizing end_ with
  | zero => exact .pure _
  | succ fuel ih =>
    rw [shiftTailRight]
    split
    · exact .bind (preadExact_ends _ _ _ _) fun _ ↦ .bind (pwriteAll_ends _ _ _) fun _ ↦ ih _
    · exact .pure _

theorem shiftTailLeft_ends (path : FilePath) (oldLen delta fuel start : ℕ) :
    Ends env (fun _ ↦ True) (shiftTailLeft path oldLen delta fuel start) := by
  induction fuel generalizing start with
  | zero => exact .pure _
  | succ fuel ih =>
    rw [shiftTailLeft]
    split
    · exact .bind (preadExact_ends _ _ _ _) fun _ ↦ .bind (pwriteAll_ends _ _ _) fun _ ↦ ih _
    · exact .pure _

theorem shiftAndWrite_ends (plan : SaveOptimizationPlan) (path : FilePath) (changed : List UInt8) :
    Ends env (fun _ ↦ True) (shiftAndWrite s plan path changed) := by
  rw [shiftAndWrite]
  split
  · exact .bind (setLen_ends _ _) fun _ ↦ .bind (shiftTailRight_ends _ _ _ _ _) fun _ ↦
      pwriteAll_ends _ _ _
  · exact .bind (pwriteAll_ends _ _ _) fun _ ↦ .bind (shiftTailLeft_ends _ _ _ _ _) fun _ ↦
      setLen_ends _ _

/-- What is left to do once the changes are written. -/
theorem reportDone_ends (path : FilePath) (progress : SaveProgress) :
    Ends env (fun _ ↦ True) (do
      attempt path
      let _ ← onProgress progress
      pure ()) :=
  .bind (attempt_ends (.inl fun _ ↦ trivial) path) fun _ ↦
    .bind (fun _ ↦ ⟨_, _, rfl, nofun⟩) fun _ ↦ .pure _

theorem validatedPolicy_ends (env : Env) (E : VlfSaveError → Prop) (s : PieceOverlay)
    (pager : FilePager) (dest : FilePath) (policy : VlfSavePolicy) :
    Ends env E (validatedPolicy s pager dest policy) := by
  have hsame : Ends env E (sameCanonicalPath dest pager.canonicalPath) :=
    fun w ↦ ⟨_, _, rfl, nofun⟩
  cases policy with
  | tempFileRewrite | saveAs => exact .pure _
  | sameSizeInPlaceOverwrite | tailShift =>
    rw [validatedPolicy]
    split
    · exact .bind hsame fun _ ↦ .pure _
    · exact .pure _

/-- No save panics. -/
theorem streamSaveFromSource_ends (h : s.Wf file) (hsize : file.length = pager.fileSize)
    (dest : FilePath) (policy : VlfSavePolicy) :
    Ends env (fun _ ↦ True) (streamSaveFromSource s pager dest policy) := by
  have htrue : (∀ _ : VlfSaveError, True) ∨ env.Obliging := .inl fun _ ↦ trivial
  refine .bind (validatedPolicy_ends env _ s pager dest policy) fun p ↦ ?_
  cases p with
  | tempFileRewrite | saveAs => exact streamSaveTempFile_ends htrue h hsize _ _
  | sameSizeInPlaceOverwrite =>
    dsimp only
    rw [saveSameSizeInPlace]
    split
    · exact streamSaveTempFile_ends htrue h hsize _ _
    · refine onProgress_ends htrue (.bind (collectLogicalRangeBytes_ends h _) fun changed ↦ ?_) _
      exact .bind (openFile_ends _) fun _ ↦ .bind (pwriteAll_ends _ _ _) fun _ ↦
        reportDone_ends _ _
  | tailShift fallbackTempDir =>
    dsimp only
    rw [saveWithTailShift]
    split
    · exact streamSaveTempFile_ends htrue h hsize _ _
    · refine onProgress_ends htrue (.bind (collectLogicalRangeBytes_ends h _) fun changed ↦ ?_) _
      exact .bind (openFile_ends _) fun _ ↦ .bind (shiftAndWrite_ends _ _ _) fun _ ↦
        reportDone_ends _ _

end

/-! ## What is saved -/

/-- What a save of a document is to do when its reads are not short: the document is at the
destination if the save succeeds, and the destination is as it was if it is cancelled. -/
def SavesDocument (s : PieceOverlay) (source dest : FilePath) (policy : VlfSavePolicy)
    (file doc : List UInt8) : Prop :=
  ∀ (env : Env) (files : Files) (clock : ℕ) (r : Except VlfSaveError Unit) (w : World),
    env.ReadsFully → files.lookup source = some file →
    streamSaveFromSource s ⟨source, file.length⟩ dest policy env ⟨files, clock⟩ = some (r, w) →
    (r = .ok () → w.data (policy.finalDest dest) = doc) ∧
      (r = .error .cancelled →
        w.files.lookup (policy.finalDest dest) = files.lookup (policy.finalDest dest))

/-- What a save is to do whatever its reads return. -/
def LosesNothing (env : Env) (s : PieceOverlay) (source dest : FilePath) (policy : VlfSavePolicy)
    (file doc : List UInt8) : Prop :=
  ∀ (files : Files) (clock : ℕ), files.lookup source = some file →
    ∃ r w, streamSaveFromSource s ⟨source, file.length⟩ dest policy env ⟨files, clock⟩
        = some (r, w) ∧
      (r = .ok () → (w.data (policy.finalDest dest)).length = s.totalByteLen ∧
        w.data (policy.finalDest dest) = doc)

theorem PieceOverlay.Reachable.of_length {limits : OverlayLimits} {pieceSize : ℕ}
    {doc file' : List UInt8} (h : Reachable file limits pieceSize s doc)
    (hlen : file'.length = file.length) : ∃ doc', Reachable file' limits pieceSize s doc' := by
  induction h with
  | new => exact ⟨file', hlen ▸ .new⟩
  | insertOk _ hins ih =>
    obtain ⟨doc', ih⟩ := ih
    exact ⟨_, ih.insertOk hins⟩
  | insertErr _ hins ih =>
    obtain ⟨doc', ih⟩ := ih
    exact ⟨_, ih.insertErr hins⟩
  | deleteOk _ hdel ih =>
    obtain ⟨doc', ih⟩ := ih
    exact ⟨_, ih.deleteOk hdel⟩
  | deleteErr _ hdel ih =>
    obtain ⟨doc', ih⟩ := ih
    exact ⟨_, ih.deleteErr hdel⟩
  | gc _ undoGroup ih =>
    obtain ⟨doc', ih⟩ := ih
    exact ⟨_, ih.gc undoGroup⟩

/-- An environment in which every operation succeeds, with one outcome for every read. -/
def Env.uniform (read : ReadOutcome) : Env :=
  ⟨fun _ ↦ read, fun _ ↦ .all, fun _ ↦ true, fun _ _ ↦ true⟩

theorem Env.uniform_obliging {read : ReadOutcome} (h : read ≠ .fails) :
    (Env.uniform read).Obliging := ⟨fun _ ↦ h, fun _ ↦ rfl, fun _ ↦ rfl, fun _ _ ↦ rfl⟩

theorem Env.uniform_readsFully : (Env.uniform .all).ReadsFully := nofun

/-- A save that does not change the source in place goes through its temporary file. -/
theorem streamSaveFromSource_eq (env : Env) (s : PieceOverlay) (size : ℕ)
    (hplace : ¬ policy.InPlace s source dest) (w : World) :
    ∃ tempDir w₁, streamSaveFromSource s ⟨source, size⟩ dest policy env w
        = streamSaveTempFile s ⟨source, size⟩ (policy.finalDest dest) tempDir env w₁ ∧
      w₁.files = w.files ∧ policy.tempPath dest
        = buildTempPath (policy.finalDest dest) (tempDir.getD (policy.finalDest dest).dir) := by
  obtain ⟨r, w₁, hrun, hends⟩ := validatedPolicy_ends env (fun _ ↦ False) s
    ⟨source, size⟩ dest policy w
  have hspec := validatedPolicy_spec env s source dest size policy (F := (· = w.files))
    (fun _ _ ↦ True) w rfl r w₁ hrun
  cases r with
  | error e => exact (hends e rfl).elim
  | ok p =>
    obtain ⟨hfiles, hp⟩ := hspec
    cases p with
    | tempFileRewrite tempDir =>
      have heq : streamSaveFromSource s ⟨source, size⟩ dest policy env w
          = streamSaveTempFile s ⟨source, size⟩ dest tempDir env w₁ := Action.bind_ok hrun
      exact ⟨tempDir, w₁, by rw [heq, hp.1], hfiles, by rw [hp.1, hp.2]⟩
    | saveAs path =>
      have heq : streamSaveFromSource s ⟨source, size⟩ dest policy env w
          = streamSaveTempFile s ⟨source, size⟩ path none env w₁ := Action.bind_ok hrun
      exact ⟨none, w₁, by rw [heq, hp.1], hfiles, by rw [hp.1, hp.2]; rfl⟩
    | sameSizeInPlaceOverwrite => exact absurd hp.2 hplace
    | tailShift fallbackTempDir => exact absurd hp.2 hplace

/-- A save that goes wrong through the temporary file goes wrong when every operation succeeds. -/
theorem exists_lost (files₀ : Files) (h : s.Wf file) {read : ReadOutcome} (hread : read ≠ .fails)
    (hplace : ¬ policy.InPlace s source dest)
    (hwrong : FileTriple (Env.uniform read) (· = files₀)
      (rewriteThrough s ⟨source, file.length⟩ (policy.tempPath dest) (policy.finalDest dest))
      (fun _ files ↦ Files.data files (policy.finalDest dest) ≠ s.flatten file)
      fun _ ↦ files₀.Around (policy.tempPath dest))
    (clock : ℕ) :
    ∃ w, streamSaveFromSource s ⟨source, file.length⟩ dest policy (Env.uniform read)
        ⟨files₀, clock⟩ = some (.ok (), w) ∧
      w.data (policy.finalDest dest) ≠ s.flatten file := by
  obtain ⟨tempDir, w₁, heq, hfiles, htemp⟩ :=
    streamSaveFromSource_eq (.uniform read) s file.length hplace ⟨files₀, clock⟩
  rw [htemp] at hwrong
  have htotal : Ends (.uniform read) (fun _ ↦ False)
      (streamSaveTempFile s ⟨source, file.length⟩ (policy.finalDest dest) tempDir) :=
    streamSaveTempFile_ends (.inr (Env.uniform_obliging hread)) h rfl _ _
  obtain ⟨r, w, hrun, hends⟩ := htotal w₁
  have hQ := streamSaveTempFile_triple hwrong w₁ hfiles r w hrun
  rw [heq]
  cases r with
  | ok u => exact ⟨w, hrun, hQ⟩
  | error e => exact (hends e rfl).elim

/-- The temporary file is not the source of a save in place. -/
theorem VlfSavePolicy.InPlace.tempPath_ne (h : policy.InPlace s source dest) :
    policy.tempPath dest ≠ source := by
  obtain ⟨rfl, hpolicy⟩ := h
  cases policy with
  | tempFileRewrite tempDir => exact hpolicy.elim
  | saveAs path => exact hpolicy.elim
  | sameSizeInPlaceOverwrite => exact (finalDest_ne_buildTempPath _ _).symm
  | tailShift fallbackTempDir => exact (finalDest_ne_buildTempPath _ _).symm

/-- If the temporary file is the source and something is read from the source, some file is not
saved. -/
theorem exists_lost_of_tempPath_eq (h : s.Wf file) (htemp : policy.tempPath dest = source)
    (hsome : ¬ ∀ p ∈ s.pieces, p.bufferId?.isSome) :
    ∃ file' : List UInt8, file'.length = file.length ∧ ∀ (files : Files) (clock : ℕ),
      ∃ w, streamSaveFromSource s ⟨source, file'.length⟩ dest policy (Env.uniform .all)
          ⟨files, clock⟩ = some (.ok (), w) ∧
        w.data (policy.finalDest dest) ≠ s.flatten file' := by
  obtain ⟨file', hlen, hne⟩ := rewriteThrough_self_ne source h hsome
  refine ⟨file', hlen, fun files clock ↦ ?_⟩
  have hread : ReadOutcome.all ≠ .fails := nofun
  refine exists_lost files (h.of_length hlen) hread (fun hplace ↦ hplace.tempPath_ne htemp) ?_ clock
  rw [htemp]
  exact hne _ Env.uniform_readsFully

/-- Every policy saves the document of an overlay, and keeps the destination of a save that is
cancelled, exactly when the temporary file is not the source or nothing is read from the source. -/
theorem PieceOverlay.Reachable.savesDocument_iff {limits : OverlayLimits} {pieceSize : ℕ}
    {doc₀ : List UInt8} (h : Reachable file limits pieceSize s doc₀) (source dest : FilePath)
    (policy : VlfSavePolicy) :
    (∀ file' doc, file'.length = file.length → Reachable file' limits pieceSize s doc →
      SavesDocument s source dest policy file' doc) ↔
    policy.tempPath dest ≠ source ∨ ∀ p ∈ s.pieces, p.bufferId?.isSome := by
  constructor
  · intro hsaves
    by_contra hnot
    obtain ⟨htemp, hsome⟩ := not_or.mp hnot
    obtain ⟨file', hlen, hlost⟩ := exists_lost_of_tempPath_eq h.wf.1 (not_not.mp htemp) hsome
    obtain ⟨doc, hreach⟩ := h.of_length hlen
    obtain ⟨w, hrun, hne⟩ := hlost ((∅ : Files).insert source file') 0
    have hsaved := hsaves file' doc hlen hreach _ _ _ _ _ Env.uniform_readsFully
      (AList.lookup_insert _) hrun
    exact hne ((hsaved.1 rfl).trans hreach.wf.2.symm)
  · rintro hspare file' doc - hreach env files clock r w hfull hfile hrun
    obtain ⟨hwf, rfl⟩ := hreach.wf
    have hdata : Files.data files source = file' := by rw [Files.data, hfile, Option.getD_some]
    have hspec := streamSaveFromSource_spec hwf hfull hdata hspare ⟨files, clock⟩ rfl r w hrun
    cases r with
    | ok u => exact ⟨fun _ ↦ hspec, fun he ↦ by cases he⟩
    | error e => exact ⟨fun hok ↦ (by cases hok), fun he ↦ hspec (Except.error.inj he)⟩

/-- The file `abc`, with a letter typed before it, is saved over itself through `foo.swp`. -/
theorem PieceOverlay.Reachable.savesDocument_typed :
    ∃ s, Reachable [97, 98, 99] {} 56 s [88, 97, 98, 99] ∧
      SavesDocument s ⟨["d"], "foo"⟩ ⟨["d"], "foo"⟩ (.tempFileRewrite none) [97, 98, 99]
        [88, 97, 98, 99] := by
  have hrun : ((withLimits 3 {}).insertInGroup 56 0 [88] ⟨1, 1⟩).map Prod.fst = some (.ok ()) :=
    rfl
  obtain ⟨⟨r, s⟩, hins, rfl⟩ := Option.map_eq_some_iff.mp hrun
  have hnew : Reachable [97, 98, 99] {} 56 (withLimits 3 {}) [97, 98, 99] := .new
  have hreach := hnew.insertOk hins
  exact ⟨s, hreach, (hreach.savesDocument_iff _ _ _).mpr (.inl (by decide)) _ _ rfl hreach⟩

/-- The file `foo.swp` with `XYZ` inserted before `abc`, saved as `foo`, becomes `XYZXYZ`. -/
theorem saveAs_of_swp_lost : ∃ s, Reachable [97, 98, 99] {} 56 s [88, 89, 90, 97, 98, 99] ∧
    ¬ SavesDocument s ⟨["d"], "foo.swp"⟩ ⟨["d"], "foo"⟩ (.saveAs ⟨["d"], "foo"⟩) [97, 98, 99]
      [88, 89, 90, 97, 98, 99] := by
  have hrun : ((withLimits 3 {}).insertInGroup 56 0 [88, 89, 90] ⟨1, 1⟩).bind (fun x ↦
      (streamSaveFromSource x.2 ⟨⟨["d"], "foo.swp"⟩, 3⟩ ⟨["d"], "foo"⟩ (.saveAs ⟨["d"], "foo"⟩)
        (.uniform .all) ⟨(∅ : Files).insert ⟨["d"], "foo.swp"⟩ [97, 98, 99], 0⟩).map fun y ↦
          (x.1, y.1, y.2.data ⟨["d"], "foo"⟩))
      = some (.ok (), .ok (), [88, 89, 90, 88, 89, 90]) := rfl
  obtain ⟨⟨r, s⟩, hins, hrun⟩ := Option.bind_eq_some_iff.mp hrun
  obtain ⟨⟨r', w⟩, hsave, heq⟩ := Option.map_eq_some_iff.mp hrun
  simp only [Prod.mk.injEq] at heq
  obtain ⟨rfl, rfl, hdata⟩ := heq
  have hnew : Reachable [97, 98, 99] {} 56 (withLimits 3 {}) [97, 98, 99] := .new
  refine ⟨s, hnew.insertOk hins, fun hsaves ↦ ?_⟩
  have hsaved := (hsaves _ _ _ _ _ Env.uniform_readsFully (AList.lookup_insert _) hsave).1 rfl
  exact absurd (hdata.symm.trans hsaved) (by decide)

/-- Text appended to a file of one byte. -/
theorem exists_appended : ∃ s doc, Reachable [0] {} 56 s doc ∧
    (¬ ∀ p ∈ s.pieces, p.bufferId?.isSome) ∧ s.totalByteLen ≠ s.originalFileByteLen := by
  have hrun : ((withLimits 1 {}).insertInGroup 56 1 [97] ⟨1, 1⟩).map (fun x ↦ (x.1,
      x.2.pieces.all (·.bufferId?.isSome), x.2.totalByteLen, x.2.originalFileByteLen))
      = some (.ok (), false, 2, 1) := rfl
  obtain ⟨⟨r, s⟩, hins, heq⟩ := Option.map_eq_some_iff.mp hrun
  simp only [Prod.mk.injEq] at heq
  obtain ⟨rfl, hall, htotal, horig⟩ := heq
  have hnew : Reachable [0] {} 56 (withLimits 1 {}) [0] := .new
  refine ⟨s, _, hnew.insertOk hins, fun h ↦ ?_, by rw [htotal, horig]; decide⟩
  rw [List.all_eq_true.mpr h] at hall
  cases hall

/-- Under every policy some document is saved through the temporary file, with bytes of the source
in it. -/
theorem exists_through_temp (policy : VlfSavePolicy) (source dest : FilePath) :
    ∃ s doc, Reachable [0] {} 56 s doc ∧ (¬ ∀ p ∈ s.pieces, p.bufferId?.isSome) ∧
      ¬ policy.InPlace s source dest := by
  have hnew : ¬ ∀ p ∈ (withLimits 1 {}).pieces, p.bufferId?.isSome := by decide
  cases policy with
  | tempFileRewrite tempDir => exact ⟨withLimits 1 {}, [0], .new, hnew, And.right⟩
  | saveAs path => exact ⟨withLimits 1 {}, [0], .new, hnew, And.right⟩
  | tailShift fallbackTempDir => exact ⟨withLimits 1 {}, [0], .new, hnew, fun h ↦ h.2 rfl⟩
  | sameSizeInPlaceOverwrite =>
    obtain ⟨s, doc, hreach, hsome, hsize⟩ := exists_appended
    exact ⟨s, doc, hreach, hsome, fun h ↦ hsize h.2⟩

/-- A save that succeeds has lost nothing, whatever the document, exactly when no read may be short
and the temporary file is not the source. Here `reads` are the outcomes that reads may have. -/
theorem losesNothing_iff {reads : Set ReadOutcome} (hall : .all ∈ reads) (source dest : FilePath)
    (policy : VlfSavePolicy) :
    (∀ env : Env, (∀ t, env.read t ∈ reads) → ∀ file limits pieceSize s doc,
      Reachable file limits pieceSize s doc → LosesNothing env s source dest policy file doc) ↔
    (∀ n, .short n ∉ reads) ∧ policy.tempPath dest ≠ source := by
  constructor
  · intro hsaves
    obtain ⟨s, doc, hreach, hsome, hplace⟩ := exists_through_temp policy source dest
    refine ⟨fun n hn ↦ ?_, fun htemp ↦ ?_⟩
    · have hread : ReadOutcome.short n ≠ .fails := nofun
      have hshort : (Env.uniform (.short n)).ReadsShort := fun t ↦ ⟨n, rfl⟩
      obtain ⟨w, hrun, hne⟩ := exists_lost ((∅ : Files).insert source [0]) hreach.wf.1 hread
        hplace (rewriteThrough_short_ne hreach.wf.1 hshort hsome _) 0
      obtain ⟨r, w', hrun', hsaved⟩ :=
        hsaves (.uniform (.short n)) (fun t ↦ hn) _ _ _ _ _ hreach _ 0
        (AList.lookup_insert _)
      obtain ⟨rfl, rfl⟩ := Prod.mk.inj (Option.some.inj (hrun.symm.trans hrun'))
      exact hne ((hsaved rfl).2.trans hreach.wf.2.symm)
    · obtain ⟨file', hlen, hlost⟩ := exists_lost_of_tempPath_eq hreach.wf.1 htemp hsome
      obtain ⟨doc', hreach'⟩ := hreach.of_length hlen
      obtain ⟨w, hrun, hne⟩ := hlost ((∅ : Files).insert source file') 0
      obtain ⟨r, w', hrun', hsaved⟩ := hsaves (.uniform .all) (fun t ↦ hall) _ _ _ _ _ hreach' _ 0
        (AList.lookup_insert _)
      obtain ⟨rfl, rfl⟩ := Prod.mk.inj (Option.some.inj (hrun.symm.trans hrun'))
      exact hne ((hsaved rfl).2.trans hreach'.wf.2.symm)
  · rintro ⟨hreads, htemp⟩ env henv file limits pieceSize s doc hreach files clock hfile
    obtain ⟨hwf, rfl⟩ := hreach.wf
    have hfull : env.ReadsFully := fun t n hn ↦ hreads n (hn ▸ henv t)
    have hdata : Files.data files source = file := by rw [Files.data, hfile, Option.getD_some]
    have hends : Ends env (fun _ ↦ True)
        (streamSaveFromSource s ⟨source, file.length⟩ dest policy) :=
      streamSaveFromSource_ends hwf rfl dest policy
    obtain ⟨r, w, hrun, -⟩ := hends ⟨files, clock⟩
    have hspec := streamSaveFromSource_spec hwf hfull hdata (.inl htemp) ⟨files, clock⟩ rfl r w hrun
    refine ⟨r, w, hrun, ?_⟩
    rintro rfl
    have hdoc : w.data (policy.finalDest dest) = s.flatten file := hspec
    exact ⟨by rw [hdoc, hwf.length_flatten], hdoc⟩

/-- The file `ab`, with a letter typed before it, is saved over itself by reads that fail. -/
theorem losesNothing_typed : ∃ s, Reachable [97, 98] {} 56 s [88, 97, 98] ∧
    LosesNothing (.uniform .fails) s ⟨["d"], "foo"⟩ ⟨["d"], "foo"⟩ (.tempFileRewrite none) [97, 98]
      [88, 97, 98] := by
  have hrun : ((withLimits 2 {}).insertInGroup 56 0 [88] ⟨1, 1⟩).map Prod.fst = some (.ok ()) :=
    rfl
  obtain ⟨⟨r, s⟩, hins, rfl⟩ := Option.map_eq_some_iff.mp hrun
  have hnew : Reachable [97, 98] {} 56 (withLimits 2 {}) [97, 98] := .new
  have hreach := hnew.insertOk hins
  have hall : ReadOutcome.all ∈ ({.all, .fails} : Set ReadOutcome) := .inl rfl
  have hfails : ReadOutcome.fails ∈ ({.all, .fails} : Set ReadOutcome) := .inr rfl
  refine ⟨s, hreach, (losesNothing_iff hall ⟨["d"], "foo"⟩ _ _).mpr ⟨fun n hn ↦ ?_, by decide⟩ _
    (fun _ ↦ hfails) _ {} 56 _ _ hreach⟩
  rcases hn with hn | hn
  · cases hn
  · cases hn

/-- The file `ab` saved by a read that returns one byte less becomes `a`. -/
theorem short_read_lost : ¬ LosesNothing (.uniform (.short 0)) (withLimits 2 {}) ⟨["d"], "foo"⟩
    ⟨["d"], "foo"⟩ (.tempFileRewrite none) [97, 98] [97, 98] := by
  intro hsaves
  have hrun : (streamSaveFromSource (withLimits 2 {}) ⟨⟨["d"], "foo"⟩, 2⟩ ⟨["d"], "foo"⟩
      (.tempFileRewrite none) (.uniform (.short 0))
      ⟨(∅ : Files).insert ⟨["d"], "foo"⟩ [97, 98], 0⟩).map (fun y ↦
        (y.1, y.2.data ⟨["d"], "foo"⟩)) = some (.ok (), [97]) := rfl
  obtain ⟨⟨r, w⟩, hsave, heq⟩ := Option.map_eq_some_iff.mp hrun
  simp only [Prod.mk.injEq] at heq
  obtain ⟨rfl, hdata⟩ := heq
  obtain ⟨r', w', hsave', hsaved⟩ := hsaves _ 0 (AList.lookup_insert _)
  obtain ⟨rfl, rfl⟩ := Prod.mk.inj (Option.some.inj (hsave.symm.trans hsave'))
  exact absurd (hdata.symm.trans (hsaved rfl).2) (by decide)

end EeEditor.Vlf
