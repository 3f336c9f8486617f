import EeEditor.Vlf.OverlayRead
import EeEditor.Vlf.OverlaySpec
import EeEditor.Vlf.Save

/-!
# What a save leaves in the files

The rules of the operations of a save, and from them what a save through a temporary file and a
save in place leave behind, when every positioned read returns what it is asked for.

## The plan of a save in place

What a save in place leaves where it is: the document begins with the file's own beginning up to
`prefixLen`, and ends with the file's own end from `oldSuffixStart` on, which is at `newSuffixStart`
of the document. The changed window between the two replaces the rest of the file.
-/

namespace EeEditor.Vlf

variable {file : List UInt8} {s : PieceOverlay}

/-! ## The plan -/

section

variable {buffers : AList fun _ : ℕ ↦ List UInt8} {ps : List Piece}

/-- The pieces begin with the bytes of the file from `logical` up to the common prefix. -/
theorem commonOriginalPrefixLen_spec (hlive : ∀ p ∈ ps, p.Live file buffers) {logical : ℕ}
    (hle : logical ≤ file.length) :
    logical ≤ commonOriginalPrefixLen logical ps ∧
      commonOriginalPrefixLen logical ps ≤ file.length ∧
      commonOriginalPrefixLen logical ps ≤ logical + extent Piece.byteLen ps ∧
      (ps.flatMap (Piece.content file buffers)).take (commonOriginalPrefixLen logical ps - logical)
        = (file.drop logical).take (commonOriginalPrefixLen logical ps - logical) := by
  have hstop : ∀ qs, logical ≤ logical ∧ logical ≤ file.length ∧
      logical ≤ logical + extent Piece.byteLen qs ∧
      (qs.flatMap (Piece.content file buffers)).take (logical - logical)
        = (file.drop logical).take (logical - logical) :=
    fun qs ↦ ⟨le_rfl, hle, Nat.le_add_right _ _, by simp⟩
  induction ps generalizing logical with
  | nil => exact hstop []
  | cons p ps ih =>
    cases p with
    | inserted id r n => exact hstop _
    | original r n =>
      rw [commonOriginalPrefixLen]
      split
      · next hstart =>
        have hp := hlive (.original r n) (by simp)
        have hlen := hp.length_content
        obtain ⟨hlt, hend, rfl⟩ := hp
        subst hstart
        have hadd : r.start + r.len = r.end_ := Nat.add_sub_cancel' hlt.le
        rw [hadd]
        obtain ⟨h₁, h₂, h₃, h₄⟩ := @ih (fun x hx ↦ hlive x (by simp [hx])) r.end_ hend
          fun qs ↦ ⟨le_rfl, hend, Nat.le_add_right _ _, by simp⟩
        rw [Piece.byteLen] at hlen
        refine ⟨by omega, h₂, ?_, ?_⟩
        · rw [extent_cons, Piece.byteLen]
          omega
        · rw [List.flatMap_cons, List.take_append, hlen, List.take_of_length_le (by omega),
            Nat.sub_sub_sub_cancel_right hlt.le, h₄]
          exact take_drop_append hlt.le h₁
      · exact hstop _

/-- The pieces, the last one first, end with bytes of the file up to `originalEnd`. -/
theorem commonOriginalSuffixLen_spec (hlive : ∀ p ∈ ps, p.Live file buffers)
    {originalEnd : ℕ} (hend : originalEnd ≤ file.length) (logicalEnd suffixLen : ℕ) :
    ∃ k, commonOriginalSuffixLen originalEnd logicalEnd suffixLen ps = suffixLen + k ∧
      k ≤ originalEnd ∧
      (file.take originalEnd).drop (originalEnd - k)
        <:+ ps.reverse.flatMap (Piece.content file buffers) := by
  have hstop : ∀ qs : List Piece, ∃ k, suffixLen = suffixLen + k ∧ k ≤ originalEnd ∧
      (file.take originalEnd).drop (originalEnd - k)
        <:+ qs.reverse.flatMap (Piece.content file buffers) := fun qs ↦ by
    refine ⟨0, rfl, Nat.zero_le _, ?_⟩
    rw [Nat.sub_zero, List.drop_of_length_le (by simp)]
    exact List.nil_suffix
  induction ps generalizing originalEnd logicalEnd suffixLen with
  | nil => exact hstop []
  | cons p ps ih =>
    cases p with
    | inserted id r n => exact hstop _
    | original r n =>
      rw [commonOriginalSuffixLen]
      split
      · next hr =>
        split
        · exact hstop _
        · obtain ⟨hlt, -, rfl⟩ := hlive (.original r n) (by simp)
          subst hr
          obtain ⟨k, hk, hle, ⟨t, ht⟩⟩ := @ih (fun x hx ↦ hlive x (by simp [hx])) r.start
            (by omega) (logicalEnd - r.len) (suffixLen + r.len) fun qs ↦
              ⟨0, rfl, Nat.zero_le _, by simp⟩
          rw [ByteRange.len] at hk ⊢
          refine ⟨r.end_ - r.start + k, by omega, by omega, t, ?_⟩
          rw [List.reverse_cons, List.flatMap_append, ← ht, List.append_assoc,
            List.append_cancel_left_eq, List.flatMap_singleton, Piece.content, List.drop_take,
            List.drop_take, show r.end_ - (r.end_ - r.start + k) = r.start - k by omega]
          exact (take_drop_append (Nat.sub_le _ _) hlt.le).symm
      · exact hstop _

end

/-- The changed window is between the common beginning and the common end. -/
structure SaveOptimizationPlan.Fits (plan : SaveOptimizationPlan) (file doc : List UInt8) :
    Prop where
  oldLen_eq : plan.oldLen = file.length
  prefixLen_le : plan.prefixLen ≤ plan.oldSuffixStart
  prefixLen_le' : plan.prefixLen ≤ plan.newSuffixStart
  oldSuffixStart_le : plan.oldSuffixStart ≤ file.length
  suffix_len : plan.oldSuffixStart + doc.length = plan.newSuffixStart + file.length
  take_prefixLen : doc.take plan.prefixLen = file.take plan.prefixLen
  drop_newSuffixStart : doc.drop plan.newSuffixStart = file.drop plan.oldSuffixStart

theorem PieceOverlay.Wf.plan_fits (h : s.Wf file) :
    (SaveOptimizationPlan.forSource s).Fits file (s.flatten file) := by
  obtain ⟨-, hpre, hpre', htake⟩ := commonOriginalPrefixLen_spec h.live (Nat.zero_le file.length)
  have hlive : ∀ p ∈ s.pieces.reverse, p.Live file s.buffers :=
    fun p hp ↦ h.live p (List.mem_reverse.mp hp)
  obtain ⟨k, hk, hle, hsuffix⟩ := commonOriginalSuffixLen_spec hlive le_rfl s.totalByteLen 0
  have hlen := h.length_flatten
  rw [← h.totalByteLen_eq, Nat.zero_add, ← hlen] at hpre'
  rw [Nat.sub_zero, List.drop_zero] at htake
  rw [Nat.zero_add] at hk
  rw [List.take_length, List.reverse_reverse] at hsuffix
  rw [SaveOptimizationPlan.forSource, h.original_eq, hk, ← hlen]
  generalize hj : min (min k (file.length - commonOriginalPrefixLen 0 s.pieces))
    ((s.flatten file).length - commonOriginalPrefixLen 0 s.pieces) = j
  refine ⟨rfl, by dsimp only; omega, by dsimp only; omega, Nat.sub_le _ _, by dsimp only; omega,
    htake, ?_⟩
  have hfile : file.drop (file.length - j) <:+ s.flatten file := by
    have hdrop : (file.drop (file.length - k)).drop (k - j) = file.drop (file.length - j) := by
      rw [List.drop_drop]
      congr 1
      omega
    rw [← hdrop]
    exact (List.drop_suffix _ _).trans hsuffix
  have heq := List.suffix_iff_eq_drop.mp hfile
  rw [List.length_drop, show file.length - (file.length - j) = j by omega] at heq
  exact heq.symm

end EeEditor.Vlf

namespace EeEditor.Vlf

abbrev Files := AList fun _ : FilePath ↦ List UInt8

/-- The bytes of a file, none if it is not there. -/
def Files.data (files : Files) (path : FilePath) : List UInt8 := (files.lookup path).getD []

/-- The files with other bytes at a path. -/
def Files.Around (files₀ : Files) (path : FilePath) (files : Files) : Prop :=
  ∀ p, p ≠ path → files.lookup p = files₀.lookup p

/-- Partial correctness of an action on the files, with a postcondition of the value that it returns
and one of its error. -/
def FileTriple {α : Type} (env : Env) (F : Files → Prop) (x : Save α) (Q : α → Files → Prop)
    (E : VlfSaveError → Files → Prop) : Prop :=
  Triple env (fun w ↦ F w.files) x fun r w ↦
    match r with
    | .ok a => Q a w.files
    | .error e => E e w.files

/-- Every positioned read that does not fail returns all the bytes that are there. -/
def Env.ReadsFully (env : Env) : Prop := ∀ t n, env.read t ≠ .short n

variable {env : Env} {F : Files → Prop} {files₀ : Files} {path : FilePath}

theorem Files.Around.data_eq {files : Files} (h : files₀.Around path files) {p : FilePath}
    (hp : p ≠ path) : Files.data files p = Files.data files₀ p := by
  rw [Files.data, h p hp, Files.data]

namespace FileTriple

variable {α β : Type} {x : Save α} {f : α → Save β} {F' : Files → Prop} {R R' : α → Files → Prop}
  {Q : β → Files → Prop} {E E' : VlfSaveError → Files → Prop}

theorem pure {a : α} (h : ∀ files, F files → R a files) :
    FileTriple env F (Pure.pure a) R E :=
  Triple.pure fun _ hw ↦ h _ hw

theorem throw {e : VlfSaveError} (h : ∀ files, F files → E e files) :
    FileTriple env F (.throw e : Save α) R E :=
  Triple.throw fun _ hw ↦ h _ hw

theorem bind (hx : FileTriple env F x R E) (hf : ∀ a, FileTriple env (R a) (f a) Q E')
    (he : ∀ e files, E e files → E' e files) : FileTriple env F (x >>= f) Q E' :=
  Triple.bind hx hf fun e _ h ↦ he e _ h

theorem conseq (hx : FileTriple env F x R E) (hF : ∀ files, F' files → F files)
    (hR : ∀ a files, R a files → R' a files) (hE : ∀ e files, E e files → E' e files) :
    FileTriple env F' x R' E' :=
  Triple.conseq hx (fun _ hw ↦ hF _ hw) fun r _ h ↦ by
    cases r with
    | ok a => exact hR a _ h
    | error e => exact hE e _ h

theorem assume {p : Prop} (hp : ∀ files, F files → p) (hx : p → FileTriple env F x R E) :
    FileTriple env F x R E :=
  Triple.assume (fun _ hw ↦ hp _ hw) hx

theorem exists_pre {γ : Type} {G : γ → Files → Prop} (h : ∀ c, FileTriple env (G c) x R E) :
    FileTriple env (fun files ↦ ∃ c, G c files) x R E :=
  fun w ⟨c, hc⟩ r w' hr ↦ h c w hc r w' hr

end FileTriple

/-! ## Operations -/

theorem attempt_spec (path : FilePath) : FileTriple env F (attempt path) (fun _ ↦ F)
    fun e files ↦ e ≠ .cancelled ∧ F files := by
  intro w hw r w' hr
  obtain ⟨rfl, rfl⟩ := Prod.mk.inj (Option.some.inj hr)
  cases env.ok w.clock with
  | true => exact hw
  | false => exact ⟨nofun, hw⟩

theorem onProgress_spec (progress : SaveProgress) (E : VlfSaveError → Files → Prop) :
    FileTriple env F (onProgress progress) (fun _ ↦ F) E := by
  intro w hw r w' hr
  obtain ⟨rfl, rfl⟩ := Prod.mk.inj (Option.some.inj hr)
  exact hw

theorem openFile_spec (path : FilePath) : FileTriple env F (openFile path) (fun _ ↦ F)
    fun e files ↦ e ≠ .cancelled ∧ F files := by
  intro w hw r w' hr
  rw [openFile] at hr
  split at hr
  · obtain ⟨rfl, rfl⟩ := Prod.mk.inj (Option.some.inj hr)
    exact hw
  · obtain ⟨rfl, rfl⟩ := Prod.mk.inj (Option.some.inj hr)
    exact ⟨nofun, hw⟩

/-- A positioned read changes nothing, and returns the bytes asked for if it returns all. -/
theorem preadExact_spec (path errPath : FilePath) (offset len : ℕ) {data : List UInt8}
    (hdata : ∀ files, F files → Files.data files path = data) (hfull : env.ReadsFully) :
    FileTriple env F (preadExact path errPath offset len)
      (fun bytes files ↦ F files ∧ bytes = (data.drop offset).take len)
      fun e files ↦ e ≠ .cancelled ∧ F files := by
  intro w hw r w' hr
  rw [preadExact] at hr
  split at hr
  · obtain ⟨rfl, rfl⟩ := Prod.mk.inj (Option.some.inj hr)
    exact ⟨nofun, hw⟩
  · obtain ⟨rfl, rfl⟩ := Prod.mk.inj (Option.some.inj hr)
    exact ⟨hw, by rw [← hdata _ hw]; rfl⟩
  · next n hread => exact absurd hread (hfull _ _)

theorem readForSave_spec {pager : FilePager} (errPath : FilePath) {range : ByteRange}
    {data : List UInt8} (hdata : ∀ files, F files → Files.data files pager.canonicalPath = data)
    (hfull : env.ReadsFully) :
    FileTriple env F (readForSave pager errPath range)
      (fun bytes files ↦ F files ∧ bytes = (data.drop range.start).take range.len)
      fun e files ↦ e ≠ .cancelled ∧ F files := by
  rw [readForSave]
  split
  · next hlen => exact .pure fun files hF ↦ ⟨hF, by rw [hlen, List.take_zero]⟩
  split
  · exact .throw fun files hF ↦ ⟨nofun, hF⟩
  · exact preadExact_spec _ _ _ _ hdata hfull

/-- The bytes at a path, and the other files as they were. -/
def Files.Has (files₀ : Files) (path : FilePath) (data : List UInt8) (files : Files) : Prop :=
  files₀.Around path files ∧ Files.data files path = data

theorem Files.Around.has_insert {files : Files} (h : files₀.Around path files)
    (bytes : List UInt8) : files₀.Has path bytes (files.insert path bytes) :=
  ⟨fun p hp ↦ (AList.lookup_insert_ne hp).trans (h p hp), by
    rw [Files.data, AList.lookup_insert, Option.getD_some]⟩

theorem pwriteAll_spec (path : FilePath) (offset : ℕ) (bytes data : List UInt8) :
    FileTriple env (files₀.Has path data) (pwriteAll path offset bytes)
      (fun _ ↦ files₀.Has path (overwrite data offset bytes))
      fun e files ↦ e ≠ .cancelled ∧ files₀.Around path files := by
  rintro w ⟨hw, rfl⟩ r w' hr
  rw [pwriteAll] at hr
  split at hr
  · obtain ⟨rfl, rfl⟩ := Prod.mk.inj (Option.some.inj hr)
    exact hw.has_insert _
  · obtain ⟨rfl, rfl⟩ := Prod.mk.inj (Option.some.inj hr)
    exact ⟨nofun, (hw.has_insert _).1⟩

theorem writeAll_spec (path : FilePath) (bytes data : List UInt8) :
    FileTriple env (files₀.Has path data) (writeAll path bytes)
      (fun _ ↦ files₀.Has path (data ++ bytes))
      fun e files ↦ e ≠ .cancelled ∧ files₀.Around path files := by
  rintro w ⟨hw, rfl⟩ r w' hr
  rw [writeAll] at hr
  split at hr
  · obtain ⟨rfl, rfl⟩ := Prod.mk.inj (Option.some.inj hr)
    exact hw.has_insert _
  · obtain ⟨rfl, rfl⟩ := Prod.mk.inj (Option.some.inj hr)
    exact ⟨nofun, (hw.has_insert _).1⟩

theorem createFile_spec (path : FilePath) :
    FileTriple env (· = files₀) (createFile path) (fun _ ↦ files₀.Has path [])
      fun _ ↦ files₀.Around path := by
  rintro w rfl r w' hr
  rw [createFile] at hr
  split at hr
  · obtain ⟨rfl, rfl⟩ := Prod.mk.inj (Option.some.inj hr)
    exact Files.Around.has_insert (fun _ _ ↦ rfl) _
  · obtain ⟨rfl, rfl⟩ := Prod.mk.inj (Option.some.inj hr)
    exact fun _ _ ↦ rfl

theorem setLen_spec (path : FilePath) (len : ℕ) (data : List UInt8) :
    FileTriple env (files₀.Has path data) (setLen path len)
      (fun _ ↦ files₀.Has path (data.take len ++ List.replicate (len - data.length) 0))
      fun e files ↦ e ≠ .cancelled ∧ files₀.Around path files := by
  rintro w ⟨hw, rfl⟩ r w' hr
  rw [setLen] at hr
  split at hr
  · obtain ⟨rfl, rfl⟩ := Prod.mk.inj (Option.some.inj hr)
    exact hw.has_insert _
  · obtain ⟨rfl, rfl⟩ := Prod.mk.inj (Option.some.inj hr)
    exact ⟨nofun, hw⟩

theorem rename_spec (src dst : FilePath) (data : List UInt8) :
    FileTriple env (files₀.Has src data) (rename src dst)
      (fun _ files ↦ Files.data files dst = data) fun _ ↦ files₀.Around src := by
  rintro w ⟨hw, rfl⟩ r w' hr
  rw [rename] at hr
  split at hr
  · obtain ⟨rfl, rfl⟩ := Prod.mk.inj (Option.some.inj hr)
    exact (Files.Around.has_insert (fun _ _ ↦ rfl) _).2
  · obtain ⟨rfl, rfl⟩ := Prod.mk.inj (Option.some.inj hr)
    exact hw

/-! ## Through a temporary file -/

theorem saveChunkBytes_pos : 0 < saveChunkBytes := Nat.mul_pos (by decide) (by decide)

section

variable {pager : FilePager} {tempPath : FilePath} {file : List UInt8} {s : PieceOverlay}

theorem writeOriginalLoop_spec {chunk : ℕ} (hchunk : 0 < chunk) (hfull : env.ReadsFully)
    (hne : pager.canonicalPath ≠ tempPath) (hfile : Files.data files₀ pager.canonicalPath = file)
    (totalBytes end_ fuel pos bytesWritten : ℕ) (hfuel : end_ - pos ≤ fuel) (out : List UInt8) :
    FileTriple env (files₀.Has tempPath out)
      (writeOriginalLoop chunk pager tempPath totalBytes end_ fuel pos bytesWritten)
      (fun _ ↦ files₀.Has tempPath (out ++ (file.drop pos).take (end_ - pos)))
      fun _ ↦ files₀.Around tempPath := by
  induction fuel generalizing pos bytesWritten out with
  | zero =>
    refine .pure fun files hF ↦ ?_
    rwa [Nat.le_zero.mp hfuel, List.take_zero, List.append_nil]
  | succ fuel ih =>
    rw [writeOriginalLoop]
    split
    · next hlt =>
      have hdata : ∀ files, files₀.Has tempPath out files →
          Files.data files pager.canonicalPath = file :=
        fun files h ↦ (h.1.data_eq hne).trans hfile
      refine .bind (readForSave_spec tempPath hdata hfull) (fun raw ↦ ?_) fun e files h ↦ h.2.1
      refine .assume (fun files h ↦ h.2) fun hraw ↦ ?_
      refine .bind (.conseq (writeAll_spec tempPath raw out) (fun files h ↦ h.1) (fun _ _ h ↦ h)
        fun _ _ h ↦ h) (fun _ ↦ ?_) fun e files h ↦ h.2
      refine .bind (onProgress_spec _ fun _ _ ↦ False) (fun go ↦ ?_) fun e files h ↦ h.elim
      have hcat : out ++ (file.drop pos).take (end_ - pos)
          = out ++ raw ++ (file.drop (min (pos + chunk) end_)).take
            (end_ - min (pos + chunk) end_) := by
        rw [hraw, List.append_assoc]
        exact congrArg _ (take_drop_append (by omega) (Nat.min_le_right _ _)).symm
      split
      · rw [hcat]
        exact ih _ _ (by omega) _
      · exact .throw fun files h ↦ h.1
    · next hge =>
      refine .pure fun files hF ↦ ?_
      rwa [Nat.sub_eq_zero_of_le (not_lt.mp hge), List.take_zero, List.append_nil]

/-- The bytes of an original piece are appended to the temporary file. -/
theorem writeOriginalPiece_spec (hfull : env.ReadsFully) (hne : pager.canonicalPath ≠ tempPath)
    (hfile : Files.data files₀ pager.canonicalPath = file) (totalBytes : ℕ) (range : ByteRange)
    (bytesWritten : ℕ) (out : List UInt8) :
    FileTriple env (files₀.Has tempPath out)
      (writeOriginalPiece pager tempPath totalBytes range bytesWritten)
      (fun _ ↦ files₀.Has tempPath (out ++ (file.drop range.start).take range.len))
      fun _ ↦ files₀.Around tempPath :=
  writeOriginalLoop_spec saveChunkBytes_pos hfull hne hfile _ _ _ _ _ le_rfl out

/-- The document is written to the temporary file. It may be the source if nothing is read. -/
theorem writePieces_spec (hfull : env.ReadsFully)
    (hfile : Files.data files₀ pager.canonicalPath = file) {ps : List Piece}
    (hlive : ∀ p ∈ ps, p.Live file s.buffers)
    (hne : pager.canonicalPath ≠ tempPath ∨ ∀ p ∈ ps, p.bufferId?.isSome) (bytesWritten : ℕ)
    (out : List UInt8) :
    FileTriple env (files₀.Has tempPath out) (writePieces s pager tempPath ps bytesWritten)
      (fun _ ↦ files₀.Has tempPath (out ++ ps.flatMap (Piece.content file s.buffers)))
      fun _ ↦ files₀.Around tempPath := by
  induction ps generalizing bytesWritten out with
  | nil =>
    refine .pure fun files hF ↦ ?_
    rwa [List.flatMap_nil, List.append_nil]
  | cons p ps ih =>
    have hp := hlive p (by simp)
    have htail := ih (fun x hx ↦ hlive x (by simp [hx])) <| hne.imp_right fun hall x hx ↦
      hall x (by simp [hx])
    rw [List.flatMap_cons, ← List.append_assoc]
    cases p with
    | original r n =>
      rw [writePieces]
      have hne' := hne.resolve_right fun hall ↦ absurd (hall _ List.mem_cons_self) nofun
      exact .bind (writeOriginalPiece_spec hfull hne' hfile _ _ _ out)
        (fun m ↦ htail m _) fun e files h ↦ h
    | inserted id r n =>
      rw [writePieces, insertedBytes_eq hp]
      refine .bind (writeAll_spec tempPath _ out) (fun _ ↦ ?_) fun e files h ↦ h.2
      refine .bind (onProgress_spec _ fun _ _ ↦ False) (fun go ↦ ?_) fun e files h ↦ h.elim
      split
      · exact htail _ _
      · exact .throw fun files h ↦ h.1

theorem rewriteThrough_spec (h : s.Wf file) (hfull : env.ReadsFully)
    (hne : pager.canonicalPath ≠ tempPath ∨ ∀ p ∈ s.pieces, p.bufferId?.isSome)
    (hfile : Files.data files₀ pager.canonicalPath = file) (finalDest : FilePath) :
    FileTriple env (· = files₀) (rewriteThrough s pager tempPath finalDest)
      (fun _ files ↦ Files.data files finalDest = s.flatten file)
      fun _ ↦ files₀.Around tempPath := by
  refine .bind (createFile_spec tempPath) (fun _ ↦ ?_) fun e files h ↦ h
  refine .bind (writePieces_spec hfull hfile h.live hne 0 []) (fun _ ↦ ?_) fun e files h ↦ h
  refine .bind (attempt_spec tempPath) (fun _ ↦ ?_) fun e files h ↦ h.2.1
  exact rename_spec _ _ _

/-- What holds of the writing of the temporary file holds of the save, if it does not depend on
whether the temporary file is there. -/
theorem streamSaveTempFile_triple {finalDest : FilePath} {tempDir : Option (List String)}
    {Q : Unit → Files → Prop}
    (h : FileTriple env F
      (rewriteThrough s pager (buildTempPath finalDest (tempDir.getD finalDest.dir)) finalDest) Q
      fun _ ↦ files₀.Around (buildTempPath finalDest (tempDir.getD finalDest.dir))) :
    FileTriple env F (streamSaveTempFile s pager finalDest tempDir) Q
      fun _ ↦ files₀.Around (buildTempPath finalDest (tempDir.getD finalDest.dir)) := by
  intro w hw r w' hr
  rw [streamSaveTempFile] at hr
  have hspec := h w hw
  split at hr
  · cases hr
  · next w₁ hrun =>
    obtain ⟨rfl, rfl⟩ := Prod.mk.inj (Option.some.inj hr)
    exact hspec _ _ hrun
  · next e w₁ hrun =>
    obtain ⟨rfl, rfl⟩ := Prod.mk.inj (Option.some.inj hr)
    have haround := hspec _ _ hrun
    dsimp only at haround ⊢
    rw [removeFile]
    split
    · exact fun p hp ↦ (AList.lookup_erase_ne hp).trans (haround p hp)
    · exact haround

theorem finalDest_ne_buildTempPath (finalDest : FilePath) (tempDir : List String) :
    finalDest ≠ buildTempPath finalDest tempDir := by
  intro heq
  have hlen := congrArg (fun p : FilePath ↦ p.name.length) heq
  simp [buildTempPath] at hlen

end

/-! ## In place -/

section

variable {pager : FilePager} {dest : FilePath} {file : List UInt8} {s : PieceOverlay}

theorem overwrite_eq {data bytes : List UInt8} {offset : ℕ} (h : offset ≤ data.length) :
    overwrite data offset bytes
      = data.take offset ++ bytes ++ data.drop (offset + bytes.length) := by
  rw [overwrite]
  split
  · next hempty =>
    obtain rfl := List.isEmpty_iff.mp hempty
    simp
  · rw [Nat.sub_eq_zero_of_le h, List.replicate_zero, List.append_nil]

/-- The bytes of a range of the document are collected. -/
theorem collectPieces_spec (hfull : env.ReadsFully)
    (hdata : ∀ files, F files → Files.data files pager.canonicalPath = file) (range : ByteRange)
    {ps : List Piece} (hlive : ∀ p ∈ ps, p.Live file s.buffers) (logicalStart : ℕ)
    (out : List UInt8) :
    FileTriple env F (collectPieces s pager range ps logicalStart out)
      (fun bytes files ↦ F files ∧ bytes = out
        ++ ((ps.flatMap (Piece.content file s.buffers)).drop (range.start - logicalStart)).take
          (range.end_ - max logicalStart range.start))
      fun e files ↦ e ≠ .cancelled ∧ F files := by
  induction ps generalizing logicalStart out with
  | nil => exact .pure fun files hF ↦ ⟨hF, by simp⟩
  | cons p ps ih =>
    have hp := hlive p (by simp)
    have hlen := hp.length_content
    have htail := ih fun x hx ↦ hlive x (by simp [hx])
    rw [collectPieces, List.flatMap_cons, slice_append, hlen, ← List.append_assoc]
    dsimp only
    split
    · next hbefore =>
      rw [Nat.sub_eq_zero_of_le (show min (range.end_ - logicalStart) p.byteLen
        ≤ min (range.start - logicalStart) p.byteLen by omega), List.take_zero, List.append_nil]
      exact htail _ _
    split
    · next hafter =>
      refine .pure fun files hF ↦ ⟨hF, ?_⟩
      rw [Nat.sub_eq_zero_of_le (show min (range.end_ - logicalStart) p.byteLen
        ≤ min (range.start - logicalStart) p.byteLen by omega), List.take_zero, List.append_nil,
        Nat.sub_eq_zero_of_le (by omega), List.take_zero, List.append_nil]
    next hbefore hafter =>
    have hoffset : max logicalStart range.start - logicalStart
        = min (range.start - logicalStart) p.byteLen := by omega
    have hoverlap : min (logicalStart + p.byteLen) range.end_ - max logicalStart range.start
        = min (range.end_ - logicalStart) p.byteLen
          - min (range.start - logicalStart) p.byteLen := by omega
    rw [hoffset, hoverlap]
    cases p with
    | original r n =>
      obtain ⟨hr, hend, rfl⟩ := hp
      refine .bind (readForSave_spec _ hdata hfull) (fun bytes ↦ ?_) fun e files h ↦ h
      refine .assume (fun files h ↦ h.2) fun hbytes ↦ ?_
      have hslice : bytes = ((Piece.content file s.buffers (.original r (r.end_ - r.start))).drop
            (min (range.start - logicalStart) (r.end_ - r.start))).take
          (min (range.end_ - logicalStart) (r.end_ - r.start)
            - min (range.start - logicalStart) (r.end_ - r.start)) := by
        rw [hbytes, Piece.content, List.drop_take, List.take_take, List.drop_drop, ByteRange.len]
        simp only [Piece.byteLen]
        congr 1
        omega
      refine .conseq (htail _ (out ++ bytes)) (fun files h ↦ h.1) (fun bytes' files h ↦ ?_)
        fun e files h ↦ h
      rw [hslice] at h
      exact h
    | inserted id r n =>
      dsimp only
      rw [insertedBytes_eq hp]
      dsimp only
      rw [if_pos (by rw [hlen]; simp only [Piece.byteLen] at *; omega)]
      exact htail _ _

theorem collectLogicalRangeBytes_spec (h : s.Wf file) (hfull : env.ReadsFully)
    (hdata : ∀ files, F files → Files.data files pager.canonicalPath = file) (range : ByteRange) :
    FileTriple env F (collectLogicalRangeBytes s pager range)
      (fun bytes files ↦ F files ∧ bytes = ((s.flatten file).drop range.start).take range.len)
      fun e files ↦ e ≠ .cancelled ∧ F files := by
  rw [collectLogicalRangeBytes]
  split
  · exact .throw fun files hF ↦ ⟨nofun, hF⟩
  · refine .conseq (collectPieces_spec hfull hdata range h.live 0 []) (fun files hF ↦ hF)
      (fun bytes files hb ↦ ?_) fun e files he ↦ he
    rw [List.nil_append, Nat.sub_zero, Nat.zero_max] at hb
    exact hb

/-- The tail is moved up. `base` is the file extended to its new length. -/
theorem shiftTailRight_spec (hfull : env.ReadsFully) {base : List UInt8} {tailStart delta : ℕ}
    (hbase : base.take file.length = file) (hlen : base.length = file.length + delta)
    (fuel end_ : ℕ) (htail : tailStart ≤ end_) (hend : end_ ≤ file.length)
    (hfuel : end_ - tailStart ≤ fuel) :
    FileTriple env (files₀.Has dest (base.take (end_ + delta) ++ file.drop end_))
      (shiftTailRight dest tailStart delta fuel end_)
      (fun _ ↦ files₀.Has dest (base.take (tailStart + delta) ++ file.drop tailStart))
      fun e files ↦ e ≠ .cancelled ∧ files₀.Around dest files := by
  induction fuel generalizing end_ with
  | zero =>
    obtain rfl : end_ = tailStart := by omega
    exact .pure fun files hF ↦ hF
  | succ fuel ih =>
    rw [shiftTailRight]
    split
    · next hlt =>
      have hstart : max (end_ - saveChunkBytes) tailStart < end_ := by
        unfold saveChunkBytes
        omega
      have hstart' : tailStart ≤ max (end_ - saveChunkBytes) tailStart := le_max_right _ _
      dsimp only
      generalize max (end_ - saveChunkBytes) tailStart = start at hstart hstart'
      refine .bind (preadExact_spec dest dest start (end_ - start) (fun files h ↦ h.2) hfull)
        (fun bytes ↦ ?_) fun e files h ↦ ⟨h.1, h.2.1⟩
      refine .assume (fun files h ↦ h.2) fun hbytes ↦ ?_
      have hread : bytes = (file.drop start).take (end_ - start) := by
        rw [hbytes, List.drop_append_of_le_length (by rw [List.length_take]; omega),
          List.take_append_of_le_length (by rw [List.length_drop, List.length_take]; omega),
          List.drop_take, List.take_take, min_eq_left (by omega), ← hbase, List.drop_take,
          List.take_take, min_eq_left (by omega)]
      have hlenb : bytes.length = end_ - start := by
        rw [hread, List.length_take, List.length_drop]
        omega
      have hover : overwrite (base.take (end_ + delta) ++ file.drop end_) (start + delta) bytes
          = base.take (start + delta) ++ file.drop start := by
        rw [overwrite_eq (by rw [List.length_append, List.length_take]; omega),
          List.take_append_of_le_length (by rw [List.length_take]; omega), List.take_take,
          min_eq_left (by omega), hlenb,
          show start + delta + (end_ - start) = (base.take (end_ + delta)).length by
            rw [List.length_take]; omega,
          List.drop_left, hread, List.append_assoc, take_append_drop_of_le hstart.le]
      refine .bind (.conseq (pwriteAll_spec dest (start + delta) bytes _) (fun files h ↦ h.1)
        (fun _ _ h ↦ h) fun _ _ h ↦ h) (fun _ ↦ ?_) fun e files h ↦ h
      rw [hover]
      exact ih start hstart' (by omega) (by omega)
    · next hge =>
      obtain rfl : end_ = tailStart := by omega
      exact .pure fun files hF ↦ hF

/-- The tail is moved down, behind `front`. -/
theorem shiftTailLeft_spec (hfull : env.ReadsFully) (front : List UInt8) {tailStart delta : ℕ}
    (hdelta : delta ≤ tailStart) (fuel start : ℕ) (htail : tailStart ≤ start)
    (hstart : start ≤ file.length) (hfuel : file.length - start ≤ fuel) {data : List UInt8}
    (hlen : data.length = file.length)
    (htake : data.take (start - delta) = front ++ (file.drop tailStart).take (start - tailStart))
    (hdrop : data.drop start = file.drop start) :
    FileTriple env (files₀.Has dest data) (shiftTailLeft dest file.length delta fuel start)
      (fun _ files ↦ ∃ data, files₀.Has dest data files ∧ data.length = file.length ∧
        data.take (file.length - delta) = front ++ file.drop tailStart)
      fun e files ↦ e ≠ .cancelled ∧ files₀.Around dest files := by
  have hdone : ∀ {data : List UInt8} {start : ℕ}, start = file.length →
      data.take (start - delta) = front ++ (file.drop tailStart).take (start - tailStart) →
      data.take (file.length - delta) = front ++ file.drop tailStart := by
    rintro data start rfl htake
    have hle : (file.drop tailStart).length ≤ file.length - tailStart := (List.length_drop).le
    rw [htake, List.take_of_length_le hle]
  induction fuel generalizing start data with
  | zero =>
    exact .pure fun files hF ↦ ⟨data, hF, hlen, hdone (by omega) htake⟩
  | succ fuel ih =>
    rw [shiftTailLeft]
    split
    · next hlt =>
      have hend : start < min (start + saveChunkBytes) file.length := by
        unfold saveChunkBytes
        omega
      have hend' : min (start + saveChunkBytes) file.length ≤ file.length := min_le_right _ _
      dsimp only
      generalize min (start + saveChunkBytes) file.length = end_ at hend hend'
      refine .bind (preadExact_spec dest dest start (end_ - start) (fun files h ↦ h.2) hfull)
        (fun bytes ↦ ?_) fun e files h ↦ ⟨h.1, h.2.1⟩
      refine .assume (fun files h ↦ h.2) fun hbytes ↦ ?_
      rw [hdrop] at hbytes
      have hlenb : bytes.length = end_ - start := by
        rw [hbytes, List.length_take, List.length_drop]
        omega
      have hover : overwrite data (start - delta) bytes
          = data.take (start - delta) ++ bytes ++ data.drop (end_ - delta) := by
        rw [overwrite_eq (by omega), hlenb]
        congr 2
        omega
      have hlent : (data.take (start - delta) ++ bytes).length = end_ - delta := by
        rw [List.length_append, List.length_take, hlenb]
        omega
      refine .bind (.conseq (pwriteAll_spec dest (start - delta) bytes data) (fun files h ↦ h.1)
        (fun _ _ h ↦ h) fun _ _ h ↦ h) (fun _ ↦ ?_) fun e files h ↦ h
      refine ih end_ (by omega) hend' (by omega) ?_ ?_ ?_
      · rw [hover, List.length_append, hlent, List.length_drop]
        omega
      · rw [hover, List.take_left' hlent, htake, hbytes, List.append_assoc]
        exact congrArg _ (take_drop_append htail hend.le)
      · rw [hover, List.drop_append, List.drop_of_length_le (by omega), List.nil_append, hlent,
          List.drop_drop, show end_ - delta + (end_ - (end_ - delta)) = end_ by omega]
        have := congrArg (List.drop (end_ - start)) hdrop
        rwa [List.drop_drop, List.drop_drop, Nat.add_sub_cancel' hend.le] at this
    · exact .pure fun files hF ↦ ⟨data, hF, hlen, hdone (by omega) htake⟩

variable {plan : SaveOptimizationPlan} {doc changed : List UInt8}

/-- The document from the file and the changed window. -/
theorem SaveOptimizationPlan.Fits.doc_eq (h : plan.Fits file doc)
    (hchanged : changed = (doc.drop plan.prefixLen).take (plan.newSuffixStart - plan.prefixLen)) :
    file.take plan.prefixLen ++ changed ++ file.drop plan.oldSuffixStart = doc ∧
      changed.length = plan.newSuffixStart - plan.prefixLen := by
  have hle := h.oldSuffixStart_le
  have hlen := h.suffix_len
  have hle' := h.prefixLen_le'
  constructor
  · rw [← h.take_prefixLen, ← h.drop_newSuffixStart, hchanged, List.append_assoc,
      take_append_drop_of_le h.prefixLen_le', List.take_append_drop]
  · rw [hchanged, List.length_take, List.length_drop]
    omega

/-- A change of the length in place makes the document of the file. -/
theorem shiftAndWrite_spec (hfull : env.ReadsFully) (h : plan.Fits file doc)
    (htotal : s.totalByteLen = doc.length) (horig : s.originalFileByteLen = file.length)
    (hchanged : changed = (doc.drop plan.prefixLen).take (plan.newSuffixStart - plan.prefixLen)) :
    FileTriple env (files₀.Has dest file) (shiftAndWrite s plan dest changed)
      (fun _ ↦ files₀.Has dest doc) fun e files ↦ e ≠ .cancelled ∧ files₀.Around dest files := by
  obtain ⟨hdoc, hlenc⟩ := h.doc_eq hchanged
  have h₁ := h.prefixLen_le
  have h₂ := h.prefixLen_le'
  have h₃ := h.oldSuffixStart_le
  have h₄ := h.suffix_len
  rw [shiftAndWrite, htotal, horig, h.oldLen_eq]
  split
  · next hgt =>
    have hbase : ∀ base, base = file.take doc.length
        ++ List.replicate (doc.length - file.length) (0 : UInt8) →
        base.take file.length = file ∧
          base.length = file.length + (doc.length - file.length) := by
      rintro base rfl
      have hfit : file.take doc.length = file := List.take_of_length_le (by omega)
      rw [hfit]
      exact ⟨List.take_left, by simp⟩
    refine .bind (setLen_spec dest doc.length file) (fun _ ↦ ?_) fun e files he ↦ he
    generalize hb : file.take doc.length
      ++ List.replicate (doc.length - file.length) (0 : UInt8) = base
    obtain ⟨hbase, hlenb⟩ := hbase base hb.symm
    refine .bind (.conseq (shiftTailRight_spec hfull hbase hlenb _ file.length h₃ le_rfl le_rfl)
      (fun files hF ↦ ?_) (fun _ _ hF ↦ hF) fun _ _ hE ↦ hE) (fun _ ↦ ?_) fun e files he ↦ he
    · rwa [← hlenb, List.take_length, List.drop_length, List.append_nil]
    · refine .conseq (pwriteAll_spec dest plan.prefixLen changed _) (fun _ hF ↦ hF)
        (fun _ files hF ↦ ?_) fun _ _ hE ↦ hE
      have hlent : (base.take (plan.oldSuffixStart + (doc.length - file.length))).length
          = plan.prefixLen + changed.length := by
        rw [List.length_take]
        omega
      rw [overwrite_eq (by rw [List.length_append]; omega), List.drop_left' hlent,
        List.take_append_of_le_length (by omega), List.take_take, min_eq_left (by omega)] at hF
      rw [← hdoc, ← hbase, List.take_take, min_eq_left (by omega), hbase]
      exact hF
  · next hle =>
    refine .bind (pwriteAll_spec dest plan.prefixLen changed file) (fun _ ↦ ?_) fun e files he ↦ he
    have hlenf : (file.take plan.prefixLen ++ changed).length = plan.newSuffixStart := by
      rw [List.length_append, List.length_take]
      omega
    have hover : overwrite file plan.prefixLen changed
        = file.take plan.prefixLen ++ changed ++ file.drop plan.newSuffixStart := by
      rw [overwrite_eq (by omega), hlenc, Nat.add_sub_cancel' h₂]
    rw [hover]
    have hdelta : file.length - doc.length ≤ plan.oldSuffixStart := by omega
    refine .bind (shiftTailLeft_spec hfull (file.take plan.prefixLen ++ changed) hdelta _ _ le_rfl
      h₃ le_rfl ?_ ?_ ?_) (fun _ ↦ ?_) fun e files he ↦ he
    · rw [List.length_append, hlenf, List.length_drop]
      omega
    · rw [Nat.sub_self, List.take_zero, List.append_nil]
      exact List.take_left' (by omega)
    · rw [List.drop_append, List.drop_of_length_le (by omega), List.nil_append, hlenf,
        List.drop_drop]
      congr 1
      omega
    · refine .exists_pre fun data ↦ .assume (fun files hF ↦ hF.2) fun ⟨hlen, htake⟩ ↦ ?_
      refine .conseq (setLen_spec dest doc.length data) (fun _ hF ↦ hF.1) (fun _ files hF ↦ ?_)
        fun _ _ hE ↦ hE
      rwa [Nat.sub_eq_zero_of_le (by omega), List.replicate_zero, List.append_nil,
        show doc.length = file.length - (file.length - doc.length) by omega, htake, hdoc] at hF

/-- What a save that is cancelled leaves at the destination. -/
def Unchanged (files₀ : Files) (finalDest : FilePath) (e : VlfSaveError) (files : Files) : Prop :=
  e = .cancelled → files.lookup finalDest = files₀.lookup finalDest

theorem Unchanged.of_ne {e : VlfSaveError} {files : Files} {P : Prop} {finalDest : FilePath}
    (h : e ≠ .cancelled ∧ P) : Unchanged files₀ finalDest e files := fun he ↦ absurd he h.1

/-- A save through a temporary file that is not the source, or of a document without bytes of the
source. -/
theorem streamSaveTempFile_spec (h : s.Wf file) (hfull : env.ReadsFully) {finalDest : FilePath}
    {tempDir : Option (List String)}
    (hne : pager.canonicalPath ≠ buildTempPath finalDest (tempDir.getD finalDest.dir) ∨
      ∀ p ∈ s.pieces, p.bufferId?.isSome)
    (hfile : Files.data files₀ pager.canonicalPath = file) :
    FileTriple env (· = files₀) (streamSaveTempFile s pager finalDest tempDir)
      (fun _ files ↦ Files.data files finalDest = s.flatten file)
      (Unchanged files₀ finalDest) :=
  .conseq (streamSaveTempFile_triple (rewriteThrough_spec h hfull hne hfile finalDest))
    (fun _ hF ↦ hF) (fun _ _ hF ↦ hF) fun _ _ hE _ ↦ hE _ (finalDest_ne_buildTempPath _ _)

theorem saveSameSizeInPlace_spec (h : s.Wf file) (hfull : env.ReadsFully)
    (hfile : Files.data files₀ pager.canonicalPath = file)
    (hsame : s.totalByteLen = s.originalFileByteLen) :
    FileTriple env (· = files₀) (saveSameSizeInPlace s pager pager.canonicalPath)
      (fun _ files ↦ Files.data files pager.canonicalPath = s.flatten file)
      (Unchanged files₀ pager.canonicalPath) := by
  rw [saveSameSizeInPlace]
  have hfits := h.plan_fits
  have hlen := h.length_flatten
  rw [hsame, h.original_eq] at hlen
  split
  · exact streamSaveTempFile_spec h hfull (.inl (finalDest_ne_buildTempPath _ _)) hfile
  refine .bind (onProgress_spec _ fun _ _ ↦ False) (fun go ↦ ?_) fun e files he ↦ he.elim
  split
  · have hdata : ∀ files, files = files₀ → Files.data files pager.canonicalPath = file := by
      rintro _ rfl
      exact hfile
    refine .bind (collectLogicalRangeBytes_spec h hfull hdata _) (fun changed ↦ ?_)
      fun e files he ↦ .of_ne he
    refine .assume (fun files hF ↦ hF.2) fun hchanged ↦ ?_
    obtain ⟨hdoc, hlenc⟩ := hfits.doc_eq hchanged
    have hover : overwrite file (SaveOptimizationPlan.forSource s).prefixLen changed
        = s.flatten file := by
      have h₁ := hfits.prefixLen_le
      have h₂ := hfits.prefixLen_le'
      have h₃ := hfits.oldSuffixStart_le
      have h₄ := hfits.suffix_len
      rw [overwrite_eq (by omega), hlenc, Nat.add_sub_cancel' h₂]
      rw [show (SaveOptimizationPlan.forSource s).newSuffixStart
        = (SaveOptimizationPlan.forSource s).oldSuffixStart by omega]
      exact hdoc
    refine .bind (openFile_spec _) (fun _ ↦ ?_) fun e files he ↦ .of_ne he
    refine .conseq (F := files₀.Has pager.canonicalPath file) ?_
      (fun files hF ↦ ⟨fun _ _ ↦ by rw [hF.1], by rw [hF.1, hfile]⟩) (fun _ _ hR ↦ hR)
      fun _ _ hE ↦ hE
    refine .bind (pwriteAll_spec pager.canonicalPath _ changed file) (fun _ ↦ ?_)
      fun e files he ↦ .of_ne he
    rw [hover]
    refine .bind (attempt_spec _) (fun _ ↦ ?_) fun e files he ↦ .of_ne he
    refine .bind (onProgress_spec _ fun _ _ ↦ False) (fun _ ↦ ?_) fun e files he ↦ he.elim
    exact .pure fun files hF ↦ hF.2
  · exact .throw fun files hF _ ↦ by rw [hF]

theorem saveWithTailShift_spec (h : s.Wf file) (hfull : env.ReadsFully)
    (hfile : Files.data files₀ pager.canonicalPath = file)
    (fallbackTempDir : Option (List String)) :
    FileTriple env (· = files₀)
      (saveWithTailShift s pager pager.canonicalPath fallbackTempDir)
      (fun _ files ↦ Files.data files pager.canonicalPath = s.flatten file)
      (Unchanged files₀ pager.canonicalPath) := by
  rw [saveWithTailShift]
  split
  · exact streamSaveTempFile_spec h hfull (.inl (finalDest_ne_buildTempPath _ _)) hfile
  refine .bind (onProgress_spec _ fun _ _ ↦ False) (fun go ↦ ?_) fun e files he ↦ he.elim
  split
  · have hdata : ∀ files, files = files₀ → Files.data files pager.canonicalPath = file := by
      rintro _ rfl
      exact hfile
    refine .bind (collectLogicalRangeBytes_spec h hfull hdata _) (fun changed ↦ ?_)
      fun e files he ↦ .of_ne he
    refine .assume (fun files hF ↦ hF.2) fun hchanged ↦ ?_
    refine .bind (openFile_spec _) (fun _ ↦ ?_) fun e files he ↦ .of_ne he
    refine .conseq (F := files₀.Has pager.canonicalPath file) ?_
      (fun files hF ↦ ⟨fun _ _ ↦ by rw [hF.1], by rw [hF.1, hfile]⟩) (fun _ _ hR ↦ hR)
      fun _ _ hE ↦ hE
    refine .bind (shiftAndWrite_spec hfull h.plan_fits h.length_flatten.symm h.original_eq
      hchanged) (fun _ ↦ ?_) fun e files he ↦ .of_ne he
    refine .bind (attempt_spec _) (fun _ ↦ ?_) fun e files he ↦ .of_ne he
    refine .bind (onProgress_spec _ fun _ _ ↦ False) (fun _ ↦ ?_) fun e files he ↦ he.elim
    exact .pure fun files hF ↦ hF.2
  · exact .throw fun files hF _ ↦ by rw [hF]

end

end EeEditor.Vlf
