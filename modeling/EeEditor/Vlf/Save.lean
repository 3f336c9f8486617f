import EeEditor.Effect.Action
import EeEditor.Vlf.PieceOverlay

/-!
# Saving a very large file

The model of `xi-core-lib/src/vlf/save.rs`: a document is streamed through a temporary file that is
renamed over the destination, or the source file is changed in place, with its tail shifted when the
length changes.

Files are named by their canonical paths; there are no links. The environment decides the outcome of
every operation of the file system and every answer of the progress callback. A positioned read may
return fewer bytes than it is asked for, and a write that fails may have written some of its bytes.
-/

namespace EeEditor.Vlf

/-- The path of a file: the directory and the name. -/
structure FilePath where
  dir : List String
  name : String
deriving DecidableEq

inductive VlfSavePolicy where
  | tempFileRewrite (tempDir : Option (List String))
  | sameSizeInPlaceOverwrite
  | tailShift (fallbackTempDir : Option (List String))
  | saveAs (path : FilePath)
deriving DecidableEq

structure SaveProgress where
  bytesWritten : ℕ
  totalBytes : ℕ
deriving DecidableEq

inductive VlfSaveError where
  | io (path : FilePath)
  | cancelled
  | editingNotEnabled
  | invalidPolicy (reason : String)
deriving DecidableEq

/-- `SAVE_CHUNK_BYTES`. -/
def saveChunkBytes : ℕ := 1024 * 1024

/-- `IN_PLACE_CHANGED_WINDOW_MAX_BYTES`. -/
def inPlaceChangedWindowMaxBytes : ℕ := 64 * 1024 * 1024

/-! ## The file system -/

/-- What becomes of a positioned read. A short one lacks the last `missing + 1` bytes, or all if
they are fewer. -/
inductive ReadOutcome where
  | fails
  | all
  | short (missing : ℕ)

/-- What becomes of a write. -/
inductive WriteOutcome where
  | all
  | failsAfter (n : ℕ)

/-- The outcome of the operation at each time. -/
structure Env where
  read : ℕ → ReadOutcome
  write : ℕ → WriteOutcome
  ok : ℕ → Bool
  progress : ℕ → SaveProgress → Bool

structure World where
  files : AList fun _ : FilePath ↦ List UInt8
  clock : ℕ

/-- The bytes of a file. -/
def World.data (w : World) (path : FilePath) : List UInt8 := (w.files.lookup path).getD []

/-- The world after an operation that leaves `bytes` in a file. -/
def World.put (w : World) (path : FilePath) (bytes : List UInt8) : World :=
  ⟨w.files.insert path bytes, w.clock + 1⟩

/-- The world after an operation that changes no file. -/
def World.tick (w : World) : World := { w with clock := w.clock + 1 }

abbrev Save := Action Env World VlfSaveError

/-- An operation that may fail, with `path` in its error. -/
def attempt (path : FilePath) : Save Unit := fun env w ↦
  some (if env.ok w.clock then .ok () else .error (.io path), w.tick)

def onProgress (progress : SaveProgress) : Save Bool := fun env w ↦
  some (.ok (env.progress w.clock progress), w.tick)

/-- `pread_exact`, which truncates to what was read. -/
def preadExact (path errPath : FilePath) (offset len : ℕ) : Save (List UInt8) := fun env w ↦
  let bytes := ((w.data path).drop offset).take len
  match env.read w.clock with
  | .fails => some (.error (.io errPath), w.tick)
  | .all => some (.ok bytes, w.tick)
  | .short missing => some (.ok (bytes.take (bytes.length - (missing + 1))), w.tick)

/-- The bytes of a file after `bytes` are written at an offset. -/
def overwrite (data : List UInt8) (offset : ℕ) (bytes : List UInt8) : List UInt8 :=
  if bytes.isEmpty then data
  else (data ++ List.replicate (offset - data.length) 0).take offset ++ bytes
    ++ data.drop (offset + bytes.length)

def pwriteAll (path : FilePath) (offset : ℕ) (bytes : List UInt8) : Save Unit := fun env w ↦
  match env.write w.clock with
  | .all => some (.ok (), w.put path (overwrite (w.data path) offset bytes))
  | .failsAfter n =>
    some (.error (.io path), w.put path (overwrite (w.data path) offset (bytes.take n)))

/-- `write_all` of a file that is written from its beginning. -/
def writeAll (path : FilePath) (bytes : List UInt8) : Save Unit := fun env w ↦
  match env.write w.clock with
  | .all => some (.ok (), w.put path (w.data path ++ bytes))
  | .failsAfter n => some (.error (.io path), w.put path (w.data path ++ bytes.take n))

/-- `File::create`, which truncates a file that is there. -/
def createFile (path : FilePath) : Save Unit := fun env w ↦
  if env.ok w.clock then some (.ok (), w.put path []) else some (.error (.io path), w.tick)

/-- Open a file that is there for reading and writing. -/
def openFile (path : FilePath) : Save Unit := fun env w ↦
  if env.ok w.clock && (w.files.lookup path).isSome then some (.ok (), w.tick)
  else some (.error (.io path), w.tick)

def setLen (path : FilePath) (len : ℕ) : Save Unit := fun env w ↦
  if env.ok w.clock then
    some (.ok (), w.put path
      ((w.data path).take len ++ List.replicate (len - (w.data path).length) 0))
  else some (.error (.io path), w.tick)

/-- `fs::rename`. -/
def rename (src dst : FilePath) : Save Unit := fun env w ↦
  if env.ok w.clock then
    some (.ok (), ⟨(w.files.erase src).insert dst (w.data src), w.clock + 1⟩)
  else some (.error (.io dst), w.tick)

/-- `fs::remove_file`, with its result ignored. -/
def removeFile (path : FilePath) (env : Env) (w : World) : World :=
  if env.ok w.clock then ⟨w.files.erase path, w.clock + 1⟩ else w.tick

/-- The source file, as it was when it was opened. -/
structure FilePager where
  canonicalPath : FilePath
  fileSize : ℕ

def readForSave (pager : FilePager) (errPath : FilePath) (range : ByteRange) :
    Save (List UInt8) :=
  if range.len = 0 then pure []
  else if range.end_ > pager.fileSize then .throw (.io errPath)
  else preadExact pager.canonicalPath errPath range.start range.len

/-- Whether a path is that of a file, once it is canonical. -/
def sameCanonicalPath (lhs rhs : FilePath) : Save Bool := fun env w ↦
  some (.ok (env.ok w.clock && (w.files.lookup lhs).isSome && lhs = rhs), w.tick)

/-! ## Through a temporary file -/

/-- The name of the file with `.swp` appended, in a directory. -/
def buildTempPath (dest : FilePath) (tempDir : List String) : FilePath :=
  ⟨tempDir, dest.name ++ ".swp"⟩

/-- The loop of `write_original_piece`, `chunk` bytes at a time. -/
def writeOriginalLoop (chunk : ℕ) (pager : FilePager) (tempPath : FilePath)
    (totalBytes end_ : ℕ) : ℕ → ℕ → ℕ → Save ℕ
  | 0, _, bytesWritten => pure bytesWritten
  | fuel + 1, pos, bytesWritten =>
    if pos < end_ then do
      let chunkEnd := min (pos + chunk) end_
      let raw ← readForSave pager tempPath ⟨pos, chunkEnd⟩
      writeAll tempPath raw
      let bytesWritten := bytesWritten + raw.length
      let go ← onProgress ⟨bytesWritten, totalBytes⟩
      if go then
        writeOriginalLoop chunk pager tempPath totalBytes end_ fuel chunkEnd bytesWritten
      else .throw .cancelled
    else pure bytesWritten

def writeOriginalPiece (pager : FilePager) (tempPath : FilePath) (totalBytes : ℕ)
    (range : ByteRange) (bytesWritten : ℕ) : Save ℕ :=
  writeOriginalLoop saveChunkBytes pager tempPath totalBytes range.end_ range.len range.start
    bytesWritten

/-- The loop over the pieces. -/
def writePieces (source : PieceOverlay) (pager : FilePager) (tempPath : FilePath) :
    List Piece → ℕ → Save ℕ
  | [], bytesWritten => pure bytesWritten
  | .original fileRange _ :: pieces, bytesWritten => do
    let bytesWritten ← writeOriginalPiece pager tempPath source.totalByteLen fileRange bytesWritten
    writePieces source pager tempPath pieces bytesWritten
  | .inserted bufferId range byteLen :: pieces, bytesWritten =>
    match source.insertedBytesForPiece (.inserted bufferId range byteLen) with
    | none => .panic
    | some bytes => do
      writeAll tempPath bytes
      let bytesWritten := bytesWritten + bytes.length
      let go ← onProgress ⟨bytesWritten, source.totalByteLen⟩
      if go then writePieces source pager tempPath pieces bytesWritten else .throw .cancelled

/-- Write the temporary file and rename it. -/
def rewriteThrough (source : PieceOverlay) (pager : FilePager) (tempPath finalDest : FilePath) :
    Save Unit := do
  createFile tempPath
  let _ ← writePieces source pager tempPath source.pieces 0
  attempt tempPath
  rename tempPath finalDest

/-- The temporary file is removed after an error. -/
def streamSaveTempFile (source : PieceOverlay) (pager : FilePager) (finalDest : FilePath)
    (requestedTempDir : Option (List String)) : Save Unit := fun env w ↦
  let tempPath := buildTempPath finalDest (requestedTempDir.getD finalDest.dir)
  match rewriteThrough source pager tempPath finalDest env w with
  | none => none
  | some (.ok (), w) => some (.ok (), w)
  | some (.error e, w) => some (.error e, removeFile tempPath env w)

/-! ## In place -/

/-- The leading pieces that are the file's own beginning. -/
def commonOriginalPrefixLen (logical : ℕ) : List Piece → ℕ
  | .original fileRange _ :: pieces =>
    if fileRange.start = logical then commonOriginalPrefixLen (logical + fileRange.len) pieces
    else logical
  | _ => logical

/-- The trailing pieces that are the file's own end, from the last one back. -/
def commonOriginalSuffixLen (originalEnd logicalEnd suffixLen : ℕ) : List Piece → ℕ
  | .original fileRange _ :: pieces =>
    if fileRange.end_ = originalEnd then
      if fileRange.len > logicalEnd then suffixLen
      else commonOriginalSuffixLen fileRange.start (logicalEnd - fileRange.len)
        (suffixLen + fileRange.len) pieces
    else suffixLen
  | _ => suffixLen

structure SaveOptimizationPlan where
  prefixLen : ℕ
  oldSuffixStart : ℕ
  newSuffixStart : ℕ
  oldLen : ℕ

def SaveOptimizationPlan.forSource (source : PieceOverlay) : SaveOptimizationPlan :=
  let oldLen := source.originalFileByteLen
  let newLen := source.totalByteLen
  let prefixLen := commonOriginalPrefixLen 0 source.pieces
  let suffixLen := min (min (commonOriginalSuffixLen oldLen newLen 0 source.pieces.reverse)
    (oldLen - prefixLen)) (newLen - prefixLen)
  ⟨prefixLen, oldLen - suffixLen, newLen - suffixLen, oldLen⟩

def SaveOptimizationPlan.newChangedRange (plan : SaveOptimizationPlan) : ByteRange :=
  ⟨plan.prefixLen, plan.newSuffixStart⟩

def SaveOptimizationPlan.newChangedLen (plan : SaveOptimizationPlan) : ℕ :=
  plan.newSuffixStart - plan.prefixLen

/-- The loop of `collect_logical_range_bytes`. -/
def collectPieces (source : PieceOverlay) (pager : FilePager) (range : ByteRange) :
    List Piece → ℕ → List UInt8 → Save (List UInt8)
  | [], _, out => pure out
  | piece :: pieces, logicalStart, out =>
    let logicalEnd := logicalStart + piece.byteLen
    if logicalEnd ≤ range.start then collectPieces source pager range pieces logicalEnd out
    else if logicalStart ≥ range.end_ then pure out
    else
      let overlapStart := max logicalStart range.start
      let overlapEnd := min logicalEnd range.end_
      let pieceOffset := overlapStart - logicalStart
      let overlapLen := overlapEnd - overlapStart
      match piece with
      | .original fileRange _ => do
        let start := fileRange.start + pieceOffset
        let bytes ← readForSave pager pager.canonicalPath ⟨start, start + overlapLen⟩
        collectPieces source pager range pieces logicalEnd (out ++ bytes)
      | .inserted bufferId insertRange byteLen =>
        match source.insertedBytesForPiece (.inserted bufferId insertRange byteLen) with
        | none => .panic
        | some bytes =>
          if pieceOffset + overlapLen ≤ bytes.length then
            collectPieces source pager range pieces logicalEnd
              (out ++ (bytes.drop pieceOffset).take overlapLen)
          else .panic

def collectLogicalRangeBytes (source : PieceOverlay) (pager : FilePager) (range : ByteRange) :
    Save (List UInt8) :=
  if range.len > inPlaceChangedWindowMaxBytes then
    .throw (.invalidPolicy "changed window exceeds optimization buffer")
  else collectPieces source pager range source.pieces 0 []

/-- The blocks of the tail are moved up from the last one back. -/
def shiftTailRight (path : FilePath) (tailStart delta : ℕ) : ℕ → ℕ → Save Unit
  | 0, _ => pure ()
  | fuel + 1, end_ =>
    if end_ > tailStart then do
      let start := max (end_ - saveChunkBytes) tailStart
      let bytes ← preadExact path path start (end_ - start)
      pwriteAll path (start + delta) bytes
      shiftTailRight path tailStart delta fuel start
    else pure ()

/-- The blocks of the tail are moved down from the first one on. -/
def shiftTailLeft (path : FilePath) (oldLen delta : ℕ) : ℕ → ℕ → Save Unit
  | 0, _ => pure ()
  | fuel + 1, start =>
    if start < oldLen then do
      let end_ := min (start + saveChunkBytes) oldLen
      let bytes ← preadExact path path start (end_ - start)
      pwriteAll path (start - delta) bytes
      shiftTailLeft path oldLen delta fuel end_
    else pure ()

def saveSameSizeInPlace (source : PieceOverlay) (pager : FilePager) (dest : FilePath) :
    Save Unit :=
  let plan := SaveOptimizationPlan.forSource source
  if plan.newChangedLen > inPlaceChangedWindowMaxBytes then
    streamSaveTempFile source pager dest none
  else do
    let go ← onProgress ⟨0, source.totalByteLen⟩
    if go then
      let changed ← collectLogicalRangeBytes source pager plan.newChangedRange
      openFile dest
      pwriteAll dest plan.prefixLen changed
      attempt dest
      let _ ← onProgress ⟨source.totalByteLen, source.totalByteLen⟩
      pure ()
    else .throw .cancelled

/-- The changes of a file whose length grows or shrinks. -/
def shiftAndWrite (source : PieceOverlay) (plan : SaveOptimizationPlan) (dest : FilePath)
    (changed : List UInt8) : Save Unit :=
  if source.totalByteLen > source.originalFileByteLen then do
    setLen dest source.totalByteLen
    shiftTailRight dest plan.oldSuffixStart (source.totalByteLen - source.originalFileByteLen)
      (plan.oldLen - plan.oldSuffixStart) plan.oldLen
    pwriteAll dest plan.prefixLen changed
  else do
    pwriteAll dest plan.prefixLen changed
    shiftTailLeft dest plan.oldLen (source.originalFileByteLen - source.totalByteLen)
      (plan.oldLen - plan.oldSuffixStart) plan.oldSuffixStart
    setLen dest source.totalByteLen

def saveWithTailShift (source : PieceOverlay) (pager : FilePager) (dest : FilePath)
    (fallbackTempDir : Option (List String)) : Save Unit :=
  let plan := SaveOptimizationPlan.forSource source
  if plan.newChangedLen > inPlaceChangedWindowMaxBytes then
    streamSaveTempFile source pager dest fallbackTempDir
  else do
    let go ← onProgress ⟨0, source.totalByteLen⟩
    if go then
      let changed ← collectLogicalRangeBytes source pager plan.newChangedRange
      openFile dest
      shiftAndWrite source plan dest changed
      attempt dest
      let _ ← onProgress ⟨source.totalByteLen, source.totalByteLen⟩
      pure ()
    else .throw .cancelled

/-! ## Policies -/

/-- The policy that applies: in place only for the source file, and with or without a change of
the length as the policy asks. -/
def validatedPolicy (source : PieceOverlay) (pager : FilePager) (dest : FilePath) :
    VlfSavePolicy → Save VlfSavePolicy
  | .tempFileRewrite tempDir => pure (.tempFileRewrite tempDir)
  | .saveAs path => pure (.saveAs path)
  | .sameSizeInPlaceOverwrite =>
    if source.totalByteLen = source.originalFileByteLen then do
      let same ← sameCanonicalPath dest pager.canonicalPath
      pure (if same then .sameSizeInPlaceOverwrite else .tempFileRewrite none)
    else pure (.tempFileRewrite none)
  | .tailShift fallbackTempDir =>
    if source.totalByteLen ≠ source.originalFileByteLen then do
      let same ← sameCanonicalPath dest pager.canonicalPath
      pure (if same then .tailShift fallbackTempDir else .tempFileRewrite fallbackTempDir)
    else pure (.tempFileRewrite fallbackTempDir)

def streamSaveFromSource (source : PieceOverlay) (pager : FilePager) (dest : FilePath)
    (policy : VlfSavePolicy) : Save Unit := do
  match ← validatedPolicy source pager dest policy with
  | .tempFileRewrite tempDir => streamSaveTempFile source pager dest tempDir
  | .saveAs saveAsPath => streamSaveTempFile source pager saveAsPath none
  | .sameSizeInPlaceOverwrite => saveSameSizeInPlace source pager dest
  | .tailShift fallbackTempDir => saveWithTailShift source pager dest fallbackTempDir

/-- The file that a save is to write. -/
def VlfSavePolicy.finalDest (dest : FilePath) : VlfSavePolicy → FilePath
  | .saveAs path => path
  | _ => dest

/-- The temporary file that a save uses if it needs one. -/
def VlfSavePolicy.tempPath (dest : FilePath) : VlfSavePolicy → FilePath
  | .tempFileRewrite tempDir => buildTempPath dest (tempDir.getD dest.dir)
  | .saveAs path => buildTempPath path path.dir
  | .sameSizeInPlaceOverwrite => buildTempPath dest dest.dir
  | .tailShift fallbackTempDir => buildTempPath dest (fallbackTempDir.getD dest.dir)

end EeEditor.Vlf
