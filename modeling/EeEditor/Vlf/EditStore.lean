import EeEditor.Vlf.OverlayRead
import EeEditor.Vlf.PageCounts

/-!
# A very large file with an edit overlay

The state of `VlfStore` of `xi-core-lib/src/vlf/store`: the pager and the page index, the overlay of
the edits, the evidence of lone carriage returns, and the cached count of lines.
-/

namespace EeEditor.Vlf

inductive CrlfState where
  | unknown
  | crlfOnly
  | loneCr
deriving DecidableEq

structure EditStore where
  /-- The pager, the page index and the cursor of lookups in it. -/
  base : Store
  overlay : Option PieceOverlay
  /-- The last line and byte resolved in the overlay. -/
  lineCursor : Option (ℕ × ℕ)
  crlfState : CrlfState
  crlfPrefixSniffed : Bool
  exactLineCount : Option ℕ
deriving DecidableEq

namespace EditStore

def new (file : List UInt8) (pageSize : ℕ) : EditStore :=
  ⟨.new file pageSize, none, none, .unknown, false, none⟩

def maxReadSize (self : EditStore) : ℕ := self.base.pageSize * 4

end EditStore

end EeEditor.Vlf
