import EeEditor.Effect.Trace
import EeEditor.Lsp.ContentChanges

/-!
# Incremental sync

A document and the copy of it that a language server keeps, over the updates of the document. Every
update is applied to the view of the plugin first, and then told to the server. The server drifts
away when the end of a deletion is looked up in the document after it.
-/

namespace EeEditor

/-- The copies of a delta are slices of a string. -/
def Delta.onBoundaries (self : Delta UInt8) (text : List UInt8) : Bool :=
  self.els.all fun el ↦
    match el with
    | .copy beg end_ => isCharBoundary text beg && isCharBoundary text end_
    | .insert _ => true

namespace Lsp

/-- An update of a document, with the document that it leads to. Without a delta it is any. -/
structure Update where
  delta : Option (Delta UInt8)
  document : List UInt8
  valid : IsUtf8 document
  /-- Whether the plugin can read the document, and whether it can when it tries again. -/
  read : Bool
  again : Bool

structure Sync where
  buffer : List UInt8
  /-- The copy of the server, unless it was sent a change that it cannot make. -/
  server : Option (List UInt8)
deriving DecidableEq

/-- The delta leads from the text to the document. -/
def Update.applies (self : Update) (text : List UInt8) : Bool :=
  match self.delta with
  | none => true
  | some delta => delta.onBoundaries text && delta.apply text = some self.document

/-- What the server is told of an update. -/
def Update.changes (self : Update) : Option (List TextDocumentContentChangeEvent) :=
  getChangeForSyncKind .incremental (if self.read then some self.document else none)
    (if self.again then some self.document else none) self.delta

namespace Sync

def new (text : List UInt8) : Sync := ⟨text, some text⟩

/-- An update that cannot be told is skipped. -/
def step (self : Sync) (update : Update) : Option Sync :=
  if update.applies self.buffer then
    some ⟨update.document,
      match update.changes with
      | none => self.server
      | some events => self.server.bind (applyChanges · events)⟩
  else none

end Sync

/-! ## What can be told -/

/-- The end of a text, or one behind the line that it ends with. -/
def endOfStandIn (s : List UInt8) : Position :=
  if s.getLast? = some 10 then
    { endOf s.dropLast with character := ((endOf s.dropLast).character + 1) % 2 ^ 32 }
  else endOf s

/-- A deletion is told as it is: it has only whole line ends before it, and if as much text as it
deletes is taken from behind it and put in its place, that text ends at the same position. A
deletion whose end is no offset of the document is told by the whole document. -/
def DeletionTold (text document : List UInt8) (start end_ : ℕ) : Prop :=
  end_ ≤ document.length → isCharBoundary document end_ = true → noBareCr (text.take start) ∧
    Denotes text end_ (endOfStandIn (text.take start ++ (text.drop end_).take (end_ - start)))

/-- A change is told as it is. An insertion has only whole line ends before it. -/
def DeltaTold (text document : List UInt8) (delta : Delta UInt8) : Prop :=
  (delta.asSimpleInsert.isSome → noBareCr (text.take delta.summary.1.1)) ∧
    (delta.isSimpleDelete = true →
      DeletionTold text document delta.summary.1.1 delta.summary.1.2)

/-- An update is told as it is. The plugin can read the document if it has to send it as a whole. -/
def Update.Told (self : Update) (text : List UInt8) : Prop :=
  self.again = true ∧ ∀ delta ∈ self.delta, DeltaTold text self.document delta

instance (text document : List UInt8) (start end_ : ℕ) :
    Decidable (DeletionTold text document start end_) :=
  inferInstanceAs (Decidable (_ → _ → _ ∧ _))

instance (text document : List UInt8) (delta : Delta UInt8) :
    Decidable (DeltaTold text document delta) :=
  inferInstanceAs (Decidable (_ ∧ _))

instance (self : Update) (text : List UInt8) : Decidable (self.Told text) :=
  inferInstanceAs (Decidable (_ ∧ _))

/-! ## One update -/

variable {text document s : List UInt8} {delta : Delta UInt8} {update : Update} {offset : ℕ}
  {position : Position} {events : List TextDocumentContentChangeEvent}

theorem positionOfOffsetInDocument_eq
    (h : positionOfOffsetInDocument document offset = some position) :
    offset ≤ document.length ∧ isCharBoundary document offset = true ∧
      position = endOf (document.take offset) := by
  rw [positionOfOffsetInDocument] at h
  obtain ⟨hbounds, h⟩ := Option.ite_none_left_eq_some.mp h
  obtain ⟨-, h⟩ := Option.ite_none_right_eq_some.mp h
  cases h
  simp only [Bool.or_eq_true, decide_eq_true_iff, Bool.not_eq_true', not_or, Nat.not_lt,
    Bool.not_eq_false] at hbounds
  exact ⟨hbounds.1, hbounds.2, rfl⟩

/-- At a boundary of a text no character is continued. -/
theorem head_drop (h : IsUtf8 text) (hboundary : isCharBoundary text offset = true) :
    ∀ b ∈ (text.drop offset).head?, isContinuation b = false := by
  intro b hb
  obtain ⟨-, hdrop⟩ := h.split hboundary
  exact hdrop.head (by rwa [← List.head?_eq_getElem?])

theorem boundaries_of_mem (hbounds : delta.onBoundaries text = true) {beg end_ : ℕ}
    (h : DeltaElement.copy beg end_ ∈ delta.els) :
    isCharBoundary text beg = true ∧ isCharBoundary text end_ = true :=
  Bool.and_eq_true_iff.mp (List.all_eq_true.mp hbounds _ h)

theorem boundaries_of_framed {lead trail : Bool} {start end_ : ℕ}
    {mid : List (DeltaElement UInt8)} (h : delta.Framed lead trail start end_ mid)
    (hlen : text.length = delta.baseLen) (hbounds : delta.onBoundaries text = true) :
    isCharBoundary text start = true ∧ isCharBoundary text end_ = true := by
  constructor
  · cases lead with
    | true =>
      have hmem : DeltaElement.copy 0 start ∈ delta.els := by
        rw [h.els]
        simp [Delta.frame]
      exact (boundaries_of_mem hbounds hmem).2
    | false =>
      rw [h.lead rfl]
      exact isCharBoundary_zero
  · cases trail with
    | true =>
      have hmem : DeltaElement.copy end_ delta.baseLen ∈ delta.els := by
        rw [h.els]
        simp [Delta.frame]
      exact (boundaries_of_mem hbounds hmem).1
    | false =>
      rw [h.trail rfl, ← hlen]
      exact isCharBoundary_length

/-- An insertion that is told in a range. -/
theorem applyChange_insert (hvalid : IsUtf8 text) (hbounds : delta.onBoundaries text = true)
    (happly : delta.apply text = some document) {n : List UInt8}
    (hinsert : delta.asSimpleInsert = some n) (hcr : noBareCr (text.take delta.summary.1.1))
    {start end_ : Position}
    (hstart : positionOfOffsetInDocument document delta.summary.1.1 = some start)
    (hend : positionOfOffsetInDocument document delta.summary.1.2 = some end_) :
    applyChange text ⟨some ⟨start, end_⟩, n⟩ = some document := by
  obtain ⟨lead, trail, i, hframed⟩ := Delta.framed_of_asSimpleInsert hinsert
  obtain ⟨hlen, hi, hdocument⟩ := hframed.apply_eq (.inl rfl) happly
  obtain ⟨-, htake⟩ := Delta.take_summary happly
  rw [hframed.summary_eq (.inl ⟨n, rfl⟩)] at hstart hend hcr htake
  dsimp only at hstart hend hcr htake
  obtain rfl : start = end_ := Option.some.inj (hstart.symm.trans hend)
  obtain ⟨-, -, rfl⟩ := positionOfOffsetInDocument_eq hstart
  rw [← htake]
  have hdenotes : Denotes text i (endOf (text.take i)) := ⟨hcr, rfl, .inl rfl⟩
  have hoffset := hdenotes.offsetAt_eq hi
    (head_drop hvalid (boundaries_of_framed hframed hlen hbounds).1)
  rw [applyChange]
  dsimp only
  rw [hoffset, hdocument]
  simp

/-- The last line of a text is empty, or has a column. -/
theorem lastLine_eq_nil (hvalid : IsUtf8 s) (h : countUtf16CodeUnits (lastLine s) = 0) :
    lastLine s = [] := by
  cases hlast : lastLine s with
  | nil => rfl
  | cons b rest =>
    exfalso
    have hsplit : s.rdropWhile (fun b ↦ !isNewline b) ++ b :: rest = s := by
      rw [← hlast]
      exact List.rdropWhile_append_rtakeWhile ..
    have hb : isContinuation b = false := by
      have hend := getLast_rdropWhile s
      obtain hnil | ⟨init, c, hinit⟩ :=
        List.eq_nil_or_concat (s.rdropWhile fun b ↦ !isNewline b)
      · rw [hnil] at hsplit
        exact hvalid.head (by rw [← hsplit]; rfl)
      · rw [List.concat_eq_append] at hinit
        rw [hinit] at hsplit hend
        obtain rfl : c = 10 := hend c (by simp)
        refine hvalid.after_ascii (i := init.length) (a := 10) ?_ (by decide) ?_ <;>
          simp [← hsplit]
    rw [hlast] at h
    have hunits : countUtf16CodeUnits (b :: rest) = utf16Units b + countUtf16CodeUnits rest := rfl
    have hpos := utf16Units_pos hb
    omega

/-- The end of a deletion that is told is that of the text in its place. -/
theorem endOfDeletion_eq (hvalid : IsUtf8 document) {end_ : ℕ} (hpos : 0 < end_)
    (h : endOfDeletion document end_ = some position) :
    end_ ≤ document.length ∧ isCharBoundary document end_ = true ∧
      position = endOfStandIn (document.take end_) := by
  obtain ⟨endPosition, hend, h⟩ := Option.bind_eq_some_iff.mp h
  obtain ⟨hlen, hboundary, rfl⟩ := positionOfOffsetInDocument_eq hend
  refine ⟨hlen, hboundary, ?_⟩
  have hne : document.take end_ ≠ [] := by
    rw [← List.length_pos_iff, List.length_take, Nat.min_eq_left hlen]
    exact hpos
  split at h
  · rename_i hzero
    have hnil := lastLine_eq_nil (hvalid.split hboundary).1 hzero
    have hlast : (document.take end_).getLast? = some 10 := by
      rw [List.getLast?_eq_some_getLast hne]
      have := List.rtakeWhile_eq_nil_iff.mp hnil hne
      simpa [isNewline] using this
    obtain ⟨ep, hep, h⟩ := Option.bind_eq_some_iff.mp h
    cases h
    obtain ⟨-, -, rfl⟩ := positionOfOffsetInDocument_eq hep
    have hdrop : (document.take end_).dropLast = document.take (end_ - 1) := by
      rw [List.dropLast_eq_take, List.length_take, Nat.min_eq_left hlen, List.take_take,
        Nat.min_eq_left (Nat.sub_le ..)]
    rw [endOfStandIn, if_pos hlast, hdrop]
  · rename_i hcolumn
    cases h
    rw [endOfStandIn, if_neg]
    intro hlast
    apply hcolumn
    obtain ⟨init, hinit⟩ := List.getLast?_eq_some_iff.mp hlast
    rw [hinit]
    change countUtf16CodeUnits ((init ++ [10]).rtakeWhile _) = 0
    rw [List.rtakeWhile_concat_neg _ _ _ (by decide)]
    rfl

/-- A deletion that is told in a range. -/
theorem applyChange_delete (hvalid : IsUtf8 text) (hvalid' : IsUtf8 document)
    (hbounds : delta.onBoundaries text = true) (happly : delta.apply text = some document)
    (hdelete : delta.isSimpleDelete = true)
    (htold : DeletionTold text document delta.summary.1.1 delta.summary.1.2)
    {start end_ : Position} (hend : endOfDeletion document delta.summary.1.2 = some end_)
    (hstart : positionOfOffsetInDocument document delta.summary.1.1 = some start) :
    applyChange text ⟨some ⟨start, end_⟩, []⟩ = some document := by
  obtain ⟨lead, trail, a, b, hframed, hlt⟩ := Delta.framed_of_isSimpleDelete hdelete
  obtain ⟨hlen, hb, hdocument⟩ := hframed.apply_eq (.inr ⟨rfl, rfl⟩) happly
  obtain ⟨-, htake⟩ := Delta.take_summary happly
  rw [hframed.summary_eq (.inr ⟨rfl, hlt⟩)] at hstart hend htold htake
  dsimp only at hstart hend htold htake
  obtain ⟨hba, hbb⟩ := boundaries_of_framed hframed hlen hbounds
  obtain ⟨hle, hboundary, rfl⟩ := endOfDeletion_eq hvalid' (by omega) hend
  obtain ⟨hcr, hdenotes⟩ := htold hle hboundary
  obtain ⟨-, -, rfl⟩ := positionOfOffsetInDocument_eq hstart
  have hstandIn : document.take b = text.take a ++ (text.drop b).take (b - a) := by
    have htaken : (text.take a).length = a := by
      rw [List.length_take]
      omega
    rw [hdocument, List.append_nil, List.take_append, htaken,
      List.take_of_length_le (by omega)]
  rw [← hstandIn] at hdenotes
  have hoffset := hdenotes.offsetAt_eq hb (head_drop hvalid hbb)
  have hdenotes' : Denotes text a (endOf (document.take a)) :=
    ⟨hcr, by rw [htake], .inl (by rw [htake])⟩
  have hoffset' := hdenotes'.offsetAt_eq (by omega) (head_drop hvalid hba)
  rw [applyChange]
  dsimp only
  rw [hoffset', hoffset]
  simp [hdocument, hlt.le]

theorem documentContentChangesFromDelta_applied (hvalid : IsUtf8 text) (hvalid' : IsUtf8 document)
    (hbounds : delta.onBoundaries text = true) (happly : delta.apply text = some document)
    (htold : DeltaTold text document delta)
    (h : documentContentChangesFromDelta (some delta) document = some events) :
    applyChanges text events = some document := by
  rw [documentContentChangesFromDelta] at h
  dsimp only at h
  split at h
  · rename_i n hinsert
    obtain ⟨start, hstart, h⟩ := Option.bind_eq_some_iff.mp h
    obtain ⟨end_, hend, h⟩ := Option.bind_eq_some_iff.mp h
    cases h
    have hcr := htold.1 (by rw [hinsert]; rfl)
    exact (bind_pure _).trans (applyChange_insert hvalid hbounds happly hinsert hcr hstart hend)
  · split at h
    · rename_i hdelete
      obtain ⟨end_, hend, h⟩ := Option.bind_eq_some_iff.mp h
      obtain ⟨start, hstart, h⟩ := Option.bind_eq_some_iff.mp h
      cases h
      exact (bind_pure _).trans (applyChange_delete hvalid hvalid' hbounds happly hdelete
        (htold.2 hdelete) hend hstart)
    · cases h
      rfl

/-- An update that is told leads the server to the document. -/
theorem Update.Told.applyChanges (h : update.Told text) (hvalid : IsUtf8 text)
    (happlies : update.applies text = true) :
    ∃ events, update.changes = some events ∧
    Lsp.applyChanges text events = some update.document := by
  obtain ⟨hagain, htold⟩ := h
  rw [Update.changes, getChangeForSyncKind]
  split
  · rename_i events hevents
    refine ⟨events, rfl, ?_⟩
    obtain ⟨document, hread, hevents⟩ := Option.bind_eq_some_iff.mp hevents
    obtain ⟨-, hdocument⟩ := Option.ite_none_right_eq_some.mp hread
    cases hdocument
    rw [Update.applies] at happlies
    split at happlies
    · rename_i hdelta
      rw [hdelta] at hevents
      cases hevents
      rfl
    · rename_i delta hdelta
      rw [hdelta] at hevents
      obtain ⟨hbounds, happly⟩ := Bool.and_eq_true_iff.mp happlies
      exact documentContentChangesFromDelta_applied hvalid update.valid hbounds
        (of_decide_eq_true happly) (htold delta hdelta) hevents
  · rw [hagain]
    exact ⟨_, rfl, rfl⟩

/-! ## Runs -/

namespace Sync

/-- Whether the update is told as it is. -/
def Tells (self : Sync) (update : Update) : Prop := update.Told self.buffer

/-- The server has the text of the buffer. -/
structure Inv (sync : Sync) : Prop where
  valid : IsUtf8 sync.buffer
  server : sync.server = some sync.buffer

variable {self self' : Sync}

theorem Inv.step (h : Inv self) (htold : self.Tells update)
    (hstep : self.step update = some self') :
    Inv self' := by
  obtain ⟨happlies, hstep⟩ := Option.ite_none_right_eq_some.mp hstep
  cases hstep
  refine ⟨update.valid, ?_⟩
  obtain ⟨events, hchanges, happly⟩ := htold.applyChanges h.valid happlies
  rw [hchanges, h.server]
  exact happly

/-- The server has the text of the buffer in every state of the run. -/
def InSync (text : List UInt8) (updates : List Update) : Prop :=
  ∀ pre post sync, updates = pre ++ post → exec step (new text) pre = some sync →
    sync.server = some sync.buffer

/-- **Incremental sync does not drift** over any run of updates that are told as they are. -/
theorem inSync {text : List UInt8} (hvalid : IsUtf8 text) {updates : List Update}
    (htold : Throughout step (new text) updates Tells) : InSync text updates := by
  rintro pre post sync rfl hrun
  have hinv : Inv sync := exec_invariant (fun _ _ _ h hP hstep ↦ h.step hP hstep)
    ⟨hvalid, rfl⟩ htold.of_append hrun
  exact hinv.server

instance (self : Sync) (update : Update) : Decidable (self.Tells update) :=
  inferInstanceAs (Decidable (update.Told self.buffer))

/-- An insertion, a deletion before the end of a line, and a new document. -/
def toldUpdates : List Update :=
  [⟨some (.simpleEdit 1 1 [120] 4), [97, 120, 98, 10, 99], ⟨['a', 'x', 'b', '\n', 'c'], by decide⟩,
      true, true⟩,
    ⟨some (.simpleEdit 0 2 [] 5), [98, 10, 99], ⟨['b', '\n', 'c'], by decide⟩, true, true⟩,
    ⟨none, [100], ⟨['d'], by decide⟩, false, true⟩]

theorem inSync_told : (exec step (new [97, 98, 10, 99]) toldUpdates).isSome ∧
    InSync [97, 98, 10, 99] toldUpdates :=
  ⟨rfl, inSync ⟨['a', 'b', '\n', 'c'], by decide⟩ (by decide)⟩

/-- The first line of three is deleted. Its end is looked up in the two lines that are left, and the
newline stays in the copy of the server. -/
theorem deleted_line_drifts : ¬ ∀ (text : List UInt8) (updates : List Update), IsUtf8 text →
    InSync text updates := by
  intro h
  have hsync := h [97, 10, 98, 10, 99]
    [⟨some (.simpleEdit 0 2 [] 5), [98, 10, 99], ⟨['b', '\n', 'c'], by decide⟩, true, true⟩]
    ⟨['a', '\n', 'b', '\n', 'c'], by decide⟩ _ []
    ⟨[98, 10, 99], some [10, 98, 10, 99]⟩ (List.append_nil _).symm (by decide)
  exact absurd hsync (by decide)

end Sync

end Lsp

end EeEditor
