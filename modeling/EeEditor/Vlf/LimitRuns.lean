import EeEditor.Vlf.Evictions

/-!
# Limits of a piece overlay along runs

What a call of an edit in an undo group promises (`Upholds`): it returns, the history stays within
its limit and lists its groups, an insertion that succeeds stays within the cap of the memory, the
group of the edit stays in the history, and a call that fails changes nothing. The call keeps all of
it exactly when the evictions that make room for it do (`Meets`).
-/

namespace EeEditor.Vlf

/-- A call of the overlay. -/
inductive OverlayCall where
  | insert (at_ : ℕ) (text : List UInt8) (ctx : OverlayEditContext)
  | delete (range : ByteRange) (ctx : OverlayEditContext)
  | gc (undoGroup : ℕ)

namespace PieceOverlay

variable {file : List UInt8} {s s' t : PieceOverlay} {k pieceSize : ℕ}

def call (s : PieceOverlay) (pieceSize : ℕ) :
    OverlayCall → Option (Except OverlayError Unit × PieceOverlay)
  | .insert at_ text ctx => s.insertInGroup pieceSize at_ text ctx
  | .delete range ctx => s.deleteInGroup pieceSize range ctx
  | .gc undoGroup => some (.ok (), s.gcUndoGroup undoGroup)

/-- The offsets are at boundaries of inserted text, and what is inserted is text. -/
def AlignedCall (file : List UInt8) (s : PieceOverlay) : OverlayCall → Prop
  | .insert at_ text _ => IsUtf8 text ∧ s.AlignedAt file at_
  | .delete range _ => s.AlignedAt file range.start ∧ s.AlignedAt file range.end_
  | .gc _ => True

/-! ## What a call promises -/

/-- The history lists its groups and is within its limit. -/
def Limited (s : PieceOverlay) : Prop :=
  s.Tracked ∧ s.undoHistory.entries.length ≤ s.limits.maxUndoGroups

/-- The group goes on from the operations that it had. -/
def Continues (s s' : PieceOverlay) (g : ℕ) : Prop :=
  ∀ delta, s.undoHistory.lookup g = some delta →
    ∃ op, s'.undoHistory.lookup g = some { delta with ops := delta.ops ++ [op] }

/-- Pieces, buffers and history are those of before. -/
def Unchanged (s s' : PieceOverlay) : Prop :=
  s'.pieces = s.pieces ∧ s'.buffers = s.buffers ∧ s'.undoHistory = s.undoHistory ∧
    s'.undoGroupOrder = s.undoGroupOrder

/-- What the result of an edit in a group promises, where `bytes` is what a success does. -/
def Promises (s : PieceOverlay) (g : ℕ) (bytes : PieceOverlay → Prop)
    (result : Option (Except OverlayError Unit × PieceOverlay)) : Prop :=
  ∃ r s', result = some (r, s') ∧ s'.Limited ∧ (r = .ok () → bytes s' ∧ Continues s s' g) ∧
    ∀ e, r = .error e → Unchanged s s'

def Upholds (s : PieceOverlay) (pieceSize : ℕ) (c : OverlayCall) : Prop :=
  match c with
  | .insert _ _ ctx => s.Promises ctx.undoGroup
      (fun s' ↦ s'.overlayBytes pieceSize ≤ s'.limits.overlayByteCap) (s.call pieceSize c)
  | .delete _ ctx => s.Promises ctx.undoGroup (fun _ ↦ True) (s.call pieceSize c)
  | .gc undoGroup => (s.gcUndoGroup undoGroup).Limited

/-! ## When it is kept -/

/-- An edit that is possible evicts neither its group nor what it needs, and an edit that is refused
evicts nothing. -/
def MeetsEdit (s : PieceOverlay) (pieceSize incomingBytes g : ℕ) (inRange : Prop)
    (needs : ℕ → Prop) :
    Prop :=
  (inRange ∧ ∃ k, s.Makes pieceSize incomingBytes k ∧ g ∉ s.undoGroupOrder.take k ∧ needs k) ∨
    (¬ inRange ∨ ∀ k, ¬ s.Makes pieceSize incomingBytes k) ∧
      (s.undoGroupOrder = [] ∨ s.Makes pieceSize incomingBytes 0)

/-- The pieces that an insertion adds: a piece in whose middle it is becomes two. -/
def newPieces (s : PieceOverlay) (at_ : ℕ) : ℕ :=
  if at_ = s.totalByteLen ∨ at_ ∈ s.cumOffsets then 1 else 2

/-- What an insertion needs of the evictions: an active buffer, if there is no text, and room for
the new pieces as well, if there is. -/
def InsertNeeds (s : PieceOverlay) (pieceSize at_ : ℕ) (text : List UInt8) (k : ℕ) : Prop :=
  if text = [] then (s.activeWithout k).isSome = true
  else s.bytesWithout pieceSize k + text.length + s.newPieces
    at_ * pieceSize ≤ s.limits.overlayByteCap

def Meets (s : PieceOverlay) (pieceSize : ℕ) : OverlayCall → Prop
  | .insert at_ text ctx => s.MeetsEdit pieceSize text.length ctx.undoGroup (at_ ≤ s.totalByteLen)
      (s.InsertNeeds pieceSize at_ text)
  | .delete range ctx => s.MeetsEdit pieceSize 0 ctx.undoGroup (range.end_ ≤ s.totalByteLen)
      fun _ ↦ True
  | .gc _ => True

/-! ## Edits in a group -/

/-- An edit in a group: the limits, the edit, and the record of its operation. -/
def editInGroup (s : PieceOverlay) (pieceSize incomingBytes : ℕ) (ctx : OverlayEditContext)
    (edit : PieceOverlay → Option (Except OverlayError (PieceOverlay × OverlayOp))) :
    Option (Except OverlayError Unit × PieceOverlay) :=
  match s.enforceLimits pieceSize incomingBytes with
  | (.error e, s) => some (.error e, s)
  | (.ok (), s) => (edit s).map fun
    | .error e => (.error e, s)
    | .ok (s', op) => (.ok (), s'.record ctx op)

/-- An insertion and its operation. -/
def insertOp (at_ : ℕ) (text : List UInt8) (s : PieceOverlay) :
    Option (Except OverlayError (PieceOverlay × OverlayOp)) := do
  match ← s.insert at_ text with
  | .error e => return .error e
  | .ok s =>
    let activeId ← s.activeBuffer
    let buf ← s.buffers.lookup activeId
    return .ok (s, .insert at_ activeId ⟨buf.length - text.length, buf.length⟩)

/-- A deletion and its operation. -/
def deleteOp (range : ByteRange) (s : PieceOverlay) :
    Option (Except OverlayError (PieceOverlay × OverlayOp)) :=
  (s.delete range).map fun r ↦ r.map fun s ↦ (s, .delete range)

theorem insertInGroup_eq (s : PieceOverlay) (pieceSize at_ : ℕ) (text : List UInt8)
    (ctx : OverlayEditContext) : s.insertInGroup pieceSize at_ text ctx
      = s.editInGroup pieceSize text.length ctx (insertOp at_ text) := by
  rw [insertInGroup, editInGroup]
  rcases s.enforceLimits pieceSize text.length with ⟨_ | _, t⟩
  · rfl
  · dsimp only
    rw [insertOp]
    cases t.insert at_ text with
    | none => rfl
    | some r =>
      cases r with
      | error e => rfl
      | ok u =>
        dsimp only [Option.bind_eq_bind, Option.bind_some]
        cases u.activeBuffer with
        | none => rfl
        | some id =>
          dsimp only [Option.bind_some]
          cases u.buffers.lookup id with
          | none => rfl
          | some buf => rfl

theorem deleteInGroup_eq (s : PieceOverlay) (pieceSize : ℕ) (range : ByteRange)
    (ctx : OverlayEditContext) : s.deleteInGroup pieceSize range ctx
      = s.editInGroup pieceSize 0 ctx (deleteOp range) := by
  rw [deleteInGroup, editInGroup]
  rcases s.enforceLimits pieceSize 0 with ⟨_ | _, t⟩
  · rfl
  · dsimp only
    rw [deleteOp]
    cases t.delete range with
    | none => rfl
    | some r =>
      cases r with
      | error e => rfl
      | ok u => rfl

/-- The delta to which an operation is added. -/
def groupDelta (s : PieceOverlay) (ctx : OverlayEditContext) : OverlayDelta :=
  (s.undoHistory.lookup ctx.undoGroup).getD ⟨ctx.undoGroup, ctx.revisionId, []⟩

theorem lookup_record (t : PieceOverlay) (ctx : OverlayEditContext) (op : OverlayOp) (g : ℕ) :
    (t.record ctx op).undoHistory.lookup g
      = if g = ctx.undoGroup then
          some { t.groupDelta ctx with ops := (t.groupDelta ctx).ops ++ [op] }
        else t.undoHistory.lookup g := by
  split
  · next heq =>
    subst heq
    exact AList.lookup_insert _
  · next hne => exact AList.lookup_insert_ne hne

/-- The record of an operation in a history that has room for a group. -/
theorem Tracked.record (h : t.Tracked) (ctx : OverlayEditContext) (op : OverlayOp)
    (hroom : t.undoGroupOrder.length < t.limits.maxUndoGroups) :
    (t.record ctx op).Limited := by
  have horder : (t.record ctx op).undoGroupOrder
      = if ctx.undoGroup ∈ t.undoGroupOrder then t.undoGroupOrder
        else t.undoGroupOrder ++ [ctx.undoGroup] := by
    rw [PieceOverlay.record]
    dsimp only
    have hkeys := h.keys ctx.undoGroup
    by_cases hmem : ctx.undoGroup ∈ t.undoGroupOrder
    · rw [if_pos hmem, if_neg]
      rw [← Option.not_isSome, Bool.not_eq_true', hkeys.mp hmem]
      exact Bool.noConfusion
    · rw [if_neg hmem, if_pos]
      rw [← Option.not_isSome, Bool.not_eq_true', ← Bool.not_eq_true, ← hkeys]
      exact hmem
  have htracked : (t.record ctx op).Tracked := by
    refine ⟨?_, fun g ↦ ?_, fun g delta hdelta ↦ ?_⟩
    · rw [horder]
      split
      · exact h.nodup
      · next hmem =>
        exact List.nodup_append'.mpr ⟨h.nodup, List.nodup_singleton _,
          List.disjoint_singleton.mpr hmem⟩
    · rw [horder, lookup_record]
      by_cases hg : g = ctx.undoGroup
      · subst hg
        rw [if_pos rfl]
        refine iff_of_true ?_ rfl
        split
        · assumption
        · exact List.mem_append_right _ (List.mem_singleton_self _)
      · rw [if_neg hg, ← h.keys]
        split
        · rfl
        · rw [List.mem_append, List.mem_singleton]
          exact or_iff_left hg
    · rw [lookup_record] at hdelta
      split at hdelta
      · obtain rfl := Option.some.inj hdelta
        exact List.append_ne_nil_of_right_ne_nil _ (List.cons_ne_nil _ _)
      · exact h.ops g delta hdelta
  refine ⟨htracked, ?_⟩
  rw [htracked.length_eq, horder]
  change _ ≤ t.limits.maxUndoGroups
  split
  · exact hroom.le
  · rw [List.length_append]
    exact hroom

theorem Evicted.limited (hs : s.Limited) (h : Evicted file s k t) : t.Limited := by
  have ht := h.tracked hs.1
  refine ⟨ht, ?_⟩
  have hfew := hs.2
  rw [hs.1.length_eq] at hfew
  rw [ht.length_eq, h.order_eq, h.limits_eq, List.length_drop]
  exact (Nat.sub_le _ _).trans hfew

/-- Nothing has changed if nothing is evicted. -/
theorem Evicted.unchanged_iff (h : Evicted file s k t) (hk : k ≤ s.undoGroupOrder.length) :
    Unchanged s t ↔ k = 0 := by
  constructor
  · rintro ⟨-, -, -, horder⟩
    have hlen := congrArg List.length (h.order_eq.symm.trans horder)
    rw [List.length_drop] at hlen
    omega
  · intro hzero
    rw [h.start hzero]
    exact ⟨rfl, rfl, rfl, rfl⟩

/-- The group of a recorded operation goes on, unless it has been evicted. -/
theorem Evicted.continues_iff (hs : s.Tracked) (h : Evicted file s k t) (ctx : OverlayEditContext)
    {u : PieceOverlay} (hu : u.undoHistory = t.undoHistory) (op : OverlayOp) :
    Continues s (u.record ctx op) ctx.undoGroup ↔
      ctx.undoGroup ∉ s.undoGroupOrder.take k := by
  have hlookup : (u.record ctx op).undoHistory.lookup ctx.undoGroup
      = some { u.groupDelta ctx with ops := (u.groupDelta ctx).ops ++ [op] } := by
    rw [lookup_record, if_pos rfl]
  have hhistory := h.history ctx.undoGroup
  rw [groupDelta, hu] at hlookup
  constructor
  · intro hcontinues htake
    obtain ⟨delta, hdelta⟩ := Option.isSome_iff_exists.mp
      ((hs.keys _).mp (List.mem_of_mem_take htake))
    obtain ⟨op', hop⟩ := hcontinues delta hdelta
    rw [if_pos htake] at hhistory
    rw [hhistory, Option.getD_none] at hlookup
    have hops := congrArg OverlayDelta.ops (Option.some.inj (hlookup.symm.trans hop))
    have hlen := congrArg List.length hops
    rw [List.length_append, List.length_append] at hlen
    exact hs.ops _ delta hdelta (List.eq_nil_of_length_eq_zero (Nat.add_right_cancel hlen).symm)
  · intro htake delta hdelta
    rw [if_neg htake, hdelta] at hhistory
    rw [hhistory, Option.getD_some] at hlookup
    exact ⟨op, hlookup⟩

/-- The history and its limits are those of before. -/
structure SameHistory (s s' : PieceOverlay) : Prop where
  history : s'.undoHistory = s.undoHistory
  order : s'.undoGroupOrder = s.undoGroupOrder
  limits : s'.limits = s.limits

theorem SameHistory.tracked (h : SameHistory s s') (hs : s.Tracked) : s'.Tracked := by
  obtain ⟨hnodup, hkeys, hops⟩ := hs
  refine ⟨by rwa [h.order], fun g ↦ ?_, fun g ↦ ?_⟩
  · rw [h.order, h.history]
    exact hkeys g
  · rw [h.history]
    exact hops g

/-- An edit keeps its promises exactly when the evictions that make room for it do. -/
theorem promises_editInGroup_iff (hs : s.Limited) (h : s.Wf file)
    (hmax : 1 ≤ s.limits.maxUndoGroups)
    {incomingBytes : ℕ} {ctx : OverlayEditContext} {inRange : Prop} {needs : ℕ → Prop}
    {bytes : PieceOverlay → Prop}
    {edit : PieceOverlay → Option (Except OverlayError (PieceOverlay × OverlayOp))}
    (hfail : ∀ k t, Evicted file s k t → ¬ inRange → ∃ e, edit t = some (.error e))
    (hpanic : ∀ k t, Evicted file s k t → inRange → edit t = none → ¬ needs k)
    (hok : ∀ k t, Evicted file s k t → inRange → ∀ r, edit t = some r →
      ∃ u op, r = .ok (u, op) ∧ SameHistory t u ∧
        (s.Room pieceSize incomingBytes k → (bytes (u.record ctx op) ↔ needs k))) :
    s.Promises ctx.undoGroup bytes (s.editInGroup pieceSize incomingBytes ctx edit) ↔
      s.MeetsEdit pieceSize incomingBytes ctx.undoGroup inRange needs := by
  obtain ⟨k, r, t, heq, ht, ⟨rfl, hmakes⟩ | ⟨⟨e, rfl⟩, hk, hnone⟩⟩ :=
    enforceLimits_spec hs.1 h hmax pieceSize incomingBytes
  swap
  · -- there is no room
    rw [editInGroup, heq]
    dsimp only
    have hzero := ht.unchanged_iff hk.le
    constructor
    · rintro ⟨r, s', hresult, -, -, herr⟩
      obtain ⟨rfl, rfl⟩ := Prod.mk.inj (Option.some.inj hresult)
      refine .inr ⟨.inr hnone, .inl (List.eq_nil_of_length_eq_zero ?_)⟩
      rw [← hk]
      exact hzero.mp (herr e rfl)
    · rintro (⟨-, j, hj, -⟩ | ⟨-, hnil | hj⟩)
      · exact absurd hj (hnone j)
      · rw [hnil] at hk
        exact ⟨_, _, rfl, ht.limited hs, nofun, fun _ _ ↦ hzero.mpr hk⟩
      · exact absurd hj (hnone 0)
  rw [editInGroup, heq]
  dsimp only
  by_cases hrange : inRange
  · have hfirst : s.MeetsEdit pieceSize incomingBytes ctx.undoGroup inRange needs ↔
        ctx.undoGroup ∉ s.undoGroupOrder.take k ∧ needs k := by
      constructor
      · rintro (⟨-, j, hj, hgroup, hneeds⟩ | ⟨hor, -⟩)
        · obtain rfl := hj.unique hmakes
          exact ⟨hgroup, hneeds⟩
        · exact absurd hmakes (hor.resolve_left (not_not.mpr hrange) k)
      · exact fun hneeds ↦ .inl ⟨hrange, k, hmakes, hneeds⟩
    rw [hfirst]
    cases hedit : edit t with
    | none =>
      refine iff_of_false ?_ fun hneeds ↦ hpanic k t ht hrange hedit hneeds.2
      rintro ⟨r, s', hresult, -⟩
      cases hresult
    | some r =>
      obtain ⟨u, op, rfl, hsame, hbytes⟩ := hok k t ht hrange r hedit
      have hutracked := hsame.tracked (ht.tracked hs.1)
      have hroom : u.undoGroupOrder.length < u.limits.maxUndoGroups := by
        rw [hsame.order, hsame.limits, ht.order_eq, ht.limits_eq, List.length_drop]
        exact hmakes.2.1.1
      have hcontinues := ht.continues_iff hs.1 ctx hsame.history op
      constructor
      · rintro ⟨r, s', hresult, -, hdone, -⟩
        obtain ⟨rfl, rfl⟩ := Prod.mk.inj (Option.some.inj hresult)
        obtain ⟨hcap, hgroup⟩ := hdone rfl
        exact ⟨hcontinues.mp hgroup, (hbytes hmakes.2.1).mp hcap⟩
      · rintro ⟨hgroup, hneeds⟩
        exact ⟨_, _, rfl, hutracked.record ctx op hroom,
          fun _ ↦ ⟨(hbytes hmakes.2.1).mpr hneeds, hcontinues.mpr hgroup⟩, nofun⟩
  · obtain ⟨e, hedit⟩ := hfail k t ht hrange
    rw [hedit]
    have hzero := ht.unchanged_iff hmakes.1
    constructor
    · rintro ⟨r, s', hresult, -, -, herr⟩
      obtain ⟨rfl, rfl⟩ := Prod.mk.inj (Option.some.inj hresult)
      obtain rfl := hzero.mp (herr e rfl)
      exact .inr ⟨.inl hrange, .inr hmakes⟩
    · rintro (⟨hin, -⟩ | ⟨-, hnil | hj⟩)
      · exact absurd hin hrange
      · have hk := hmakes.1
        rw [hnil] at hk
        exact ⟨_, _, rfl, ht.limited hs, nofun, fun _ _ ↦ hzero.mpr (Nat.le_zero.mp hk)⟩
      · exact ⟨_, _, rfl, ht.limited hs, nofun, fun _ _ ↦ hzero.mpr (hmakes.unique hj)⟩

/-! ## Insertions -/

section

variable {at_ : ℕ} {text : List UInt8}

/-- The active buffer is longer by the text, and the history is left alone. -/
theorem appendActive_frame {r : ℕ × InsertRange} (h : s.appendActive text = some (s', r)) :
    SameHistory s s' ∧ (s'.activeBuffer.bind s'.buffers.lookup).isSome ∧
      s'.bufferLen s'.activeBuffer = s.bufferLen s.activeBuffer + text.length := by
  rw [appendActive, activeBufferMut] at h
  cases hactive : s.activeBuffer with
  | some id =>
    rw [hactive] at h
    obtain ⟨bytes, hbytes, h⟩ := Option.map_eq_some_iff.mp h
    obtain ⟨rfl, rfl⟩ := Prod.mk.inj h
    dsimp only at hbytes ⊢
    refine ⟨⟨rfl, rfl, rfl⟩, ?_, ?_⟩
    · rw [hactive, Option.bind_some, AList.lookup_insert]
      rfl
    · rw [bufferLen, bufferLen, hactive, Option.bind_some, Option.bind_some, AList.lookup_insert,
        hbytes,
        Option.getD_some, Option.getD_some, List.length_append]
  | none =>
    rw [hactive] at h
    obtain ⟨bytes, hbytes, h⟩ := Option.map_eq_some_iff.mp h
    obtain ⟨rfl, rfl⟩ := Prod.mk.inj h
    dsimp only at hbytes ⊢
    rw [AList.lookup_insert] at hbytes
    obtain rfl := Option.some.inj hbytes
    refine ⟨⟨rfl, rfl, rfl⟩, ?_, ?_⟩
    · rw [Option.bind_some, AList.lookup_insert]
      rfl
    · rw [bufferLen, bufferLen, Option.bind_some, AList.lookup_insert]
      exact (Nat.zero_add _).symm

/-- An offset in a piece is where the piece starts, or it is no start. -/
theorem Wf.mem_cumOffsets_iff (h : s.Wf file) {ps qs : List Piece} {p : Piece}
    (heq : s.pieces = ps ++ p :: qs) (hlo : extent Piece.byteLen ps ≤ at_)
    (hhi : at_ < extent Piece.byteLen ps + p.byteLen) :
    at_ ∈ s.cumOffsets ↔ at_ = extent Piece.byteLen ps := by
  have hpos := h.byteLen_pos
  rw [heq] at hpos
  rw [h.cumOffsets_eq, heq, starts_append, starts, List.mem_append, List.mem_cons, Nat.zero_add]
  constructor
  · rintro (hmem | hmem | hmem)
    · have := mem_starts (fun x hx ↦ hpos x (List.mem_append_left _ hx)) hmem
      omega
    · exact hmem
    · have := mem_starts (fun x hx ↦ hpos x (by simp [hx])) hmem
      omega
  · exact fun hat ↦ .inr (.inl hat)

/-- What an insertion of text does to the memory. -/
theorem Wf.insert_frame (h : s.Wf file) (hne : text ≠ [])
    (hins : s.insert at_ text = some (.ok s')) :
    SameHistory s s' ∧ (s'.activeBuffer.bind s'.buffers.lookup).isSome ∧
      s'.bufferLen s'.activeBuffer = s.bufferLen s.activeBuffer + text.length ∧
      s'.pieces.length = s.pieces.length + s.newPieces at_ := by
  rw [insert] at hins
  split at hins
  · cases hins
  next hat =>
  split at hins
  · next hempty => exact absurd (List.isEmpty_iff.mp hempty) hne
  simp only [Option.bind_eq_bind, Option.bind_eq_some_iff] at hins
  obtain ⟨n, hn, ⟨s₁, id, range⟩, happend, hins⟩ := hins
  obtain ⟨hutf8, rfl⟩ := fromBytes_eq_some.mp hn
  obtain ⟨hsame, hactive, hlen⟩ := appendActive_frame happend
  obtain ⟨s₂, id', range', happend', h₁, hpieces, htotal, -⟩ := h.appendActive_eq hne hutf8
  obtain rfl : s₁ = s₂ := (Prod.mk.inj (Option.some.inj (happend.symm.trans happend'))).1
  have hcum : s₁.cumOffsets = s.cumOffsets := by rw [h₁.cumOffsets_eq, hpieces, h.cumOffsets_eq]
  dsimp only at hins
  split at hins
  · next hend =>
    obtain rfl := Except.ok.inj (Option.some.inj hins)
    refine ⟨⟨hsame.1, hsame.2, hsame.3⟩, hactive, hlen, ?_⟩
    rw [newPieces, if_pos (.inl (hend.trans htotal)), List.length_append, hpieces]
    rfl
  next hend =>
  obtain ⟨⟨idx, start⟩, hfor, hins⟩ := Option.bind_eq_some_iff.mp hins
  obtain ⟨ps, p, qs, heq, hlo, hhi, hfor'⟩ := h₁.pieceForByte_eq (b := at_) (by omega)
  obtain ⟨rfl, rfl⟩ := Prod.mk.inj (Option.some.inj (hfor'.symm.trans hfor))
  have hnew : s.newPieces at_ = if at_ = extent Piece.byteLen ps then 1 else 2 := by
    have hmem := h₁.mem_cumOffsets_iff heq hlo hhi
    rw [hcum] at hmem
    rw [newPieces]
    refine if_congr ?_ rfl rfl
    rw [hmem, ← htotal]
    exact or_iff_right hend
  dsimp only at hins
  rw [heq] at hins
  rw [← hpieces, heq, hnew]
  split at hins
  · next hzero =>
    obtain rfl := Except.ok.inj (Option.some.inj hins)
    refine ⟨⟨hsame.1, hsame.2, hsame.3⟩, hactive, hlen, ?_⟩
    rw [if_pos (by omega), List.take_left, List.drop_left, rebuildOffsets]
    simp only [List.length_append, List.length_cons]
    omega
  next hpos =>
  obtain ⟨⟨lo, hi⟩, -, hins⟩ := Option.bind_eq_some_iff.mp hins
  obtain rfl := Except.ok.inj (Option.some.inj hins)
  refine ⟨⟨hsame.1, hsame.2, hsame.3⟩, hactive, hlen, ?_⟩
  rw [if_neg (by omega), List.take_left, List.drop_length_add_append, List.drop_one, List.tail_cons,
    rebuildOffsets]
  simp only [List.length_append, List.length_cons]
  omega

theorem insertOp_error (hat : s.totalByteLen < at_) :
    ∃ e, insertOp at_ text s = some (.error e) := by
  rw [insertOp, insert, if_pos hat]
  exact ⟨_, rfl⟩

/-- An insertion that finds an active buffer after it, and the operation of it. -/
theorem insertOp_eq (hins : s.insert at_ text = some (.ok s')) :
    insertOp at_ text s = (s'.activeBuffer.bind fun id ↦ (s'.buffers.lookup id).map fun buf ↦
      .ok (s', .insert at_ id ⟨buf.length - text.length, buf.length⟩)) := by
  rw [insertOp, hins]
  dsimp only [Option.bind_eq_bind, Option.bind_some]
  cases s'.activeBuffer with
  | none => rfl
  | some id =>
    dsimp only [Option.bind_some]
    cases s'.buffers.lookup id with
    | none => rfl
    | some buf => rfl

theorem insert_nil (hat : at_ ≤ s.totalByteLen) : s.insert at_ [] = some (.ok s) := by
  rw [insert, if_neg (Nat.not_lt.mpr hat)]
  rfl

theorem Wf.upholds_insert_iff (hs : s.Limited) (h : s.Wf file) (hmax : 1 ≤ s.limits.maxUndoGroups)
    (hutf8 : IsUtf8 text) (hb : s.AlignedAt file at_) (ctx : OverlayEditContext) :
    s.Upholds pieceSize (.insert at_ text ctx) ↔ s.Meets pieceSize (.insert at_ text ctx) := by
  have hinsert : ∀ {k t}, Evicted file s k t → at_ ≤ s.totalByteLen →
      ∃ u, t.insert at_ text = some (.ok u) := fun ht hat ↦ by
    obtain ⟨r, hr⟩ := Option.isSome_iff_exists.mp (ht.wf.insert_isSome hutf8 (ht.alignedAt h hb))
    cases r with
    | ok u => exact ⟨u, hr⟩
    | error e =>
      exfalso
      rw [insert, if_neg (by rw [ht.totalByteLen_eq]; exact Nat.not_lt.mpr hat)] at hr
      split at hr
      · cases hr
      simp only [Option.bind_eq_bind, Option.bind_eq_some_iff] at hr
      obtain ⟨n, -, ⟨s₁, id, range⟩, -, hr⟩ := hr
      dsimp only at hr
      split at hr
      · cases hr
      obtain ⟨⟨idx, start⟩, -, hr⟩ := Option.bind_eq_some_iff.mp hr
      dsimp only at hr
      split at hr
      · cases hr
      obtain ⟨⟨lo, hi⟩, -, hr⟩ := Option.bind_eq_some_iff.mp hr
      cases hr
  rw [Upholds, call, insertInGroup_eq]
  refine promises_editInGroup_iff hs h hmax (fun k t ht hat ↦ ?_) (fun k t ht hat hpanic ↦ ?_)
    fun k t ht hat r hr ↦ ?_
  · exact insertOp_error (by rw [ht.totalByteLen_eq]; exact Nat.lt_of_not_le hat)
  · obtain ⟨u, hu⟩ := hinsert ht hat
    rw [insertOp_eq hu] at hpanic
    by_cases hempty : text = []
    · subst hempty
      rw [insert_nil (by rw [ht.totalByteLen_eq]; exact hat)] at hu
      obtain rfl := Except.ok.inj (Option.some.inj hu)
      rw [InsertNeeds, if_pos rfl, ← ht.active]
      rintro hactive
      obtain ⟨id, hid⟩ := Option.isSome_iff_exists.mp hactive
      obtain ⟨buf, hbuf⟩ := Option.isSome_iff_exists.mp ((ht.wf.active_iff id).mpr hid)
      rw [hid, Option.bind_some, hbuf] at hpanic
      cases hpanic
    · obtain ⟨-, hsome, -⟩ := ht.wf.insert_frame hempty hu
      obtain ⟨buf, hbuf⟩ := Option.isSome_iff_exists.mp hsome
      obtain ⟨id, hid, hlookup⟩ := Option.bind_eq_some_iff.mp hbuf
      rw [hid, Option.bind_some, hlookup] at hpanic
      cases hpanic
  · obtain ⟨u, hu⟩ := hinsert ht hat
    rw [insertOp_eq hu] at hr
    obtain ⟨id, hid, hr⟩ := Option.bind_eq_some_iff.mp hr
    obtain ⟨buf, -, rfl⟩ := Option.map_eq_some_iff.mp hr
    refine ⟨u, _, rfl, ?_⟩
    by_cases hempty : text = []
    · subst hempty
      rw [insert_nil (by rw [ht.totalByteLen_eq]; exact hat)] at hu
      obtain rfl := Except.ok.inj (Option.some.inj hu)
      refine ⟨⟨rfl, rfl, rfl⟩, fun hroom ↦ iff_of_true ?_ ?_⟩
      · change t.overlayBytes pieceSize ≤ t.limits.overlayByteCap
        rw [ht.overlayBytes_eq, ht.limits_eq]
        exact hroom.2
      · rw [InsertNeeds, if_pos rfl, ← ht.active, hid]
        rfl
    · obtain ⟨hsame, -, hlen, hpieces⟩ := ht.wf.insert_frame hempty hu
      have hwf := (ht.wf.insert_ok hu).1
      have hnew : t.newPieces at_ = s.newPieces at_ := by
        rw [newPieces, newPieces, ht.totalByteLen_eq, ht.cumOffsets_eq]
      refine ⟨hsame, fun _ ↦ ?_⟩
      change u.overlayBytes pieceSize ≤ u.limits.overlayByteCap ↔ _
      rw [InsertNeeds, if_neg hempty, hwf.overlayBytes_eq, hsame.limits, ht.limits_eq, hlen,
        hpieces,
        hnew, ht.pieces_eq, ht.bufferLen_eq, bytesWithout, Nat.add_mul]
      omega

end

/-! ## Deletions -/

theorem splitAt_sameHistory {b : ℕ} (h : s.splitAt b = some s') : SameHistory s s' := by
  simp only [splitAt, Option.bind_eq_bind, Option.bind_eq_some_iff] at h
  obtain ⟨⟨idx, start⟩, -, p, -, h⟩ := h
  dsimp only at h
  split at h
  · obtain ⟨⟨lo, hi⟩, -, h⟩ := Option.bind_eq_some_iff.mp h
    obtain rfl := Option.some.inj h
    exact ⟨rfl, rfl, rfl⟩
  · obtain rfl := Option.some.inj h
    exact ⟨rfl, rfl, rfl⟩

theorem SameHistory.trans (h : SameHistory s t) (h' : SameHistory t s') : SameHistory s s' :=
  ⟨h'.history.trans h.history, h'.order.trans h.order, h'.limits.trans h.limits⟩

theorem delete_sameHistory {range : ByteRange} (h : s.delete range = some (.ok s')) :
    SameHistory s s' := by
  have hsplit : ∀ {c : Prop} [Decidable c] {b : ℕ} {u v : PieceOverlay},
      (if c then u.splitAt b else some u) = some v → SameHistory u v := fun h ↦ by
    split at h
    · exact splitAt_sameHistory h
    · obtain rfl := Option.some.inj h
      exact ⟨rfl, rfl, rfl⟩
  rw [delete] at h
  split at h
  · cases h
  split at h
  · obtain rfl := Except.ok.inj (Option.some.inj h)
    exact ⟨rfl, rfl, rfl⟩
  obtain ⟨s₁, hends, h⟩ := Option.bind_eq_some_iff.mp h
  obtain ⟨s₂, hend, hstart⟩ := Option.bind_eq_some_iff.mp hends
  obtain ⟨s₃, hdrain, h⟩ := Option.bind_eq_some_iff.mp h
  obtain rfl := Except.ok.inj (Option.some.inj h)
  refine ((hsplit hend).trans (hsplit hstart)).trans ?_
  rw [drain] at hdrain
  split at hdrain
  · obtain rfl := Option.some.inj hdrain
    exact ⟨rfl, rfl, rfl⟩
  · cases hdrain

theorem Wf.upholds_delete_iff (hs : s.Limited) (h : s.Wf file) (hmax : 1 ≤ s.limits.maxUndoGroups)
    {range : ByteRange} (hstart : s.AlignedAt file range.start) (hend : s.AlignedAt file range.end_)
    (ctx : OverlayEditContext) :
    s.Upholds pieceSize (.delete range ctx) ↔ s.Meets pieceSize (.delete range ctx) := by
  rw [Upholds, call, deleteInGroup_eq]
  refine promises_editInGroup_iff hs h hmax (fun k t ht hrange ↦ ?_) (fun k t ht hrange hpanic ↦ ?_)
    fun k t ht hrange r hr ↦ ?_
  · rw [deleteOp, delete, if_pos (by rw [ht.totalByteLen_eq]; exact Nat.lt_of_not_le hrange)]
    exact ⟨_, rfl⟩
  · have hsome := ht.wf.delete_isSome (ht.alignedAt h hstart) (ht.alignedAt h hend)
    rw [deleteOp, Option.map_eq_none_iff] at hpanic
    rw [hpanic] at hsome
    cases hsome
  · obtain ⟨r, hdelete, rfl⟩ := Option.map_eq_some_iff.mp hr
    cases r with
    | ok u => exact ⟨u, _, rfl, delete_sameHistory hdelete, fun _ ↦ Iff.rfl⟩
    | error e =>
      exfalso
      rw [delete, if_neg (by rw [ht.totalByteLen_eq]; exact Nat.not_lt.mpr hrange)] at hdelete
      split at hdelete
      · cases hdelete
      obtain ⟨s₁, -, hdelete⟩ := Option.bind_eq_some_iff.mp hdelete
      obtain ⟨s₂, -, hdelete⟩ := Option.bind_eq_some_iff.mp hdelete
      cases hdelete

/-! ## Runs -/

theorem erase_lookup (s : PieceOverlay) (g j : ℕ) :
    (s.undoHistory.erase g).lookup j = if j = g then none else s.undoHistory.lookup j := by
  split
  · next heq => rw [heq, AList.lookup_erase]
  · next hne => exact AList.lookup_erase_ne hne

/-- A group that is released leaves the history and its order. -/
theorem Limited.gcUndoGroup (hs : s.Limited) (g : ℕ) :
    (s.gcUndoGroup g).Limited ∧ (s.gcUndoGroup g).limits = s.limits := by
  rw [PieceOverlay.gcUndoGroup]
  split
  · exact ⟨hs, rfl⟩
  next delta hdelta =>
  dsimp only
  obtain ⟨hframe, -⟩ := foldl_dropBuffer (s.pieces.filterMap (·.bufferId?))
    ((s.undoHistory.erase g).entries.flatMap fun e ↦ e.2.ops.filterMap (·.bufferId?))
    (delta.ops.filterMap (·.bufferId?))
    { s with
      undoHistory := s.undoHistory.erase g
      undoGroupOrder := s.undoGroupOrder.filter (· ≠ g) }
  rw [hframe]
  obtain ⟨⟨hnodup, hkeys, hops⟩, hfew⟩ := hs
  rw [(Tracked.mk hnodup hkeys hops).length_eq] at hfew
  have htracked : Tracked { s with
      undoHistory := s.undoHistory.erase g
      undoGroupOrder := s.undoGroupOrder.filter (· ≠ g) } := by
    refine ⟨hnodup.filter _, fun j ↦ ?_, fun j delta' hj ↦ ?_⟩
    · rw [List.mem_filter, decide_eq_true_iff, hkeys]
      change _ ↔ ((s.undoHistory.erase g).lookup j).isSome = true
      rw [erase_lookup]
      split
      · next heq => exact iff_of_false (fun hor ↦ hor.2 heq) Bool.false_ne_true
      · next hne => exact and_iff_left hne
    · change (s.undoHistory.erase g).lookup j = some delta' at hj
      rw [erase_lookup] at hj
      split at hj
      · cases hj
      · exact hops j delta' hj
  refine ⟨⟨⟨htracked.nodup, htracked.keys, htracked.ops⟩, ?_⟩, rfl⟩
  exact htracked.length_eq.le.trans ((List.length_filter_le _ _).trans hfew)

/-- A call keeps its promises exactly when its evictions do. -/
theorem Wf.upholds_call_iff (hs : s.Limited) (h : s.Wf file) (hmax : 1 ≤ s.limits.maxUndoGroups)
    {c : OverlayCall} (hc : s.AlignedCall file c) :
    s.Upholds pieceSize c ↔ s.Meets pieceSize c := by
  cases c with
  | insert at_ text ctx => exact h.upholds_insert_iff hs hmax hc.1 hc.2 ctx
  | delete range ctx => exact h.upholds_delete_iff hs hmax hc.1 hc.2 ctx
  | gc undoGroup => exact iff_of_true (hs.gcUndoGroup undoGroup).1 trivial

/-- An edit that returns leaves the history within its limit, whatever it evicts. -/
theorem limited_editInGroup (hs : s.Limited) (h : s.Wf file) (hmax : 1 ≤ s.limits.maxUndoGroups)
    {incomingBytes : ℕ} {ctx : OverlayEditContext} {r : Except OverlayError Unit}
    {edit : PieceOverlay → Option (Except OverlayError (PieceOverlay × OverlayOp))}
    (hsame : ∀ t u op, t.Wf file → edit t = some (.ok (u, op)) → SameHistory t u)
    (hedit : s.editInGroup pieceSize incomingBytes ctx edit = some (r, s')) :
    s'.Limited ∧ s'.limits = s.limits := by
  obtain ⟨k, rl, t, heq, ht, hroom⟩ := enforceLimits_spec hs.1 h hmax pieceSize incomingBytes
  rw [editInGroup, heq] at hedit
  rcases hroom with ⟨rfl, hmakes⟩ | ⟨⟨e, rfl⟩, -⟩
  · obtain ⟨re, hre, hedit⟩ := Option.map_eq_some_iff.mp hedit
    cases re with
    | error e =>
      obtain ⟨-, rfl⟩ := Prod.mk.inj hedit
      exact ⟨ht.limited hs, ht.limits_eq⟩
    | ok x =>
      obtain ⟨u, op⟩ := x
      obtain ⟨-, rfl⟩ := Prod.mk.inj hedit
      have hu := hsame t u op ht.wf hre
      refine ⟨(hu.tracked (ht.tracked hs.1)).record ctx op ?_, hu.limits.trans ht.limits_eq⟩
      rw [hu.order, hu.limits, ht.order_eq, ht.limits_eq, List.length_drop]
      exact hmakes.2.1.1
  · obtain ⟨-, rfl⟩ := Prod.mk.inj (Option.some.inj hedit)
    exact ⟨ht.limited hs, ht.limits_eq⟩

theorem insertOp_sameHistory {at_ : ℕ} {text : List UInt8} (hs : s.Wf file) {op : OverlayOp}
    (h : insertOp at_ text s = some (.ok (s', op))) : SameHistory s s' := by
  rw [insertOp] at h
  obtain ⟨r, hr, h⟩ := Option.bind_eq_some_iff.mp h
  cases r with
  | error e => cases h
  | ok u =>
    simp only [Option.bind_eq_bind, Option.bind_eq_some_iff] at h
    obtain ⟨id, -, buf, -, h⟩ := h
    obtain ⟨rfl, -⟩ := Prod.mk.inj (Except.ok.inj (Option.some.inj h))
    by_cases hempty : text = []
    · subst hempty
      have hat := (hs.insert_ok hr).2.1
      rw [hs.length_flatten] at hat
      rw [insert_nil hat] at hr
      obtain rfl := Except.ok.inj (Option.some.inj hr)
      exact ⟨rfl, rfl, rfl⟩
    · exact (hs.insert_frame hempty hr).1

/-- A call leaves an overlay whose history is within its limit. -/
theorem Wf.call (hs : s.Limited) (h : s.Wf file) (hmax : 1 ≤ s.limits.maxUndoGroups)
    {c : OverlayCall}
    {r : Except OverlayError Unit} (hcall : s.call pieceSize c = some (r, s')) :
    s'.Wf file ∧ s'.Limited ∧ s'.limits = s.limits := by
  cases c with
  | insert at_ text ctx =>
    refine ⟨(h.insertInGroup hcall).1, ?_⟩
    rw [PieceOverlay.call, insertInGroup_eq] at hcall
    exact limited_editInGroup hs h hmax (fun t u op ht ↦ insertOp_sameHistory ht) hcall
  | delete range ctx =>
    refine ⟨(h.deleteInGroup hcall).1, ?_⟩
    rw [PieceOverlay.call, deleteInGroup_eq] at hcall
    refine limited_editInGroup hs h hmax (fun t u op _ hop ↦ ?_) hcall
    obtain ⟨r, hdelete, hr⟩ := Option.map_eq_some_iff.mp hop
    cases r with
    | error e => cases hr
    | ok v =>
      obtain ⟨rfl, -⟩ := Prod.mk.inj (Except.ok.inj hr)
      exact delete_sameHistory hdelete
  | gc undoGroup =>
    obtain ⟨-, rfl⟩ := Prod.mk.inj (Option.some.inj hcall)
    exact ⟨(h.gcUndoGroup undoGroup).wf, hs.gcUndoGroup undoGroup⟩

/-- Along a run of calls, in every state and for the call that it gets. -/
def Along (pieceSize : ℕ) (P : PieceOverlay → OverlayCall → Prop) :
    PieceOverlay → List OverlayCall → Prop
  | _, [] => True
  | s, c :: cs => P s c ∧ ∀ r s', s.call pieceSize c = some (r, s') → Along pieceSize P s' cs

theorem along_upholds_iff (hs : s.Limited) (h : s.Wf file) (hmax : 1 ≤ s.limits.maxUndoGroups)
    {cs : List OverlayCall} (hcs : Along pieceSize (AlignedCall file) s cs) :
    Along pieceSize (fun s c ↦ s.Upholds pieceSize c) s cs ↔
      Along pieceSize (fun s c ↦ s.Meets pieceSize c) s cs := by
  induction cs generalizing s with
  | nil => exact Iff.rfl
  | cons c cs ih =>
    refine and_congr (h.upholds_call_iff hs hmax hcs.1)
      (forall_congr' fun r ↦ forall_congr' fun s' ↦
      forall_congr' fun hcall ↦ ?_)
    obtain ⟨hwf, hlimited, hlimits⟩ := h.call hs hmax hcall
    exact ih hlimited hwf (hlimits ▸ hmax) (hcs.2 r s' hcall)

theorem limited_withLimits (fileByteLen : ℕ) (limits : OverlayLimits) :
    (withLimits fileByteLen limits).Limited := by
  refine ⟨⟨List.nodup_nil, fun g ↦ ?_, fun g delta hdelta ↦ ?_⟩, Nat.zero_le _⟩
  · exact iff_of_false List.not_mem_nil (by rw [withLimits]; exact Bool.false_ne_true)
  · rw [withLimits] at hdelta
    cases hdelta

/-- In every run of calls at boundaries, the promises are kept throughout exactly when every call
meets the condition on its evictions. -/
theorem upholds_run_iff (file : List UInt8) (limits : OverlayLimits) (pieceSize : ℕ)
    (hmax : 1 ≤ limits.maxUndoGroups) (cs : List OverlayCall)
    (hcs : Along pieceSize (AlignedCall file) (withLimits file.length limits) cs) :
    Along pieceSize (fun s c ↦ s.Upholds pieceSize c) (withLimits file.length limits) cs ↔
      Along pieceSize (fun s c ↦ s.Meets pieceSize c) (withLimits file.length limits) cs :=
  along_upholds_iff (limited_withLimits _ limits) (wf_withLimits file limits).1 hmax hcs

theorem alignedAt_withLimits (file : List UInt8) (limits : OverlayLimits) (b : ℕ) :
    (withLimits file.length limits).AlignedAt file b := by
  intro ps id r n qs heq
  have hmem : Piece.inserted id r n ∈ (withLimits file.length limits).pieces := by
    rw [heq]
    exact List.mem_append_right _ List.mem_cons_self
  rw [withLimits] at hmem
  dsimp only at hmem
  split at hmem
  · exact absurd hmem List.not_mem_nil
  · cases List.mem_singleton.mp hmem

/-- An insertion of a character into a file keeps the promises. -/
theorem upholds_run_insert : Along 56 (fun s c ↦ s.Upholds 56 c) (withLimits 2 {})
    [.insert 1 [88] ⟨1, 1⟩] := by
  have haligned : Along 56 (AlignedCall [97, 98]) (withLimits 2 {}) [.insert 1 [88] ⟨1, 1⟩] :=
    ⟨⟨⟨['X'], by decide⟩, alignedAt_withLimits [97, 98] {} 1⟩, fun _ _ _ ↦ trivial⟩
  refine (upholds_run_iff [97, 98] {} 56 (by decide) _ haligned).mpr
    ⟨.inl ⟨by decide, 0, ⟨Nat.zero_le _, by decide, fun j hj ↦ absurd hj (Nat.not_lt_zero j)⟩,
      by decide, ?_⟩, fun _ _ _ ↦ trivial⟩
  rw [InsertNeeds, if_neg (by decide)]
  decide

/-- An insertion of no text into an overlay without a buffer panics. -/
theorem insert_nil_panics : ¬ ∀ (file : List UInt8) (limits : OverlayLimits) (pieceSize : ℕ)
    (cs : List OverlayCall), 1 ≤ limits.maxUndoGroups →
    Along pieceSize (AlignedCall file) (withLimits file.length limits) cs →
      Along pieceSize (fun s c ↦ s.Upholds pieceSize c) (withLimits file.length limits) cs := by
  intro hall
  have hrun := hall [97, 98] {} 56 [.insert 0 [] ⟨1, 1⟩] (by decide)
    ⟨⟨IsUtf8.nil, alignedAt_withLimits [97, 98] {} 0⟩, fun _ _ _ ↦ trivial⟩
  obtain ⟨⟨r, s', hcall, -⟩, -⟩ := hrun
  have hnone : (withLimits 2 {}).call 56 (.insert 0 [] ⟨1, 1⟩) = none := by decide +kernel
  cases hnone.symm.trans hcall

end PieceOverlay

end EeEditor.Vlf
