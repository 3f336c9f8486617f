import EeEditor.Vlf.OverlayRuns

/-!
# Evictions of undo groups

What the limits of a piece overlay release before an edit: the oldest undo groups, in order, until
the count of the groups and the memory leave room (`enforceLimits_spec`). There is at most one
buffer, the active one, and it goes when no piece and no group that stays refers to it
(`Freed`).
-/

namespace EeEditor.Vlf.PieceOverlay

variable {file : List UInt8} {s t : PieceOverlay} {k : ℕ}

/-! ## The history -/

/-- The order lists the groups of the history, each of them once, and each group has operations. -/
structure Tracked (s : PieceOverlay) : Prop where
  nodup : s.undoGroupOrder.Nodup
  keys : ∀ g, g ∈ s.undoGroupOrder ↔ (s.undoHistory.lookup g).isSome
  ops : ∀ g delta, s.undoHistory.lookup g = some delta → delta.ops ≠ []

theorem Tracked.length_eq (h : s.Tracked) :
    s.undoHistory.entries.length = s.undoGroupOrder.length := by
  have hperm : s.undoHistory.keys.Perm s.undoGroupOrder :=
    (List.perm_ext_iff_of_nodup (AList.keys_nodup _) h.nodup).mpr fun g ↦ by
      rw [← AList.mem_keys, h.keys, AList.lookup_isSome]
  rw [← hperm.length_eq, AList.keys, List.keys, List.length_map]

/-- The buffers that a group of the history refers to. -/
def groupRefs (s : PieceOverlay) (g : ℕ) : List ℕ :=
  match s.undoHistory.lookup g with
  | some delta => delta.ops.filterMap (·.bufferId?)
  | none => []

/-- Without its `k` oldest groups the overlay, which had a use for the buffer, has none. -/
def Freed (s : PieceOverlay) (k id : ℕ) : Prop :=
  id ∈ (s.undoGroupOrder.take k).flatMap s.groupRefs ∧
    id ∉ s.pieces.filterMap (·.bufferId?) ∧ id ∉ (s.undoGroupOrder.drop k).flatMap s.groupRefs

instance (s : PieceOverlay) (k id : ℕ) : Decidable (s.Freed k id) :=
  inferInstanceAs (Decidable (_ ∧ _ ∧ _))

/-- The active buffer that stays without the `k` oldest groups. -/
def activeWithout (s : PieceOverlay) (k : ℕ) : Option ℕ := s.activeBuffer.filter (¬ s.Freed k ·)

/-- The length of a buffer, if there is one. -/
def bufferLen (s : PieceOverlay) (id : Option ℕ) : ℕ := ((id.bind s.buffers.lookup).getD []).length

/-- The memory in use without the `k` oldest groups. -/
def bytesWithout (s : PieceOverlay) (pieceSize k : ℕ) : ℕ :=
  s.pieces.length * pieceSize + s.bufferLen (s.activeWithout k)

/-- Without the `k` oldest groups there is room for an edit. -/
def Room (s : PieceOverlay) (pieceSize incomingBytes k : ℕ) : Prop :=
  s.undoGroupOrder.length - k < s.limits.maxUndoGroups ∧
    s.bytesWithout pieceSize k + incomingBytes ≤ s.limits.overlayByteCap

instance (s : PieceOverlay) (pieceSize incomingBytes k : ℕ) :
    Decidable (s.Room pieceSize incomingBytes k) := inferInstanceAs (Decidable (_ ∧ _))

/-- The least number of oldest groups without which there is room. -/
def Makes (s : PieceOverlay) (pieceSize incomingBytes k : ℕ) : Prop :=
  k ≤ s.undoGroupOrder.length ∧ s.Room pieceSize incomingBytes k ∧
    ∀ j < k, ¬ s.Room pieceSize incomingBytes j

/-! ## The memory -/

theorem Wf.sum_buffers (h : s.Wf file) :
    (s.buffers.entries.map fun e ↦ e.2.length).sum = s.bufferLen s.activeBuffer := by
  have hentry : ∀ e ∈ s.buffers.entries, s.buffers.lookup e.1 = some e.2 :=
    fun e he ↦ AList.mem_lookup_iff.mpr he
  rw [bufferLen]
  cases hactive : s.activeBuffer with
  | none =>
    have hnil : s.buffers.entries = [] := List.eq_nil_iff_forall_not_mem.mpr fun e he ↦ by
      have hsome := (h.active_iff e.1).mp (by rw [hentry e he]; rfl)
      rw [hactive] at hsome
      cases hsome
    rw [hnil]
    rfl
  | some id =>
    obtain ⟨bytes, hbytes⟩ := Option.isSome_iff_exists.mp ((h.active_iff id).mpr hactive)
    have hall : ∀ e ∈ s.buffers.entries, e = ⟨id, bytes⟩ := fun e he ↦ by
      have hsome := (h.active_iff e.1).mp (by rw [hentry e he]; rfl)
      obtain ⟨j, b⟩ := e
      obtain rfl : id = j := Option.some.inj (hactive.symm.trans hsome)
      obtain rfl : bytes = b := Option.some.inj (hbytes.symm.trans (hentry _ he))
      rfl
    have hmem : (⟨id, bytes⟩ : Sigma fun _ : ℕ ↦ List UInt8) ∈ s.buffers.entries :=
      AList.mem_lookup_iff.mp hbytes
    have hsingle : s.buffers.entries = [⟨id, bytes⟩] := by
      have hnodup := s.buffers.nodupKeys.nodup
      match hentries : s.buffers.entries with
      | [] => rw [hentries] at hmem; cases hmem
      | [e] =>
        rw [hentries] at hall
        rw [hall e List.mem_cons_self]
      | e :: e' :: es =>
        rw [hentries] at hall hnodup
        have heq : e = e' := (hall e List.mem_cons_self).trans
          (hall e' (List.mem_cons_of_mem _ List.mem_cons_self)).symm
        exact absurd (heq ▸ List.mem_cons_self) (List.nodup_cons.mp hnodup).1
    rw [hsingle, Option.bind_some, hbytes]
    exact Nat.add_zero _

theorem Wf.overlayBytes_eq (h : s.Wf file) (pieceSize : ℕ) :
    s.overlayBytes pieceSize = s.pieces.length * pieceSize + s.bufferLen s.activeBuffer := by
  rw [overlayBytes, h.sum_buffers]

/-! ## Evictions -/

/-- The overlay without its `k` oldest groups. -/
structure Evicted (file : List UInt8) (s : PieceOverlay) (k : ℕ) (t : PieceOverlay) : Prop where
  wf : t.Wf file
  frame : t = { s with
    buffers := t.buffers
    activeBuffer := t.activeBuffer
    undoHistory := t.undoHistory
    undoGroupOrder := s.undoGroupOrder.drop k }
  history : ∀ g, t.undoHistory.lookup g
    = if g ∈ s.undoGroupOrder.take k then none else s.undoHistory.lookup g
  active : t.activeBuffer = s.activeWithout k
  buffer : ∀ id, t.activeBuffer = some id → t.buffers.lookup id = s.buffers.lookup id
  start : k = 0 → t = s
  flatten : t.flatten file = s.flatten file

theorem activeWithout_eq_some {id : ℕ} :
    s.activeWithout k = some id ↔ s.activeBuffer = some id ∧ ¬ s.Freed k id := by
  rw [activeWithout, Option.filter_eq_some_iff, decide_eq_true_iff]

theorem activeWithout_zero (s : PieceOverlay) : s.activeWithout 0 = s.activeBuffer := by
  refine Option.ext fun id ↦ ?_
  rw [activeWithout_eq_some]
  exact and_iff_left fun hfreed ↦ List.not_mem_nil hfreed.1

theorem Wf.evicted_zero (h : s.Wf file) : Evicted file s 0 s where
  wf := h
  frame := rfl
  history g := by rw [List.take_zero, if_neg List.not_mem_nil]
  active := (activeWithout_zero s).symm
  buffer _ _ := rfl
  start _ := rfl
  flatten := rfl

/-- The next of the oldest groups. -/
theorem take_drop_succ {order rest : List ℕ} {g : ℕ} (horder : order.drop k = g :: rest) :
    order.take (k + 1) = order.take k ++ [g] ∧ order.drop (k + 1) = rest := by
  have hget : order[k]? = some g := by
    rw [← List.head?_drop, horder, List.head?_cons]
  rw [List.take_add_one, hget, Option.toList_some, ← List.tail_drop, horder, List.tail_cons]
  exact ⟨rfl, rfl⟩

/-- A buffer is freed with the last group that refers to it. -/
theorem freed_succ {g : ℕ} {rest : List ℕ} (horder : s.undoGroupOrder.drop k = g :: rest) {id : ℕ} :
    s.Freed (k + 1) id ↔ s.Freed k id ∨
      (id ∈ s.groupRefs g ∧ id ∉ s.pieces.filterMap (·.bufferId?) ∧
        id ∉ rest.flatMap s.groupRefs) := by
  obtain ⟨htake, hdrop⟩ := take_drop_succ horder
  rw [Freed, Freed, htake, hdrop, horder, List.flatMap_append, List.mem_append,
    List.flatMap_singleton, List.flatMap_cons, List.mem_append]
  constructor
  · rintro ⟨htake | hg, hpieces, hrest⟩
    · by_cases hg : id ∈ s.groupRefs g
      · exact .inr ⟨hg, hpieces, hrest⟩
      · exact .inl ⟨htake, hpieces, not_or.mpr ⟨hg, hrest⟩⟩
    · exact .inr ⟨hg, hpieces, hrest⟩
  · rintro (⟨htake, hpieces, hdrop⟩ | ⟨hg, hpieces, hrest⟩)
    · exact ⟨.inl htake, hpieces, (not_or.mp hdrop).2⟩
    · exact ⟨.inr hg, hpieces, hrest⟩

namespace Evicted

theorem pieces_eq (h : Evicted file s k t) : t.pieces = s.pieces := by rw [h.frame]

theorem totalByteLen_eq (h : Evicted file s k t) : t.totalByteLen = s.totalByteLen := by
  rw [h.frame]

theorem cumOffsets_eq (h : Evicted file s k t) : t.cumOffsets = s.cumOffsets := by rw [h.frame]

theorem limits_eq (h : Evicted file s k t) : t.limits = s.limits := by rw [h.frame]

theorem order_eq (h : Evicted file s k t) : t.undoGroupOrder = s.undoGroupOrder.drop k := by
  rw [h.frame]

theorem alignedAt (hs : s.Wf file) (h : Evicted file s k t) {b : ℕ} (hb : s.AlignedAt file b) :
    t.AlignedAt file b :=
  hs.alignedAt_congr h.wf h.pieces_eq h.flatten hb

theorem tracked (hs : s.Tracked) (h : Evicted file s k t) : t.Tracked := by
  have hsplit := List.take_append_drop k s.undoGroupOrder
  have hnodup := hs.nodup
  rw [← hsplit, List.nodup_append'] at hnodup
  refine ⟨by rw [h.order_eq]; exact hnodup.2.1, fun g ↦ ?_, fun g delta hdelta ↦ ?_⟩
  · rw [h.order_eq, h.history]
    split
    · next htake => exact ⟨fun hdrop ↦ absurd hdrop (hnodup.2.2 htake), nofun⟩
    · next htake =>
      rw [← hs.keys, ← hsplit, List.mem_append, hsplit]
      exact ⟨.inr, fun hor ↦ hor.resolve_left htake⟩
  · rw [h.history] at hdelta
    split at hdelta
    · cases hdelta
    · exact hs.ops g delta hdelta

theorem bufferLen_eq (h : Evicted file s k t) :
    t.bufferLen t.activeBuffer = s.bufferLen (s.activeWithout k) := by
  rw [← h.active, bufferLen, bufferLen]
  cases hid : t.activeBuffer with
  | none => rfl
  | some id => rw [Option.bind_some, Option.bind_some, h.buffer id hid]

theorem overlayBytes_eq (h : Evicted file s k t) (pieceSize : ℕ) :
    t.overlayBytes pieceSize = s.bytesWithout pieceSize k := by
  rw [h.wf.overlayBytes_eq, h.pieces_eq, h.bufferLen_eq, bytesWithout]

/-- The history that is left refers to the buffers that the groups after it refer to. -/
theorem mem_refs_iff (hs : s.Tracked) (h : Evicted file s k t) {g : ℕ} {rest : List ℕ}
    (horder : t.undoGroupOrder = g :: rest) {id : ℕ} :
    id ∈ (t.undoHistory.erase g).entries.flatMap (fun e ↦ e.2.ops.filterMap (·.bufferId?)) ↔
      id ∈ rest.flatMap s.groupRefs := by
  have ht := h.tracked hs
  have hnodup := ht.nodup
  rw [horder, List.nodup_cons] at hnodup
  have hstays : ∀ j delta, t.undoHistory.lookup j = some delta →
      s.groupRefs j = delta.ops.filterMap (·.bufferId?) := fun j delta hj ↦ by
    rw [h.history] at hj
    split at hj
    · cases hj
    · rw [groupRefs, hj]
  rw [List.mem_flatMap, List.mem_flatMap]
  constructor
  · rintro ⟨⟨j, delta⟩, hentry, hid⟩
    have hlookup : (t.undoHistory.erase g).lookup j = some delta := AList.mem_lookup_iff.mpr hentry
    have hne : j ≠ g := by
      rintro rfl
      rw [AList.lookup_erase] at hlookup
      cases hlookup
    rw [AList.lookup_erase_ne hne] at hlookup
    have hmem : j ∈ t.undoGroupOrder := (ht.keys j).mpr (by rw [hlookup]; rfl)
    rw [horder] at hmem
    exact ⟨j, (List.mem_cons.mp hmem).resolve_left hne, by rw [hstays j delta hlookup]; exact hid⟩
  · rintro ⟨j, hj, hid⟩
    have hne : j ≠ g := fun heq ↦ hnodup.1 (heq ▸ hj)
    have hsome := (ht.keys j).mp (by rw [horder]; exact List.mem_cons_of_mem g hj)
    obtain ⟨delta, hlookup⟩ := Option.isSome_iff_exists.mp hsome
    rw [hstays j delta hlookup] at hid
    refine ⟨⟨j, delta⟩, AList.mem_lookup_iff.mp ?_, hid⟩
    rw [AList.lookup_erase_ne hne, hlookup]
    rfl

end Evicted

/-- The buffers that are dropped, of those that nothing refers to. -/
theorem foldl_dropBuffer (live history ids : List ℕ) (t : PieceOverlay) :
    let t' := ids.foldl (fun self id ↦ if id ∉ live ∧
    id ∉ history then self.dropBuffer id else self) t
    t' = { t with buffers := t'.buffers, activeBuffer := t'.activeBuffer } ∧
      (∀ id, t'.activeBuffer = some id ↔
        t.activeBuffer = some id ∧ ¬ (id ∈ ids ∧ id ∉ live ∧ id ∉ history)) ∧
      ∀ id, t'.activeBuffer = some id → t'.buffers.lookup id = t.buffers.lookup id := by
  induction ids generalizing t with
  | nil => exact ⟨rfl, fun id ↦ by simp, fun _ _ ↦ rfl⟩
  | cons j ids ih =>
    dsimp only
    rw [List.foldl_cons]
    split
    · next hdead =>
      obtain ⟨hframe, hactive, hbuffer⟩ := ih (t.dropBuffer j)
      have hdrop : ∀ id, (t.dropBuffer j).activeBuffer = some id ↔
          t.activeBuffer = some id ∧ id ≠ j := fun id ↦ by
        rw [dropBuffer]
        dsimp only
        split
        · next hj => simp [hj, eq_comm]
        · next hj =>
          refine (and_iff_left_of_imp fun hid ↦ ?_).symm
          rintro rfl
          exact hj hid
      refine ⟨hframe, fun id ↦ ?_, fun id hid ↦ ?_⟩
      · rw [hactive, hdrop, List.mem_cons]
        by_cases hid : id = j
        · subst hid
          simp [hdead]
        · simp [hid]
      · rw [hbuffer id hid]
        have hne := ((hdrop id).mp ((hactive id).mp hid).1).2
        exact AList.lookup_erase_ne hne
    · next hlive =>
      obtain ⟨hframe, hactive, hbuffer⟩ := ih t
      refine ⟨hframe, fun id ↦ ?_, hbuffer⟩
      rw [hactive, List.mem_cons]
      by_cases hid : id = j
      · subst hid
        simp [hlive]
      · simp [hid]

/-- The next group goes. -/
theorem Evicted.gc (hs : s.Tracked) (h : Evicted file s k t) {g : ℕ} {rest : List ℕ}
    (horder : t.undoGroupOrder = g :: rest) :
    Evicted file s (k + 1) ({ t with undoGroupOrder := rest }.gcUndoGroup g) := by
  have ht := h.tracked hs
  have hdrop : s.undoGroupOrder.drop k = g :: rest := h.order_eq.symm.trans horder
  obtain ⟨htake, hrest⟩ := take_drop_succ hdrop
  have hnodup := ht.nodup
  rw [horder, List.nodup_cons] at hnodup
  have hfilter : rest.filter (fun x ↦ decide (x ≠ g)) = rest :=
    List.filter_eq_self.mpr fun j hj ↦ decide_eq_true fun heq ↦ hnodup.1 (heq ▸ hj)
  have hwf : ({ t with undoGroupOrder := rest } : PieceOverlay).Wf file :=
    ⟨h.wf.live, h.wf.cumOffsets_eq, h.wf.totalByteLen_eq, h.wf.original_eq, h.wf.active_iff⟩
  obtain ⟨delta, hdelta⟩ := Option.isSome_iff_exists.mp
    ((ht.keys g).mp (by rw [horder]; exact List.mem_cons_self))
  have hgroup : s.groupRefs g = delta.ops.filterMap (·.bufferId?) := by
    have hlookup := h.history g
    rw [hdelta] at hlookup
    split at hlookup
    · cases hlookup
    · rw [groupRefs, ← hlookup]
  obtain ⟨hgc, -, hflat⟩ := hwf.gcUndoGroup g
  rw [gcUndoGroup, show AList.lookup g t.undoHistory = some delta from hdelta] at hgc hflat ⊢
  dsimp only at hgc hflat ⊢
  rw [hfilter] at hgc hflat ⊢
  obtain ⟨hframe, hactive, hbuffer⟩ := foldl_dropBuffer (t.pieces.filterMap (·.bufferId?))
    ((t.undoHistory.erase g).entries.flatMap fun e ↦ e.2.ops.filterMap (·.bufferId?))
    (delta.ops.filterMap (·.bufferId?))
    { t with undoHistory := t.undoHistory.erase g, undoGroupOrder := rest }
  generalize List.foldl _ _ _ = u at hgc hflat hframe hactive hbuffer ⊢
  refine ⟨hgc, ?_, fun j ↦ ?_, Option.ext fun id ↦ ?_, fun id hid ↦ ?_,
    fun hzero ↦ absurd hzero (Nat.succ_ne_zero k), hflat.trans h.flatten⟩
  · rw [hrest, hframe]
    conv_lhs => rw [h.frame]
  · rw [hframe]
    dsimp only
    simp only [htake, List.mem_append, List.mem_singleton]
    by_cases hj : j = g
    · subst hj
      rw [AList.lookup_erase, if_pos (.inr rfl)]
    · rw [AList.lookup_erase_ne hj, h.history]
      simp [hj]
  · rw [hactive, h.mem_refs_iff hs horder, activeWithout_eq_some, freed_succ hdrop, hgroup,
      ← h.pieces_eq, not_or]
    change t.activeBuffer = some id ∧ _ ↔ _
    rw [h.active, activeWithout_eq_some, and_assoc]
  · rw [hbuffer id hid]
    exact h.buffer id ((hactive id).mp hid).1

/-! ## The limits -/

/-- The loop over the oldest groups releases the least number of them, from a count on, that meets
the limit, or all. -/
theorem gcOldestWhile_evicts (hs : s.Tracked) {exceeds : PieceOverlay → Bool} {exceeded : ℕ → Prop}
    (hover : ∀ j u, Evicted file s j u → (exceeds u = true ↔ exceeded j)) {fuel : ℕ}
    (h : Evicted file s k t) (hk : k ≤ s.undoGroupOrder.length)
    (hfuel : s.undoGroupOrder.length ≤ k + fuel) :
    ∃ k', k ≤ k' ∧ k' ≤ s.undoGroupOrder.length ∧
      Evicted file s k' (gcOldestWhile exceeds fuel t) ∧ (∀ j, k ≤ j → j < k' → exceeded j) ∧
      (exceeded k' → k' = s.undoGroupOrder.length) := by
  induction fuel generalizing k t with
  | zero =>
    exact ⟨k, le_rfl, hk, h, fun j hj hj' ↦ absurd hj' (Nat.not_lt.mpr hj), fun _ ↦ by omega⟩
  | succ fuel ih =>
    rw [gcOldestWhile]
    split
    · next hex =>
      have hlen := congrArg List.length h.order_eq
      rw [List.length_drop] at hlen
      split
      · next hnil =>
        rw [hnil, List.length_nil] at hlen
        exact ⟨k, le_rfl, hk, h, fun j hj hj' ↦ absurd hj' (Nat.not_lt.mpr hj), fun _ ↦ by omega⟩
      · next g rest hcons =>
        rw [hcons, List.length_cons] at hlen
        obtain ⟨k', hle, hlast, hk', hbefore, hstop⟩ := ih (h.gc hs hcons) (by omega) (by omega)
        refine ⟨k', by omega, hlast, hk', fun j hj hj' ↦ ?_, hstop⟩
        rcases hj.lt_or_eq with hj | rfl
        · exact hbefore j hj hj'
        · exact (hover k t h).mp hex
    · next hex =>
      exact ⟨k, le_rfl, hk, h, fun j hj hj' ↦ absurd hj' (Nat.not_lt.mpr hj),
        fun hk' ↦ absurd ((hover k t h).mpr hk') hex⟩

/-- The limits release the least number of oldest groups that makes room. They refuse an edit when
there is none, and then all groups are gone. -/
theorem enforceLimits_spec (hs : s.Tracked) (h : s.Wf file) (hmax : 1 ≤ s.limits.maxUndoGroups)
    (pieceSize incomingBytes : ℕ) :
    ∃ k r t, s.enforceLimits pieceSize incomingBytes = (r, t) ∧ Evicted file s k t ∧
      (r = .ok () ∧ s.Makes pieceSize incomingBytes k ∨
        (∃ e, r = .error e) ∧ k = s.undoGroupOrder.length ∧
          ∀ j, ¬ s.Makes pieceSize incomingBytes j) := by
  have hcount : ∀ j u, Evicted file s j u →
      (decide (u.undoHistory.entries.length ≥ u.limits.maxUndoGroups) = true ↔
        s.limits.maxUndoGroups ≤ s.undoGroupOrder.length - j) := fun j u hu ↦ by
    rw [decide_eq_true_iff, (hu.tracked hs).length_eq, hu.order_eq, List.length_drop, hu.limits_eq]
  have hbytes : ∀ j u, Evicted file s j u →
      (decide (u.overlayBytes pieceSize + incomingBytes > u.limits.overlayByteCap) = true ↔
        s.limits.overlayByteCap < s.bytesWithout pieceSize j + incomingBytes) := fun j u hu ↦ by
    rw [decide_eq_true_iff, hu.overlayBytes_eq, hu.limits_eq]
  obtain ⟨k₁, -, hlast₁, hk₁, hbefore₁, hstop₁⟩ := gcOldestWhile_evicts hs hcount h.evicted_zero
    (Nat.zero_le _) (Nat.zero_add _).ge
  rw [enforceLimits]
  dsimp only
  generalize gcOldestWhile _ _ s = u at hk₁ ⊢
  have hlen : u.undoGroupOrder.length = s.undoGroupOrder.length - k₁ := by
    rw [hk₁.order_eq, List.length_drop]
  obtain ⟨k, hle, hlast, hk, hbefore, hstop⟩ := gcOldestWhile_evicts hs hbytes hk₁ hlast₁
    (show s.undoGroupOrder.length ≤ k₁ + u.undoGroupOrder.length by omega)
  generalize gcOldestWhile _ _ u = t at hk ⊢
  have hfew : s.undoGroupOrder.length - k < s.limits.maxUndoGroups := by
    by_cases hover : s.limits.maxUndoGroups ≤ s.undoGroupOrder.length - k₁
    · have := hstop₁ hover
      omega
    · omega
  have hless : ∀ j < k, ¬ s.Room pieceSize incomingBytes j := by
    rintro j hj ⟨hcount', hbytes'⟩
    rcases Nat.lt_or_ge j k₁ with hj' | hj'
    · exact absurd hcount' (Nat.not_lt.mpr (hbefore₁ j (Nat.zero_le j) hj'))
    · exact absurd hbytes' (Nat.not_le.mpr (hbefore j hj' hj))
  split
  · next hover =>
    rw [hk.overlayBytes_eq, hk.limits_eq] at hover
    have hall := hstop hover
    refine ⟨k, _, t, rfl, hk, .inr ⟨⟨_, rfl⟩, hall, fun j hj ↦ ?_⟩⟩
    rcases Nat.lt_or_ge j k with hj' | hj'
    · exact hless j hj' hj.2.1
    · obtain rfl : j = k := le_antisymm (hall ▸ hj.1) hj'
      exact absurd hj.2.1.2 (Nat.not_le.mpr hover)
  · next hover =>
    rw [hk.overlayBytes_eq, hk.limits_eq, gt_iff_lt, Nat.not_lt] at hover
    exact ⟨k, _, t, rfl, hk, .inl ⟨rfl, hlast, ⟨hfew, hover⟩, hless⟩⟩

theorem Makes.unique {pieceSize incomingBytes j : ℕ} (hj : s.Makes pieceSize incomingBytes j)
    (hk : s.Makes pieceSize incomingBytes k) : j = k := by
  rcases Nat.lt_trichotomy j k with hlt | heq | hgt
  · exact absurd hj.2.1 (hk.2.2 j hlt)
  · exact heq
  · exact absurd hk.2.1 (hj.2.2 k hgt)

end EeEditor.Vlf.PieceOverlay
