import Mathlib.Data.List.Perm.Subperm
import EeEditor.Orchestrator.CheckpointStore

/-!
# The newest checkpoint

Sequence numbers live in memory and files on disk, so that the order of the files is that of the
saves only as long as a process does not meet files that it did not number. `SessionInv` is what
holds then: the files that still count are in the order of their saves, and the newest one is among
them.
-/

namespace EeEditor.Orchestrator

variable {σ κ : Type} [DecidableEq σ] {format : CheckpointFormat κ} {config : StoreConfig}
  {now now' serial : ℕ} {files entries : OrderedMap (StoredCheckpoint κ)}
  {history : List (StoredCheckpoint κ)} {stored : StoredCheckpoint κ}

theorem StoreConfig.isLive_iff :
    config.isLive now stored = true ↔ now - stored.createdAtMillis ≤ config.ttlMillis :=
  decide_eq_true_iff

theorem StoreConfig.isLive_of_le (h : config.isLive now' stored = true) (hle : now ≤ now') :
    config.isLive now stored = true := by
  rw [isLive_iff] at h ⊢
  omega

/-- What was captured later lives longer. -/
theorem StoreConfig.isLive_of_created_le {later : StoredCheckpoint κ}
    (h : config.isLive now stored = true)
    (hle : stored.createdAtMillis ≤ later.createdAtMillis) : config.isLive now later = true := by
  rw [isLive_iff] at h ⊢
  omega

/-! ## One session -/

/-- An entry that may still be loaded or counted: one in memory, or a file that has not expired. -/
def Counts (config : StoreConfig) (now : ℕ) (files entries : OrderedMap (StoredCheckpoint κ))
    (p : ℕ × StoredCheckpoint κ) : Prop :=
  p ∈ entries ∨ p ∈ files ∧ config.isLive now p.2 = true

structure SessionInv (format : CheckpointFormat κ) (config : StoreConfig) (now serial : ℕ)
    (files entries : OrderedMap (StoredCheckpoint κ)) (history : List (StoredCheckpoint κ)) :
    Prop where
  serials : history.Pairwise (·.serial < ·.serial)
  serial_lt : ∀ s ∈ history, s.serial < serial
  created : history.Pairwise (·.createdAtMillis ≤ ·.createdAtMillis)
  intact : ∀ s ∈ history, format.digest (format.payload s.checkpoint) = s.checksum ∧
    format.validate s.checkpoint = .ok ()
  saved : ∀ p ∈ files, p.2 ∈ history ∧ p.1 = p.2.seq
  subset : ∀ p ∈ entries, p ∈ files
  ordered : ∀ p q, Counts config now files entries p → Counts config now files entries q →
    p.1 < q.1 → p.2.serial < q.2.serial
  newest : ∀ s, history.getLast? = some s → config.isLive now s = true → (s.seq, s) ∈ files

/-- As many checkpoints as the cap were saved after this one. -/
def Outnumbered (config : StoreConfig) (history : List (StoredCheckpoint κ))
    (stored : StoredCheckpoint κ) : Prop :=
  config.maxPerSession ≤ (history.filter fun s ↦ stored.serial < s.serial).length

namespace SessionInv

theorem mono (h : SessionInv format config now serial files entries history) {serial' : ℕ}
    (hnow : now ≤ now') (hserial : serial ≤ serial') :
    SessionInv format config now' serial' files entries history := by
  have hcounts : ∀ p, Counts config now' files entries p → Counts config now files entries p :=
    fun p hp ↦ hp.imp_right fun hfile ↦ ⟨hfile.1, StoreConfig.isLive_of_le hfile.2 hnow⟩
  exact { h with
    serial_lt := fun s hs ↦ (h.serial_lt s hs).trans_le hserial
    ordered := fun p q hp hq ↦ h.ordered p q (hcounts p hp) (hcounts q hq)
    newest := fun s hs hlive ↦ h.newest s hs (StoreConfig.isLive_of_le hlive hnow) }

theorem counts_saved (h : SessionInv format config now serial files entries history)
    {p : ℕ × StoredCheckpoint κ} (hp : Counts config now files entries p) :
    p ∈ files ∧ p.2 ∈ history ∧ p.1 = p.2.seq := by
  have hfile : p ∈ files := hp.elim (h.subset p) And.left
  exact ⟨hfile, h.saved p hfile⟩

/-- Nothing was saved after the newest. -/
theorem serial_le_last (h : SessionInv format config now serial files entries history)
    {last : StoredCheckpoint κ} (hlast : history.getLast? = some last) (hs : stored ∈ history) :
    stored.serial ≤ last.serial := by
  obtain ⟨rest, rfl⟩ := List.getLast?_eq_some_iff.mp hlast
  obtain hs | hs := List.mem_append.mp hs
  · exact ((List.pairwise_append.mp h.serials).2.2 stored hs last (by simp)).le
  · rw [List.mem_singleton.mp hs]

theorem created_le_last (h : SessionInv format config now serial files entries history)
    {last : StoredCheckpoint κ} (hlast : history.getLast? = some last) (hs : stored ∈ history) :
    stored.createdAtMillis ≤ last.createdAtMillis := by
  obtain ⟨rest, rfl⟩ := List.getLast?_eq_some_iff.mp hlast
  obtain hs | hs := List.mem_append.mp hs
  · exact (List.pairwise_append.mp h.created).2.2 stored hs last (by simp)
  · rw [List.mem_singleton.mp hs]

/-- What counts is numbered up to the newest. -/
theorem key_le_newest (h : SessionInv format config now serial files entries history)
    {last : StoredCheckpoint κ} (hlast : history.getLast? = some last)
    (hlive : config.isLive now last = true) {p : ℕ × StoredCheckpoint κ}
    (hp : Counts config now files entries p) : p.1 ≤ last.seq := by
  by_contra hlt
  have hfile := h.newest last hlast hlive
  have hafter := h.ordered (last.seq, last) p (.inr ⟨hfile, hlive⟩) hp (Nat.not_le.mp hlt)
  exact absurd (h.serial_le_last hlast (h.counts_saved hp).2.1) (Nat.not_le.mpr hafter)

variable {seq : ℕ} {p : ℕ × StoredCheckpoint κ}

/-- An entry over the cap has the cap's number of entries after it. -/
theorem outnumbered (h : SessionInv format config now serial files entries history)
    (hp : p ∈ entries) (hover : p.1 ∈ CheckpointStore.overflow config entries) :
    Outnumbered config history p.2 := by
  set rest := entries.eraseAll (CheckpointStore.overflow config entries) with hrest
  have hmem : ∀ q ∈ rest, q ∈ entries := fun q hq ↦ (OrderedMap.mem_eraseAll.mp hq).1
  have hlater : ∀ q ∈ rest, q.2 ∈ history.filter fun s ↦ p.2.serial < s.serial := by
    intro q hq
    have hlt := h.ordered p q (.inl hp) (.inl (hmem q hq)) (OrderedMap.lt_of_mem_take hover hq)
    exact List.mem_filter.mpr ⟨(h.saved q (h.subset q (hmem q hq))).1, decide_eq_true hlt⟩
  have hnodup : (rest.entries.map (·.2)).Nodup := by
    refine List.pairwise_map.mpr (rest.sorted.imp_of_mem fun {q r} hq hr hlt heq ↦ ?_)
    have hqseq := (h.saved q (h.subset q (hmem q hq))).2
    have hrseq := (h.saved r (h.subset r (hmem r hr))).2
    rw [hqseq, hrseq, heq] at hlt
    exact hlt.false
  have hsize : rest.size = config.maxPerSession := by
    have hpos : 0 < entries.size - config.maxPerSession :=
      Nat.pos_of_ne_zero fun hzero ↦ by simp [CheckpointStore.overflow, hzero] at hover
    rw [hrest, CheckpointStore.overflow, OrderedMap.size_eraseAll_take]
    omega
  have hsub : rest.entries.map (·.2) ⊆ history.filter fun s ↦ p.2.serial < s.serial := by
    intro s hs
    obtain ⟨q, hq, rfl⟩ := List.mem_map.mp hs
    exact hlater q hq
  calc config.maxPerSession = (rest.entries.map (·.2)).length := by
        rw [List.length_map, ← hsize]
        rfl
    _ ≤ _ := (List.subperm_of_subset hnodup hsub).length_le

/-- The newest is not over a cap that lets anything stay. -/
theorem newest_not_over (h : SessionInv format config now serial files entries history)
    (hcap : 0 < config.maxPerSession) {last : StoredCheckpoint κ}
    (hlast : history.getLast? = some last) (hfile : (last.seq, last) ∈ files) :
    last.seq ∉ CheckpointStore.overflow config entries := by
  intro hover
  obtain ⟨p, hp, hkey⟩ := OrderedMap.mem_keys.mp (List.mem_of_mem_take hover)
  obtain rfl := OrderedMap.eq_of_key_eq (h.subset p hp) hfile hkey
  have hout := h.outnumbered hp hover
  obtain ⟨later, hlater⟩ := List.exists_mem_of_length_pos (hcap.trans_le hout)
  obtain ⟨hin, hlt⟩ := List.mem_filter.mp hlater
  exact absurd (h.serial_le_last hlast hin) (Nat.not_le.mpr (of_decide_eq_true hlt))

theorem eraseAll (h : SessionInv format config now serial files entries history)
    (hcap : 0 < config.maxPerSession) :
    SessionInv format config now serial
      (files.eraseAll (CheckpointStore.overflow config entries))
      (entries.eraseAll (CheckpointStore.overflow config entries)) history where
  serials := h.serials
  serial_lt := h.serial_lt
  created := h.created
  intact := h.intact
  saved p hp := h.saved p (OrderedMap.mem_eraseAll.mp hp).1
  subset p hp := by
    obtain ⟨hp, hkey⟩ := OrderedMap.mem_eraseAll.mp hp
    exact OrderedMap.mem_eraseAll.mpr ⟨h.subset p hp, hkey⟩
  ordered p q hp hq := by
    have hcounts : ∀ {ks p}, Counts config now (files.eraseAll ks) (entries.eraseAll ks) p →
        Counts config now files entries p := fun hp ↦
      hp.imp (fun he ↦ (OrderedMap.mem_eraseAll.mp he).1)
        fun hf ↦ ⟨(OrderedMap.mem_eraseAll.mp hf.1).1, hf.2⟩
    exact h.ordered p q (hcounts hp) (hcounts hq)
  newest s hs hlive := by
    have hfile := h.newest s hs hlive
    exact OrderedMap.mem_eraseAll.mpr ⟨hfile, h.newest_not_over hcap hs hfile⟩

/-- A file that is pruned is one over the cap. -/
theorem outnumbered_of_erased (h : SessionInv format config now serial files entries history)
    (hp : p ∈ files) (herased : p ∉ files.eraseAll (CheckpointStore.overflow config entries)) :
    Outnumbered config history p.2 := by
  have hover : p.1 ∈ CheckpointStore.overflow config entries := by
    by_contra hnot
    exact herased (OrderedMap.mem_eraseAll.mpr ⟨hp, hnot⟩)
  obtain ⟨q, hq, hkey⟩ := OrderedMap.mem_keys.mp (List.mem_of_mem_take hover)
  obtain rfl := OrderedMap.eq_of_key_eq (h.subset q hq) hp hkey
  exact h.outnumbered hq hover

/-- The entries are read again from the files. -/
theorem reread (h : SessionInv format config now serial files entries history) :
    SessionInv format config now serial files
      (files.retain fun file ↦ config.isLive now file.2) history := by
  have hcounts : ∀ p, Counts config now files
      (files.retain fun file ↦ config.isLive now file.2) p → Counts config now files entries p :=
    fun p hp ↦ .inr (hp.elim OrderedMap.mem_retain.mp id)
  exact { h with
    subset := fun p hp ↦ (OrderedMap.mem_retain.mp hp).1
    ordered := fun p q hp hq ↦ h.ordered p q (hcounts p hp) (hcounts q hq) }

/-- The memory forgets some entries. -/
theorem retain (h : SessionInv format config now serial files entries history)
    (keep : ℕ × StoredCheckpoint κ → Bool) :
    SessionInv format config now serial files (entries.retain keep) history := by
  have hcounts : ∀ p, Counts config now files (entries.retain keep) p →
      Counts config now files entries p :=
    fun p hp ↦ hp.imp_left fun he ↦ (OrderedMap.mem_retain.mp he).1
  exact { h with
    subset := fun p hp ↦ h.subset p (OrderedMap.mem_retain.mp hp).1
    ordered := fun p q hp hq ↦ h.ordered p q (hcounts p hp) (hcounts q hq) }

/-- Everything of the session has expired, and its directory is removed. -/
theorem removed (h : SessionInv format config now serial files entries history)
    (hall : ∀ p ∈ files, config.isLive now p.2 = false) :
    SessionInv format config now serial ∅ (entries.retain fun p ↦ config.isLive now p.2)
      history := by
  have hnone : ∀ p, p ∉ entries.retain fun p ↦ config.isLive now p.2 := by
    intro p hp
    obtain ⟨hp, hlive⟩ := OrderedMap.mem_retain.mp hp
    rw [hall p (h.subset p hp)] at hlive
    cases hlive
  exact { h with
    saved := fun _ hp ↦ absurd hp OrderedMap.not_mem_empty
    subset := fun p hp ↦ absurd hp (hnone p)
    ordered := fun p _ hp _ _ ↦
      absurd hp (not_or.mpr ⟨hnone p, fun hf ↦ OrderedMap.not_mem_empty hf.1⟩)
    newest := fun s hs hlive ↦ by
      have hexpired := hall _ (h.newest s hs hlive)
      rw [hlive] at hexpired
      cases hexpired }

theorem nil (format : CheckpointFormat κ) (config : StoreConfig) (now serial : ℕ) :
    SessionInv format config now serial ∅ ∅ [] where
  serials := .nil
  serial_lt := nofun
  created := .nil
  intact := nofun
  saved := nofun
  subset := nofun
  ordered _ _ hp := absurd hp (not_or.mpr ⟨nofun, nofun⟩)
  newest := nofun

/-- A save under a number that is above all that counts. -/
theorem insert (h : SessionInv format config now serial files entries history)
    (hseq : stored.seq = seq) (hserial : stored.serial = serial)
    (hintact : format.digest (format.payload stored.checkpoint) = stored.checksum ∧
      format.validate stored.checkpoint = .ok ())
    (hfiles : ∀ p ∈ files, seq ≤ p.1 → config.isLive now p.2 = false)
    (hentries : ∀ p ∈ entries, p.1 < seq)
    (hcreated : ∀ s ∈ history, s.createdAtMillis ≤ stored.createdAtMillis) :
    SessionInv format config now (serial + 1) (files.insert seq stored)
      (entries.insert seq stored) (history ++ [stored]) := by
  have hold : ∀ p, Counts config now (files.insert seq stored) (entries.insert seq stored) p →
      p = (seq, stored) ∨ Counts config now files entries p ∧ p.1 < seq := by
    rintro p (hp | ⟨hp, hlive⟩)
    · obtain hp | ⟨hp, -⟩ := OrderedMap.mem_insert.mp hp
      · exact .inl hp
      · exact .inr ⟨.inl hp, hentries p hp⟩
    · obtain hp | ⟨hp, -⟩ := OrderedMap.mem_insert.mp hp
      · exact .inl hp
      · refine .inr ⟨.inr ⟨hp, hlive⟩, Nat.lt_of_not_le fun hle ↦ ?_⟩
        rw [hfiles p hp hle] at hlive
        cases hlive
  constructor
  · refine List.pairwise_append.mpr ⟨h.serials, List.pairwise_singleton _ _, fun s hs t ht ↦ ?_⟩
    rw [List.mem_singleton.mp ht, hserial]
    exact h.serial_lt s hs
  · intro s hs
    obtain hs | hs := List.mem_append.mp hs
    · exact (h.serial_lt s hs).trans (Nat.lt_succ_self _)
    · rw [List.mem_singleton.mp hs, hserial]
      exact Nat.lt_succ_self _
  · refine List.pairwise_append.mpr ⟨h.created, List.pairwise_singleton _ _, fun s hs t ht ↦ ?_⟩
    rw [List.mem_singleton.mp ht]
    exact hcreated s hs
  · intro s hs
    obtain hs | hs := List.mem_append.mp hs
    · exact h.intact s hs
    · rw [List.mem_singleton.mp hs]
      exact hintact
  · intro p hp
    obtain rfl | ⟨hp, -⟩ := OrderedMap.mem_insert.mp hp
    · exact ⟨List.mem_append_right _ (List.mem_singleton_self _), hseq.symm⟩
    · exact ⟨List.mem_append_left _ (h.saved p hp).1, (h.saved p hp).2⟩
  · intro p hp
    obtain rfl | ⟨hp, hne⟩ := OrderedMap.mem_insert.mp hp
    · exact OrderedMap.mem_insert.mpr (.inl rfl)
    · exact OrderedMap.mem_insert.mpr (.inr ⟨h.subset p hp, hne⟩)
  · intro p q hp hq hlt
    obtain rfl | ⟨hp, hpseq⟩ := hold p hp
    · obtain rfl | ⟨-, hqseq⟩ := hold q hq
      · exact absurd hlt (Nat.lt_irrefl _)
      · exact absurd hlt hqseq.asymm
    · obtain rfl | ⟨hq, -⟩ := hold q hq
      · change p.2.serial < stored.serial
        rw [hserial]
        exact h.serial_lt p.2 (h.counts_saved hp).2.1
      · exact h.ordered p q hp hq hlt
  · intro s hs _
    rw [List.getLast?_concat, Option.some.injEq] at hs
    subst hs
    rw [hseq]
    exact OrderedMap.mem_insert.mpr (.inl rfl)

end SessionInv

/-! ## The operations -/

inductive StoreEvent (σ κ : Type) where
  | save (session : σ) (checkpoint : κ)
  | loadLatest (session : σ)
  | list (session : σ)
  | pruneExpired
  | deleteSession (session : σ)
  | restart

namespace CheckpointStore

variable {self : CheckpointStore σ κ} {name : σ → String} {session : σ} {checkpoint : κ}

/-- What the operations leave at some time. -/
def apply (self : CheckpointStore σ κ) (format : CheckpointFormat κ) (config : StoreConfig)
    (name : σ → String) (now : ℕ) : StoreEvent σ κ → CheckpointStore σ κ
  | .save session checkpoint => (self.save format config session checkpoint).2
  | .loadLatest session => (self.loadLatest format config name now session).2
  | .list session => (self.list format config now session).2
  | .pruneExpired => self.pruneExpired config now
  | .deleteSession session => self.deleteSession session
  | .restart => self.restart

def Inv (format : CheckpointFormat κ) (config : StoreConfig) (now : ℕ)
    (store : CheckpointStore σ κ) : Prop :=
  ∀ session, SessionInv format config now store.serial (store.files session)
    (store.entries session) (store.history session)

/-- The envelope that a save writes for a copy. -/
def envelope (self : CheckpointStore σ κ) (format : CheckpointFormat κ) (session : σ) (copy : κ) :
    StoredCheckpoint κ :=
  ⟨self.allocateSeq session, format.createdAtMillis copy, format.digest (format.payload copy), copy,
    self.serial⟩

/-- The store with an envelope, before it is pruned. -/
def inserted (self : CheckpointStore σ κ) (session : σ) (stored : StoredCheckpoint κ) :
    CheckpointStore σ κ where
  files := Function.update self.files session ((self.files session).insert stored.seq stored)
  entries := Function.update self.entries session ((self.entries session).insert stored.seq stored)
  nextSeq := Function.update self.nextSeq session (some (stored.seq + 1))
  history := Function.update self.history session (self.history session ++ [stored])
  serial := self.serial + 1

/-- The copy that a save of the checkpoint keeps, unless the save is refused. -/
def Keeps (format : CheckpointFormat κ) (config : StoreConfig) (checkpoint copy : κ) : Prop :=
  format.persistenceSafeCopy checkpoint = .ok copy ∧
    (format.payload copy).length ≤ config.maxBytes

/-- A save is refused and changes nothing, or it keeps a copy. -/
theorem save_cases (self : CheckpointStore σ κ) (session : σ) (checkpoint : κ) :
    (∃ e, self.save format config session checkpoint = (.error e, self)) ∨
      ∃ copy, Keeps format config checkpoint copy ∧
        self.save format config session checkpoint = (.ok (session, self.allocateSeq session),
          (self.inserted session (self.envelope format session copy)).pruneLocked config
            session) := by
  unfold save
  split
  · exact .inl ⟨_, rfl⟩
  · rename_i copy hcopy
    dsimp only
    split
    · exact .inl ⟨_, rfl⟩
    · rename_i hlength
      exact .inr ⟨copy, ⟨hcopy, Nat.not_lt.mp hlength⟩, rfl⟩

theorem Inv.pruneLocked (h : Inv format config now self) (hcap : 0 < config.maxPerSession)
    (session : σ) : Inv format config now (self.pruneLocked config session) := by
  intro other
  unfold CheckpointStore.pruneLocked
  by_cases hother : other = session
  · subst hother
    simp only [Function.update_self]
    exact (h other).eraseAll hcap
  · simp only [Function.update_of_ne hother]
    exact h other

/-- What may happen without the newest checkpoint being lost. -/
def InOrder (format : CheckpointFormat κ) (config : StoreConfig) (now : ℕ)
    (store : CheckpointStore σ κ) : StoreEvent σ κ → Prop
  | .save session checkpoint => ∀ copy, Keeps format config checkpoint copy →
      (∀ p ∈ store.files session, store.allocateSeq session ≤ p.1 →
        config.isLive now p.2 = false) ∧
      (∀ p ∈ store.entries session, p.1 < store.allocateSeq session) ∧
      ∀ s ∈ store.history session, s.createdAtMillis ≤ format.createdAtMillis checkpoint
  | .pruneExpired => ∀ session, (∃ p ∈ store.entries session, config.isLive now p.2 = false) →
      ∀ p ∈ store.files session, config.isLive now p.2 = false
  | _ => True

theorem Inv.inserted (h : Inv format config now self) {copy : κ}
    (hkeeps : Keeps format config checkpoint copy)
    (horder : InOrder format config now self (.save session checkpoint)) :
    Inv format config now (self.inserted session (self.envelope format session copy)) := by
  obtain ⟨hfiles, hentries, hcreated⟩ := horder copy hkeeps
  intro other
  unfold CheckpointStore.inserted
  by_cases hother : other = session
  · subst hother
    simp only [Function.update_self]
    refine (h other).insert rfl rfl ⟨rfl, format.validate_safeCopy _ _ hkeeps.1⟩ hfiles hentries ?_
    intro s hs
    rw [← format.createdAtMillis_safeCopy _ _ hkeeps.1] at hcreated
    exact hcreated s hs
  · simp only [Function.update_of_ne hother]
    exact (h other).mono (Nat.le_refl _) (Nat.le_succ _)

/-- The store with the entries of a session read again, before it is pruned. -/
def reread (self : CheckpointStore σ κ) (config : StoreConfig) (now : ℕ) (session : σ) :
    CheckpointStore σ κ :=
  { self with
    entries := Function.update self.entries session
      ((self.files session).retain fun file ↦ config.isLive now file.2) }

theorem Inv.reread (h : Inv format config now self) (session : σ) :
    Inv format config now (self.reread config now session) := by
  intro other
  unfold CheckpointStore.reread
  by_cases hother : other = session
  · subst hother
    simp only [Function.update_self]
    exact (h other).reread
  · simp only [Function.update_of_ne hother]
    exact h other

theorem Inv.refresh (h : Inv format config now self) (hcap : 0 < config.maxPerSession)
    (session : σ) : Inv format config now (self.refresh config now session) :=
  (h.reread session).pruneLocked hcap session

theorem loadLatest_store (self : CheckpointStore σ κ) :
    (self.loadLatest format config name now session).2 = self.refresh config now session := by
  unfold loadLatest
  dsimp only
  split <;> rfl

/-- A session that loses an entry to its age is one with an entry that expired. -/
theorem exists_expired (h : (entries.retain fun p ↦ config.isLive now p.2).size ≠ entries.size) :
    ∃ p ∈ entries, config.isLive now p.2 = false := by
  by_contra hall
  refine h (congrArg List.length (List.filter_eq_self.mpr fun p hp ↦ ?_))
  exact Bool.of_not_eq_false fun hexpired ↦ hall ⟨p, hp, hexpired⟩

omit [DecidableEq σ] in
theorem Inv.pruneExpired (h : Inv format config now self)
    (horder : InOrder format config now self .pruneExpired) :
    Inv format config now (self.pruneExpired config now) := by
  intro session
  unfold CheckpointStore.pruneExpired
  dsimp only
  split
  · rename_i hsize
    exact (h session).removed (horder session (exists_expired hsize))
  · exact (h session).retain _

theorem Inv.deleteSession (h : Inv format config now self) (session : σ) :
    Inv format config now (self.deleteSession session) := by
  intro other
  unfold CheckpointStore.deleteSession
  by_cases hother : other = session
  · subst hother
    simp only [Function.update_self]
    exact .nil ..
  · simp only [Function.update_of_ne hother]
    exact h other

omit [DecidableEq σ] in
theorem Inv.restart (h : Inv format config now self) : Inv format config now self.restart := by
  intro session
  have hinv := (h session).retain fun _ ↦ false
  have hempty : (self.entries session).retain (fun _ ↦ false) = ∅ := by
    unfold OrderedMap.retain
    simp only [List.filter_false]
    rfl
  rwa [hempty] at hinv

theorem Inv.apply (h : Inv format config now self) (hcap : 0 < config.maxPerSession)
    {event : StoreEvent σ κ} (horder : InOrder format config now self event) :
    Inv format config now (self.apply format config name now event) := by
  cases event with
  | save session checkpoint =>
    change Inv format config now (self.save format config session checkpoint).2
    obtain ⟨e, heq⟩ | ⟨copy, hkeeps, heq⟩ := self.save_cases session checkpoint
    · rwa [heq]
    · rw [heq]
      exact (h.inserted hkeeps horder).pruneLocked hcap session
  | loadLatest session =>
    change Inv format config now (self.loadLatest format config name now session).2
    rw [loadLatest_store]
    exact h.refresh hcap session
  | list session => exact h.refresh hcap session
  | pruneExpired => exact h.pruneExpired horder
  | deleteSession session => exact h.deleteSession session
  | restart => exact h.restart

/-! ## What is loaded and what is removed -/

/-- The newest checkpoint of the session is loaded unless it has expired, and no older one. -/
def LoadsNewest (format : CheckpointFormat κ) (config : StoreConfig) (name : σ → String) (now : ℕ)
    (store : CheckpointStore σ κ) (session : σ) : Prop :=
  (store.loadLatest format config name now session).1 = .ok
    (((store.history session).getLast?.filter fun s ↦ config.isLive now s).map
      fun s ↦ ((session, s.seq), s.checkpoint))

/-- A save does not write over the file of a checkpoint that has not expired. -/
def SparesLive (format : CheckpointFormat κ) (config : StoreConfig) (now : ℕ)
    (store : CheckpointStore σ κ) (event : StoreEvent σ κ) : Prop :=
  ∀ session checkpoint seq, event = .save session checkpoint →
    (store.save format config session checkpoint).1 = .ok (session, seq) →
    ∀ p ∈ store.files session, p.1 = seq → config.isLive now p.2 = false

/-- What is removed has expired or is outnumbered by newer ones, unless its session is deleted. -/
def RemovesOnlyOld (format : CheckpointFormat κ) (config : StoreConfig) (name : σ → String)
    (now : ℕ) (store : CheckpointStore σ κ) (event : StoreEvent σ κ) : Prop :=
  ∀ session, event ≠ .deleteSession session → ∀ p ∈ store.files session,
    p ∉ (store.apply format config name now event).files session →
    config.isLive now p.2 = false ∨
      Outnumbered config ((store.apply format config name now event).history session) p.2

theorem pruneLocked_files_of_ne {other : σ} (h : other ≠ session) :
    (self.pruneLocked config session).files other = self.files other :=
  Function.update_of_ne h ..

theorem pruneLocked_files_self : (self.pruneLocked config session).files session =
    (self.files session).eraseAll (overflow config (self.entries session)) :=
  Function.update_self ..

theorem Inv.removed_by_pruneLocked (h : Inv format config now self) {other : σ}
    {p : ℕ × StoredCheckpoint κ} (hp : p ∈ self.files other)
    (hremoved : p ∉ (self.pruneLocked config session).files other) :
    Outnumbered config (self.history other) p.2 := by
  by_cases hother : other = session
  · subst hother
    rw [pruneLocked_files_self] at hremoved
    exact (h other).outnumbered_of_erased hp hremoved
  · rw [pruneLocked_files_of_ne hother] at hremoved
    exact absurd hp hremoved

theorem Inv.removesOnlyOld_save (h : Inv format config now self)
    (horder : InOrder format config now self (.save session checkpoint)) :
    RemovesOnlyOld format config name now self (.save session checkpoint) := by
  intro other _ p hp hremoved
  change p ∉ (self.save format config session checkpoint).2.files other at hremoved
  change _ ∨ Outnumbered config ((self.save format config session checkpoint).2.history other) p.2
  obtain ⟨e, heq⟩ | ⟨copy, hkeeps, heq⟩ := self.save_cases session checkpoint
  · rw [heq] at hremoved
    exact absurd hp hremoved
  · rw [heq] at hremoved ⊢
    by_cases hin : p ∈ (self.inserted session (self.envelope format session copy)).files other
    · exact .inr ((h.inserted hkeeps horder).removed_by_pruneLocked hin hremoved)
    · -- The save wrote over the file.
      left
      unfold CheckpointStore.inserted at hin
      by_cases hother : other = session
      · subst hother
        simp only [Function.update_self, OrderedMap.mem_insert, not_or, not_and, not_not] at hin
        exact (horder copy hkeeps).1 p hp (hin.2 hp).ge
      · simp only [Function.update_of_ne hother] at hin
        exact absurd hp hin

theorem Inv.removesOnlyOld (h : Inv format config now self) {event : StoreEvent σ κ}
    (horder : InOrder format config now self event) :
    RemovesOnlyOld format config name now self event := by
  cases event with
  | save session checkpoint => exact h.removesOnlyOld_save horder
  | loadLatest session =>
    intro other _ p hp hremoved
    change p ∉ (self.loadLatest format config name now session).2.files other at hremoved
    change _ ∨ Outnumbered config
      ((self.loadLatest format config name now session).2.history other) p.2
    rw [loadLatest_store] at hremoved ⊢
    exact .inr ((h.reread session).removed_by_pruneLocked hp hremoved)
  | list session =>
    intro other _ p hp hremoved
    exact .inr ((h.reread session).removed_by_pruneLocked hp hremoved)
  | pruneExpired =>
    intro other _ p hp hremoved
    change p ∉ (self.pruneExpired config now).files other at hremoved
    unfold CheckpointStore.pruneExpired at hremoved
    dsimp only at hremoved
    split at hremoved
    · rename_i hsize
      exact .inl (horder other (exists_expired hsize) p hp)
    · exact absurd hp hremoved
  | deleteSession session =>
    intro other hother p hp hremoved
    have hne : other ≠ session := fun heq ↦ hother (heq ▸ rfl)
    change p ∉ Function.update self.files session ∅ other at hremoved
    rw [Function.update_of_ne hne] at hremoved
    exact absurd hp hremoved
  | restart =>
    intro other _ p hp hremoved
    exact absurd hp hremoved

theorem sparesLive {event : StoreEvent σ κ} (horder : InOrder format config now self event) :
    SparesLive format config now self event := by
  rintro session checkpoint seq rfl hok p hp rfl
  obtain ⟨e, heq⟩ | ⟨copy, hkeeps, heq⟩ :=
    @save_cases σ κ _ format config self session checkpoint
  · rw [heq] at hok
    cases hok
  · rw [heq] at hok
    obtain ⟨-, hseq⟩ := Prod.mk.inj (Except.ok.inj hok)
    exact (horder copy hkeeps).1 p hp hseq.le

omit [DecidableEq σ] in
/-- A file that is there, as it was written, is what is taken. -/
theorem verifyAndTake_eq {stored : StoredCheckpoint κ}
    (hfile : (stored.seq, stored) ∈ self.files session)
    (hintact : format.digest (format.payload stored.checkpoint) = stored.checksum ∧
      format.validate stored.checkpoint = .ok ()) :
    self.verifyAndTake format name session stored.seq stored = .ok stored.checkpoint := by
  have hfind : (self.files session).entries.find? (fun file ↦ file.1 = stored.seq) =
      some (stored.seq, stored) := by
    cases hfound : (self.files session).entries.find? (fun file ↦ file.1 = stored.seq) with
    | none => exact absurd (List.find?_eq_none.mp hfound _ hfile) (by simp)
    | some p =>
      have hkey : p.1 = stored.seq := by simpa using List.find?_some hfound
      rw [OrderedMap.eq_of_key_eq (List.mem_of_find?_eq_some hfound) hfile hkey]
  unfold verifyAndTake
  rw [hfind]
  simp only [ne_eq, hintact.1, not_true_eq_false, if_false, hintact.2]
  rfl

theorem refresh_entries : (self.refresh config now session).entries session =
    ((self.files session).retain fun file ↦ config.isLive now file.2).eraseAll
      (overflow config ((self.files session).retain fun file ↦ config.isLive now file.2)) := by
  simp only [refresh, pruneLocked, Function.update_self]

/-- The newest checkpoint is the last entry that is read. -/
theorem Inv.last?_refresh (h : Inv format config now self) (hcap : 0 < config.maxPerSession)
    {last : StoredCheckpoint κ} (hlast : (self.history session).getLast? = some last)
    (hlive : config.isLive now last = true) :
    ((self.refresh config now session).entries session).last? = some (last.seq, last) := by
  have hinv := (h session).reread
  have hfile := hinv.newest last hlast hlive
  rw [refresh_entries, OrderedMap.last?_eq_some]
  constructor
  · exact OrderedMap.mem_eraseAll.mpr
      ⟨OrderedMap.mem_retain.mpr ⟨hfile, hlive⟩, hinv.newest_not_over hcap hlast hfile⟩
  · intro p hp
    exact hinv.key_le_newest hlast hlive (.inl (OrderedMap.mem_eraseAll.mp hp).1)

/-- Nothing is read when the newest checkpoint has expired, since the others have too. -/
theorem Inv.last?_refresh_eq_none (h : Inv format config now self)
    (hexpired : (self.history session).getLast?.filter (fun s ↦ config.isLive now s) = none) :
    ((self.refresh config now session).entries session).last? = none := by
  refine List.getLast?_eq_none_iff.mpr (List.eq_nil_iff_forall_not_mem.mpr fun p hp ↦ ?_)
  rw [refresh_entries] at hp
  obtain ⟨hp, hlive⟩ := OrderedMap.mem_retain.mp (OrderedMap.mem_eraseAll.mp hp).1
  have hsaved := ((h session).saved p hp).1
  have hlast := List.getLast?_eq_some_getLast (List.ne_nil_of_mem hsaved)
  have hnewest := StoreConfig.isLive_of_created_le hlive ((h session).created_le_last hlast hsaved)
  rw [hlast, Option.filter_some, if_pos hnewest] at hexpired
  cases hexpired

theorem Inv.loadsNewest (h : Inv format config now self) (hcap : 0 < config.maxPerSession)
    (session : σ) : LoadsNewest format config name now self session := by
  unfold LoadsNewest loadLatest
  dsimp only
  cases hnewest : (self.history session).getLast?.filter fun s ↦ config.isLive now s with
  | none => rw [h.last?_refresh_eq_none hnewest]; rfl
  | some last =>
    obtain ⟨hlast, hlive⟩ := Option.filter_eq_some_iff.mp hnewest
    have hinv := h.refresh hcap session session
    have hfile := hinv.newest last hlast hlive
    have hintact := hinv.intact last (hinv.saved _ hfile).1
    rw [h.last?_refresh hcap hlast hlive]
    dsimp only
    rw [verifyAndTake_eq hfile hintact]
    rfl

/-! ## Runs -/

/-- The store and the clock after an operation at some time. -/
def step (format : CheckpointFormat κ) (config : StoreConfig) (name : σ → String)
    (run : CheckpointStore σ κ × ℕ) (event : ℕ × StoreEvent σ κ) :
    Option (CheckpointStore σ κ × ℕ) :=
  if run.2 ≤ event.1 then some (run.1.apply format config name event.1 event.2, event.1) else none

/-- The newest checkpoint of every session is what is loaded, now and later. -/
def ResumesNewest (format : CheckpointFormat κ) (config : StoreConfig) (name : σ → String)
    (run : CheckpointStore σ κ × ℕ) : Prop :=
  ∀ session now, run.2 ≤ now → LoadsNewest format config name now run.1 session

/-- What an operation writes and removes. -/
def RemovesNothingNeeded (format : CheckpointFormat κ) (config : StoreConfig) (name : σ → String)
    (run : CheckpointStore σ κ × ℕ) (event : ℕ × StoreEvent σ κ) : Prop :=
  run.2 ≤ event.1 → SparesLive format config event.1 run.1 event.2 ∧
    RemovesOnlyOld format config name event.1 run.1 event.2

/-- At every step of the run only what is old is removed, and after every step the newest checkpoint
is the one that is loaded. -/
def AlwaysResumesNewest (format : CheckpointFormat κ) (config : StoreConfig) (name : σ → String)
    (events : List (ℕ × StoreEvent σ κ)) : Prop :=
  Throughout (step format config name) (empty, 0) events
      (RemovesNothingNeeded format config name) ∧
    ∀ pre post run, events = pre ++ post →
      exec (step format config name) (empty, 0) pre = some run →
      ResumesNewest format config name run

/-- In every run, with any restarts, that numbers its saves above what still counts, that removes a
directory only when everything in it has expired, and whose checkpoints are saved in the order of
their captures, the newest checkpoint of a session is the one that is loaded, and only what is old
is removed. -/
theorem alwaysResumesNewest (hcap : 0 < config.maxPerSession) (events : List (ℕ × StoreEvent σ κ))
    (horder : Throughout (step format config name) (empty, 0) events fun run event ↦
      InOrder format config event.1 run.1 event.2) :
    AlwaysResumesNewest format config name events := by
  have hinv : ∀ pre post run, events = pre ++ post →
      exec (step format config name) (empty, 0) pre = some run → Inv format config run.2 run.1 := by
    rintro pre post run rfl hrun
    refine exec_invariant (I := fun run ↦ Inv format config run.2 run.1) ?_
      (fun _ ↦ .nil ..) horder.of_append hrun
    intro run event run' hrun horder hstep
    obtain ⟨hle, hstep⟩ := Option.ite_none_right_eq_some.mp hstep
    cases hstep
    exact Inv.apply (fun session ↦ (hrun session).mono hle (Nat.le_refl _)) hcap horder
  constructor
  · intro pre event post run heq hrun hle
    have hnow : Inv format config event.1 run.1 := fun session ↦
      (hinv pre (event :: post) run heq hrun session).mono hle (Nat.le_refl _)
    have hevent := horder pre event post run heq hrun
    exact ⟨sparesLive hevent, hnow.removesOnlyOld hevent⟩
  · intro pre post run heq hrun session now hle
    refine Inv.loadsNewest (fun session ↦ ?_) hcap session
    exact (hinv pre post run heq hrun session).mono hle (Nat.le_refl _)

/-! ## Restarts -/

/-- Checkpoints of a time and a title with nothing to redact. -/
def titled : CheckpointFormat (ℕ × String) where
  createdAtMillis c := c.1
  persistenceSafeCopy := .ok
  validate _ := .ok ()
  payload c := c.2.toUTF8.toList
  digest bytes := String.ofList (bytes.map fun byte ↦ Char.ofNat byte.toNat)
  createdAtMillis_safeCopy _ _ h := by cases h; rfl
  validate_safeCopy _ _ _ := rfl

theorem alwaysResumesNewest_restart : AlwaysResumesNewest titled ⟨1000, 1000, 5⟩ id
    [(1, .save "s" (1, "one")), (3, .restart), (4, .loadLatest "s")] := by
  refine alwaysResumesNewest (by decide) _ (throughout_cons ?_ fun _ _ ↦ ?_)
  · exact fun _ _ ↦ ⟨nofun, nofun, nofun⟩
  · exact throughout_cons trivial fun _ _ ↦ throughout_cons trivial fun _ _ ↦ throughout_nil

/-- Two saves, a restart and a third save, which is numbered like the first one. -/
def savesAcrossRestart : List (ℕ × StoreEvent String (ℕ × String)) :=
  [(1, .save "s" (1, "one")), (2, .save "s" (2, "two")), (3, .restart), (4, .save "s" (4, "three"))]

/-- The checkpoint that is loaded after the third save is the second one. -/
theorem restart_resumes_older :
    ¬ AlwaysResumesNewest titled ⟨1000, 1000, 5⟩ id savesAcrossRestart := by
  rintro ⟨-, hloads⟩
  have hload := hloads savesAcrossRestart [] _ (List.append_nil _).symm rfl "s" 5 (by decide)
  unfold LoadsNewest at hload
  exact absurd hload (by decide +kernel)

end CheckpointStore

end EeEditor.Orchestrator
