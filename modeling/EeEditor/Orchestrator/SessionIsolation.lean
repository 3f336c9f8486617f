import EeEditor.Orchestrator.SessionFiles

/-!
# Which sessions are isolated on disk

A session has a directory of its own in the store when its id is not empty and no special name, and
when no character that is replaced makes another id of it. The recursive deletion reaches whatever
the name leads to.
-/

namespace EeEditor.Orchestrator

open DiskProgram

variable {κ : Type} {store : DurableStore κ} {memory : StoreMemory κ} {s t : String} {now : ℕ}
  {dir d : Location}

/-! ## Names -/

/-- An id that its directory is named after. -/
def PlainId (s : String) : Prop := s ≠ "" ∧ s ≠ "." ∧ s ≠ ".."

theorem sanitize_eq_dots {n : ℕ} (h : (sanitize s).toList = List.replicate n '.') :
    s.toList = List.replicate n '.' := by
  rw [sanitize, String.toList_ofList] at h
  rw [List.eq_replicate_iff] at h ⊢
  refine ⟨by simpa using h.1, fun c hc ↦ ?_⟩
  have hmap := h.2 _ (List.mem_map_of_mem hc)
  by_contra hne
  split at hmap
  · exact hne hmap
  · exact absurd hmap (by decide)

theorem sanitize_dots_iff (n : ℕ) : sanitize s = String.ofList (List.replicate n '.') ↔
    s = String.ofList (List.replicate n '.') := by
  constructor
  · intro h
    rw [← String.toList_inj, String.toList_ofList]
    exact sanitize_eq_dots (by rw [h, String.toList_ofList])
  · rintro rfl
    rw [sanitize, String.toList_ofList, List.map_replicate]
    rfl

/-- The special names come from themselves only. -/
theorem plainId_iff : PlainId s ↔ sanitize s ≠ "" ∧ sanitize s ≠ "." ∧ sanitize s ≠ ".." := by
  rw [PlainId]
  exact and_congr (sanitize_dots_iff 0).not.symm
    (and_congr (sanitize_dots_iff 1).not.symm (sanitize_dots_iff 2).not.symm)

theorem sessionDir_plain (h : PlainId s) : sessionDir dir s = dir ++ [sanitize s] := by
  obtain ⟨hempty, hdot, hdots⟩ := plainId_iff.mp h
  rw [sessionDir, joinName, if_neg (not_or.mpr ⟨hempty, hdot⟩), if_neg hdots]

theorem length_sessionDir_le (h : ¬ PlainId s) : (sessionDir dir s).length ≤ dir.length := by
  rw [sessionDir, joinName]
  split
  · exact le_rfl
  split
  · rw [List.length_dropLast]
    exact Nat.sub_le _ _
  · rename_i hsame hdots
    exact absurd (plainId_iff.mpr ⟨fun h ↦ hsame (.inl h), fun h ↦ hsame (.inr h), hdots⟩) h

/-! ## Where the operations reach -/

theorem prefix_seqPath (seq : ℕ) : sessionDir dir s <+: seqPath dir s seq := List.prefix_append _ _

theorem within_removeFiles {files : List Location} (h : ∀ file ∈ files, d <+: file) :
    Within d (DurableStore.removeFiles files) := by
  induction files with
  | nil => exact within_pure ()
  | cons file files ih =>
    exact .remove (h file List.mem_cons_self) (ih fun file' hfile ↦ h file' (.tail _ hfile))

namespace DurableStore

theorem within_pruneLocked (store : DurableStore κ) (s : String)
    (entries : OrderedMap (StoredCheckpoint κ)) :
    Within (sessionDir store.dir s) (store.pruneLocked s entries) := by
  refine .bind (within_removeFiles fun file hfile ↦ ?_) fun _ ↦ within_pure _
  obtain ⟨seq, -, rfl⟩ := List.mem_map.mp hfile
  exact prefix_seqPath seq

theorem within_writeFile (store : DurableStore κ) (s : String) (stored : StoredCheckpoint κ) :
    Within (sessionDir store.dir s) (store.writeFile s stored) := by
  have htmp : sessionDir store.dir s <+: store.tmpPath s stored.seq := List.prefix_append _ _
  refine .read htmp fun content ↦ ?_
  cases content with
  | some _ => exact within_pure _
  | none => exact .write htmp (.remove htmp (.write (prefix_seqPath _) (within_pure _)))

theorem within_save (store : DurableStore κ) (memory : StoreMemory κ) (s : String)
    (checkpoint : κ) :
    Within (sessionDir store.dir s) (store.save memory s checkpoint) := by
  rw [save]
  split
  · exact within_pure _
  · dsimp only
    split
    · exact within_pure _
    · refine .bind (store.within_writeFile s _) fun result ↦ ?_
      cases result with
      | error e => exact within_pure _
      | ok => exact .bind (store.within_pruneLocked s _) fun _ ↦ within_pure _

theorem within_readFile (store : DurableStore κ) (s : String) (seq : ℕ) :
    Within (sessionDir store.dir s) (store.readFile s seq) := by
  refine .read (prefix_seqPath seq) fun content ↦ ?_
  split <;> exact within_pure _

theorem within_readFiles (store : DurableStore κ) (s : String) (names : List String)
    (disk : OrderedMap (StoredCheckpoint κ)) :
    Within (sessionDir store.dir s) (store.readFiles s names disk) := by
  induction names generalizing disk with
  | nil => exact within_pure _
  | cons name names ih =>
    rw [readFiles]
    split
    · exact ih disk
    · refine .bind (store.within_readFile s _) fun result ↦ ?_
      cases result with
      | error e => exact within_pure _
      | ok stored => exact ih _

theorem within_refresh (store : DurableStore κ) (memory : StoreMemory κ) (now : ℕ) (s : String) :
    Within (sessionDir store.dir s) (store.refresh memory now s) := by
  refine .list (List.prefix_refl _) fun names ↦ .bind (store.within_readFiles s names ∅) fun r ↦ ?_
  cases r with
  | error e => exact within_pure _
  | ok disk => exact .bind (store.within_pruneLocked s _) fun _ ↦ within_pure _

theorem within_verifyAndTake (store : DurableStore κ) (s : String) (seq : ℕ)
    (stored : StoredCheckpoint κ) :
    Within (sessionDir store.dir s) (store.verifyAndTake s seq stored) := by
  refine .bind (store.within_readFile s seq) fun result ↦ ?_
  cases result with
  | error e => exact within_pure _
  | ok file =>
    dsimp only
    split <;> exact within_pure _

theorem within_loadLatest (store : DurableStore κ) (memory : StoreMemory κ) (now : ℕ) (s : String) :
    Within (sessionDir store.dir s) (store.loadLatest memory now s) := by
  refine .bind (store.within_refresh memory now s) fun (result, memory) ↦ ?_
  cases result with
  | error e => exact within_pure _
  | ok =>
    dsimp only
    split
    · exact within_pure _
    · exact .bind (store.within_verifyAndTake s _ _) fun _ ↦ within_pure _

theorem within_list (store : DurableStore κ) (memory : StoreMemory κ) (now : ℕ) (s : String) :
    Within (sessionDir store.dir s) (store.list memory now s) := by
  refine .bind (store.within_refresh memory now s) fun (result, memory) ↦ ?_
  cases result <;> exact within_pure _

theorem within_removeSessions (store : DurableStore κ) {ids : List String} (h : ∀ r ∈ ids, r = s) :
    Within (sessionDir store.dir s) (store.removeSessions ids) := by
  induction ids with
  | nil => exact within_pure _
  | cons r ids ih =>
    obtain rfl := h r List.mem_cons_self
    exact .removeAll (List.prefix_refl _) (ih fun r' hr ↦ h r' (.tail _ hr))

/-! ## Isolation -/

/-- Every operation on the session stays within the directory, and so does the expiry when no other
session has an expired entry. -/
structure OnlyWithin (store : DurableStore κ) (s : String) (d : Location) : Prop where
  save : ∀ memory checkpoint, Within d (store.save memory s checkpoint)
  loadLatest : ∀ memory now, Within d (store.loadLatest memory now s)
  list : ∀ memory now, Within d (store.list memory now s)
  deleteSession : ∀ memory, Within d (store.deleteSession memory s)
  pruneExpired : ∀ memory now, (∀ r ∈ store.expiredIds memory now, r = s) →
    Within d (store.pruneExpired memory now)

theorem onlyWithin_sessionDir (store : DurableStore κ) (s : String) :
    OnlyWithin store s (sessionDir store.dir s) where
  save memory checkpoint := store.within_save memory s checkpoint
  loadLatest memory now := store.within_loadLatest memory now s
  list memory now := store.within_list memory now s
  deleteSession _ := .removeAll (List.prefix_refl _) (within_pure _)
  pruneExpired _ _ h := .bind (store.within_removeSessions h) fun _ ↦ within_pure _

/-- The operations on `s` stay within a child of the store that is not the directory of `t`. -/
def Isolated (store : DurableStore κ) (s t : String) : Prop :=
  ∃ name, store.dir ++ [name] ≠ sessionDir store.dir t ∧
    OnlyWithin store s (store.dir ++ [name])

theorem isolated_iff (store : DurableStore κ) (s t : String) :
    Isolated store s t ↔ PlainId s ∧ sanitize s ≠ sanitize t := by
  constructor
  · rintro ⟨name, hother, hwithin⟩
    have hpref : store.dir ++ [name] <+: sessionDir store.dir s := by
      cases hwithin.deleteSession ⟨∅, ∅⟩ with
      | removeAll inside _ => exact inside
    have hplain : PlainId s := by
      by_contra hplain
      have hle := hpref.length_le.trans (length_sessionDir_le hplain)
      rw [List.length_append, List.length_singleton] at hle
      omega
    rw [sessionDir_plain hplain] at hpref
    have heq := hpref.eq_of_length (by simp)
    refine ⟨hplain, fun hsame ↦ hother ?_⟩
    rw [heq, ← sessionDir_plain hplain, sessionDir, sessionDir, hsame]
  · rintro ⟨hplain, hname⟩
    refine ⟨sanitize s, fun heq ↦ ?_, sessionDir_plain hplain ▸ onlyWithin_sessionDir store s⟩
    by_cases ht : PlainId t
    · rw [sessionDir_plain ht, List.append_cancel_left_eq] at heq
      exact hname (List.singleton_inj.mp heq)
    · have hle : (sessionDir store.dir t).length ≤ store.dir.length := length_sessionDir_le ht
      rw [← heq, List.length_append, List.length_singleton] at hle
      omega

/-! ## What the deletions remove -/

theorem mem_run_deleteSession {disk : Disk Bytes} {file : Location × Bytes} (hfile : file ∈ disk)
    (hout : ¬ sessionDir store.dir s <+: file.1) :
    file ∈ ((store.deleteSession memory s).run disk).2 := by
  have hrun := ((onlyWithin_sessionDir store s).deleteSession memory).outside_run disk
  have hmem : file ∈ outside disk (sessionDir store.dir s) :=
    List.mem_filter.mpr ⟨hfile, by simpa using hout⟩
  rw [← hrun] at hmem
  exact (List.mem_filter.mp hmem).1

theorem run_bind_pure {ρ ρ' : Type} (p : DiskProgram Bytes ρ) (f : ρ → ρ') (disk : Disk Bytes) :
    ((p >>= fun result ↦ pure (f result)).run disk).2 = (p.run disk).2 := by
  change ((p.bind fun result ↦ .done (f result)).run disk).2 = _
  induction p generalizing disk with
  | done result => rfl
  | read file next ih => exact ih _ disk
  | list dir next ih => exact ih _ disk
  | write file content next ih => exact ih _
  | remove file next ih => exact ih _
  | removeAll dir next ih => exact ih _

theorem mem_run_pruneExpired {disk : Disk Bytes} {file : Location × Bytes} (hfile : file ∈ disk)
    (hout : ∀ r ∈ store.expiredIds memory now, ¬ sessionDir store.dir r <+: file.1) :
    file ∈ ((store.pruneExpired memory now).run disk).2 := by
  rw [DurableStore.pruneExpired, run_bind_pure]
  generalize store.expiredIds memory now = ids at hout
  induction ids generalizing disk with
  | nil => exact hfile
  | cons r ids ih =>
    refine ih (List.mem_filter.mpr ⟨hfile, ?_⟩) fun r' hr ↦ hout r' (.tail _ hr)
    simpa using hout r List.mem_cons_self

/-- A session is isolated from another one exactly when its id is no special name and the ids do not
meet in one name. What the deletions remove lies in the directories of the sessions that they are
for. -/
theorem sessions_isolated (store : DurableStore κ) :
    (∀ s t, Isolated store s t ↔ PlainId s ∧ sanitize s ≠ sanitize t) ∧
      (∀ memory s (disk : Disk Bytes), ∀ file ∈ disk, ¬ sessionDir store.dir s <+: file.1 →
        file ∈ ((store.deleteSession memory s).run disk).2) ∧
      ∀ memory now (disk : Disk Bytes), ∀ file ∈ disk,
        (∀ r ∈ store.expiredIds memory now, ¬ sessionDir store.dir r <+: file.1) →
          file ∈ ((store.pruneExpired memory now).run disk).2 :=
  ⟨store.isolated_iff, fun _ _ _ _ hfile ↦ mem_run_deleteSession hfile,
    fun _ _ _ _ hfile ↦ mem_run_pruneExpired hfile⟩

/-- A store in `/store` whose checkpoints hold nothing. -/
def unitStore : DurableStore Unit where
  format :=
    { createdAtMillis := fun _ ↦ 0
      persistenceSafeCopy := .ok
      validate := fun _ ↦ .ok ()
      payload := fun _ ↦ []
      digest := fun _ ↦ ""
      createdAtMillis_safeCopy := fun _ _ _ ↦ rfl
      validate_safeCopy := fun _ _ _ ↦ rfl
      encode := fun _ ↦ []
      decode := fun _ ↦ none }
  config := ⟨0, 0, 0⟩
  dir := ["store"]
  processId := 1

/-- The directory of the session `..` is the one that holds the store. -/
theorem dots_not_isolated : ¬ ∀ (store : DurableStore Unit) (s t : String), s ≠ t →
    Isolated store s t := by
  intro h
  have hisolated := h unitStore ".." "a" (by decide)
  exact ((isolated_iff unitStore ".." "a").mp hisolated).1.2.2 rfl

end DurableStore

end EeEditor.Orchestrator
