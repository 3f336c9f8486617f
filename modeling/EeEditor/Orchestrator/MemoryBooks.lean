import EeEditor.Effect.Trace
import EeEditor.Orchestrator.MemoryStore

/-!
# The books of the memory

The total of a store is the sum of the lengths of its items, as long as what is restored is as long
as what was saved: the strings of a checkpoint are redacted, the total in it is not recomputed.
-/

namespace EeEditor.Orchestrator

namespace MemoryStore

variable {s s' : MemoryStore} {items items' : List MemoryItem} {limitBytes size : ℕ}

theorem bytesOf_nil : bytesOf [] = 0 := rfl

theorem bytesOf_cons (item : MemoryItem) (items : List MemoryItem) :
    bytesOf (item :: items) = item.byteSize + bytesOf items := List.sum_cons

theorem bytesOf_append (items items' : List MemoryItem) :
    bytesOf (items ++ items') = bytesOf items + bytesOf items' := by
  rw [bytesOf, List.map_append, List.sum_append]
  rfl

theorem bytesOf_le (h : items.Sublist items') : bytesOf items ≤ bytesOf items' := by
  induction h with
  | slnil => exact le_rfl
  | cons item _ ih => exact ih.trans (Nat.le_add_left _ _)
  | cons_cons item _ ih =>
    rw [bytesOf_cons, bytesOf_cons]
    exact Nat.add_le_add_left ih _

structure Balanced (s : MemoryStore) : Prop where
  total : s.totalBytes = bytesOf s.items
  le_limit : s.totalBytes ≤ s.limitBytes
  plain : ∀ item ∈ s.items, item.sensitive = false

theorem balanced_new (limitBytes : ℕ) : (new limitBytes).Balanced := ⟨rfl, Nat.zero_le _, nofun⟩

/-! ## Insertion -/

theorem evict_spec (hsize : size ≤ limitBytes) (items : List MemoryItem) (evicted : ℕ) :
    ∃ n ≤ items.length,
      evict limitBytes size items (bytesOf items) evicted =
        some (evicted + n, bytesOf (items.drop n), items.drop n) ∧
      bytesOf (items.drop n) + size ≤ limitBytes ∧
      ∀ k < n, limitBytes < bytesOf (items.drop k) + size := by
  induction items generalizing evicted with
  | nil =>
    refine ⟨0, le_rfl, ?_, by simpa [bytesOf_nil] using hsize, nofun⟩
    rw [evict, bytesOf_nil, if_neg (by omega)]
    rfl
  | cons removed items ih =>
    by_cases hroom : bytesOf (removed :: items) + size > limitBytes
    · obtain ⟨n, hn, heq, hfits, hshort⟩ := ih (evicted + 1)
      have hsum := bytesOf_cons removed items
      refine ⟨n + 1, Nat.succ_le_succ hn, ?_, hfits, fun k hk ↦ ?_⟩
      · rw [evict, if_pos hroom, if_neg (by omega), hsum, Nat.add_sub_cancel_left, heq]
        simp only [List.drop_succ_cons, Nat.add_assoc, Nat.add_comm 1 n]
      · cases k with
        | zero => exact hroom
        | succ k => exact hshort k (Nat.lt_of_succ_lt_succ hk)
    · refine ⟨0, Nat.zero_le _, ?_, Nat.le_of_not_lt hroom, nofun⟩
      rw [evict, if_neg hroom]
      rfl

/-- What is stored of an item. -/
def stored (item : MemoryItem) : MemoryItem := { item with value := redact item.value }

/-- An insertion does not panic. It is refused and changes nothing, or it evicts the shortest prefix
of the items that makes room. -/
def InsertExact (s : MemoryStore) (item : MemoryItem) : Prop :=
  (∃ e, s.insert item = some (.error e, s)) ∨
  ∃ evicted s', s.insert item = some (.ok evicted, s') ∧ s'.limitBytes = s.limitBytes ∧
    s'.items = s.items.drop evicted ++ [stored item] ∧
    bytesOf (s.items.drop evicted) + (stored item).byteSize ≤ s.limitBytes ∧
    ∀ k < evicted, s.limitBytes < bytesOf (s.items.drop k) + (stored item).byteSize

theorem Balanced.insert (h : s.Balanced) (item : MemoryItem) :
    InsertExact s item ∧ ∃ r s', s.insert item = some (r, s') ∧ s'.Balanced := by
  rw [InsertExact, MemoryStore.insert]
  by_cases hsensitive : item.sensitive = true
  · rw [if_pos hsensitive]
    exact ⟨.inl ⟨_, rfl⟩, _, _, rfl, h⟩
  · rw [if_neg hsensitive]
    by_cases hsize : (stored item).byteSize > s.limitBytes
    · rw [← stored, if_pos hsize]
      exact ⟨.inl ⟨_, rfl⟩, _, _, rfl, h⟩
    · obtain ⟨n, -, hevict, hfits, hshort⟩ := evict_spec (Nat.le_of_not_lt hsize) s.items 0
      rw [Nat.zero_add] at hevict
      rw [← stored, if_neg hsize, h.total, hevict]
      refine ⟨.inr ⟨n, _, rfl, rfl, rfl, hfits, hshort⟩, _, _, rfl, ?_, hfits, ?_⟩
      · rw [bytesOf_append, bytesOf_cons, bytesOf_nil, Nat.add_zero]
      · intro other hother
        rcases List.mem_append.mp hother with hother | hother
        · exact h.plain other (List.mem_of_mem_drop hother)
        · rw [List.mem_singleton.mp hother]
          exact Bool.eq_false_iff.mpr hsensitive

/-! ## Removal and compaction -/

/-- A store whose total was computed anew from some of its items. -/
theorem Balanced.sublist (h : s.Balanced) (hsub : items.Sublist s.items) :
    Balanced { s with totalBytes := bytesOf items, items } where
  total := rfl
  le_limit := (bytesOf_le hsub).trans (h.total ▸ h.le_limit)
  plain item hitem := h.plain item (hsub.subset hitem)

theorem Balanced.removePrefix (h : s.Balanced) (pre : String) : (s.removePrefix pre).2.Balanced :=
  h.sublist List.filter_sublist

theorem Balanced.retain (h : s.Balanced) {keep : List Bool}
    (hlength : keep.length = s.items.length) :
    ∃ removed s', s.retain keep = some (removed, s') ∧ s'.Balanced := by
  rw [MemoryStore.retain, if_neg hlength.not_lt]
  refine ⟨_, _, rfl, h.sublist ?_⟩
  have hsub := (List.filter_sublist (p := (·.2)) (l := s.items.zip keep)).map (·.1)
  rwa [List.map_fst_zip hlength.ge] at hsub

theorem length_mergeFlags (newest : String → Option Provenance) (items : List MemoryItem) :
    (mergeFlags newest items).1.length = items.length := by
  induction items generalizing newest with
  | nil => rfl
  | cons item older ih =>
    rw [mergeFlags]
    split
    · exact congrArg (· + 1) (ih newest)
    · split
      · exact congrArg (· + 1) (ih newest)
      · exact congrArg (· + 1) (ih _)

/-- The decay takes each item at most once, so that its count of bytes does not go below zero. -/
theorem decayFlags_spec (pressureBytes : ℕ) (lowValuePrefix : String)
    (flagged : List (MemoryItem × Bool)) (bytes : ℕ)
    (hbytes : bytesOf (flagged.map (·.1)) ≤ bytes) :
    ∃ flags decayed, decayFlags pressureBytes lowValuePrefix flagged bytes = some (flags, decayed) ∧
      flags.length = flagged.length := by
  induction flagged generalizing bytes with
  | nil => exact ⟨[], 0, rfl, rfl⟩
  | cons first flagged ih =>
    obtain ⟨item, keep⟩ := first
    rw [List.map_cons, bytesOf_cons] at hbytes
    dsimp only at hbytes
    rw [decayFlags]
    by_cases hpressure : bytes ≤ pressureBytes
    · rw [if_pos hpressure]
      exact ⟨_, _, rfl, by simp⟩
    rw [if_neg hpressure]
    split
    · obtain ⟨flags, decayed, heq, hlength⟩ := ih (bytes - item.byteSize) (by omega)
      rw [if_neg (by omega), heq]
      exact ⟨_, _, rfl, congrArg (· + 1) hlength⟩
    · obtain ⟨flags, decayed, heq, hlength⟩ := ih bytes (by omega)
      rw [heq]
      exact ⟨_, _, rfl, congrArg (· + 1) hlength⟩

theorem length_mergeDuplicates (s : MemoryStore) (config : CompactionConfig) :
    (s.mergeDuplicates config).1.length = s.items.length := by
  rw [mergeDuplicates]
  split
  · rw [List.length_reverse, length_mergeFlags, List.length_reverse]
  · exact List.length_map _

theorem Balanced.decayObservations (h : s.Balanced) (config : CompactionConfig) {keep : List Bool}
    (hkeep : keep.length = s.items.length) :
    ∃ flags decayed, s.decayObservations config keep = some (flags, decayed) ∧
      flags.length = s.items.length := by
  rw [MemoryStore.decayObservations]
  split
  · have hzip : (s.items.zip keep).map (·.1) = s.items := List.map_fst_zip hkeep.ge
    obtain ⟨flags, decayed, heq, hlength⟩ := decayFlags_spec _ config.lowValuePrefix
      (s.items.zip keep) s.totalBytes (by rw [hzip, h.total])
    rw [List.length_zip, hkeep, Nat.min_self] at hlength
    exact ⟨flags, decayed, heq, hlength⟩
  · exact ⟨keep, 0, rfl, hkeep⟩

theorem Balanced.compactMemory (h : s.Balanced) (config : CompactionConfig) :
    ∃ report s', s.compactMemory config = some (report, s') ∧ s'.Balanced := by
  obtain ⟨flags, decayed, hdecay, hflags⟩ :=
    h.decayObservations config (length_mergeDuplicates s config)
  obtain ⟨removed, s', hretain, hbalanced⟩ := h.retain hflags
  rw [MemoryStore.compactMemory]
  simp only [hdecay, Option.bind_some, hretain, Option.map_some]
  exact ⟨_, s', rfl, hbalanced⟩

/-! ## Checkpoints -/

theorem Balanced.validate (h : s.Balanced) (memoryLimitBytes : ℕ) :
    s.validate memoryLimitBytes = .ok () ↔ s.limitBytes = memoryLimitBytes := by
  have hany : s.items.any (·.sensitive) = false := by
    simpa using h.plain
  rw [MemoryStore.validate, hany, if_neg (Nat.not_lt.mpr h.le_limit)]
  by_cases hlimit : s.limitBytes = memoryLimitBytes <;> simp [hlimit]

/-- The strings that are restored are as long in total as those that were saved. -/
def KeepsLength (s : MemoryStore) : MemoryEvent → Prop
  | .saveAndRestore memoryLimitBytes => s.limitBytes = memoryLimitBytes →
      bytesOf (s.items.map MemoryItem.persisted) = bytesOf s.items
  | _ => True

theorem Balanced.saveAndRestore_ne (h : s.Balanced) {memoryLimitBytes : ℕ}
    (hne : s.limitBytes ≠ memoryLimitBytes) : s.saveAndRestore memoryLimitBytes = s := by
  rw [MemoryStore.saveAndRestore, persistenceSafeCopy]
  cases hvalid : s.validate memoryLimitBytes with
  | error e => rfl
  | ok => exact absurd ((h.validate memoryLimitBytes).mp hvalid) hne

theorem Balanced.saveAndRestore_self (h : s.Balanced) :
    s.saveAndRestore s.limitBytes = s.redactPersistedStrings := by
  have hcopy : s.redactPersistedStrings.validate s.limitBytes = .ok () := by
    have hany : (s.items.map MemoryItem.persisted).any (·.sensitive) = false := by
      simpa [MemoryItem.persisted] using h.plain
    rw [MemoryStore.validate, redactPersistedStrings, hany, if_neg (Nat.not_lt.mpr h.le_limit)]
    simp
  have hsafe : s.persistenceSafeCopy s.limitBytes = .ok s.redactPersistedStrings := by
    rw [persistenceSafeCopy, (h.validate _).mpr rfl]
    change (do s.redactPersistedStrings.validate s.limitBytes; .ok s.redactPersistedStrings :
      Except MemoryError MemoryStore) = _
    rw [hcopy]
    rfl
  rw [MemoryStore.saveAndRestore, hsafe]

theorem Balanced.saveAndRestore_iff (h : s.Balanced) (memoryLimitBytes : ℕ) :
    (s.saveAndRestore memoryLimitBytes).Balanced ↔
    KeepsLength s (.saveAndRestore memoryLimitBytes) := by
  rw [KeepsLength]
  by_cases hlimit : s.limitBytes = memoryLimitBytes
  · subst hlimit
    rw [h.saveAndRestore_self]
    refine ⟨fun hcopy _ ↦ hcopy.total.symm.trans h.total, fun hlength ↦ ⟨?_, h.le_limit, ?_⟩⟩
    · exact h.total.trans (hlength rfl).symm
    · simpa [redactPersistedStrings, MemoryItem.persisted] using h.plain
  · rw [h.saveAndRestore_ne hlimit]
    exact iff_of_true h fun heq ↦ absurd heq hlimit

/-! ## Runs -/

theorem Balanced.step (h : s.Balanced) {e : MemoryEvent} (hkeeps : KeepsLength s e) :
    ∃ s', s.step e = some s' ∧ s'.Balanced := by
  cases e with
  | insert item =>
    obtain ⟨-, r, s', heq, hbalanced⟩ := h.insert item
    exact ⟨s', by rw [MemoryStore.step, heq]; rfl, hbalanced⟩
  | removePrefix pre => exact ⟨_, rfl, h.removePrefix pre⟩
  | compact config =>
    obtain ⟨report, s', heq, hbalanced⟩ := h.compactMemory config
    exact ⟨s', by rw [MemoryStore.step, heq]; rfl, hbalanced⟩
  | saveAndRestore memoryLimitBytes => exact ⟨_, rfl, (h.saveAndRestore_iff _).mpr hkeeps⟩

theorem Balanced.exec (h : s.Balanced) {events : List MemoryEvent}
    (hkeeps : Throughout MemoryStore.step s events KeepsLength) :
    ∃ s', EeEditor.exec MemoryStore.step s events = some s' ∧ s'.Balanced := by
  induction events generalizing s with
  | nil => exact ⟨s, rfl, h⟩
  | cons e events ih =>
    obtain ⟨he, hrest⟩ := throughout_cons_iff.mp hkeeps
    obtain ⟨s₁, hstep, h₁⟩ := h.step he
    obtain ⟨s', hrun, h'⟩ := ih h₁ (hrest s₁ hstep)
    exact ⟨s', by rw [EeEditor.exec, List.foldlM_cons, hstep]; exact hrun, h'⟩

/-- No event of the run panics, and in every state of it the books are right and an insertion is
exact. -/
def KeepsBooks (limitBytes : ℕ) (events : List MemoryEvent) : Prop :=
  ∀ pre post, events = pre ++ post →
    ∃ s, EeEditor.exec MemoryStore.step (new limitBytes) pre = some s ∧ s.Balanced ∧
      ∀ item, InsertExact s item

/-- The books are kept exactly as long as what is restored is as long as what was saved. -/
theorem keepsBooks_iff (limitBytes : ℕ) (events : List MemoryEvent) :
    KeepsBooks limitBytes events ↔ Throughout MemoryStore.step (new limitBytes) events
    KeepsLength := by
  constructor
  · rintro h pre e post t rfl ht
    cases e with
    | saveAndRestore memoryLimitBytes =>
      obtain ⟨s, hs, hbalanced, -⟩ := h pre (.saveAndRestore memoryLimitBytes :: post) rfl
      obtain rfl : s = t := Option.some.inj (hs.symm.trans ht)
      obtain ⟨s', hs', hbalanced', -⟩ :=
        h (pre ++ [.saveAndRestore memoryLimitBytes]) post (by simp)
      rw [exec_concat, hs] at hs'
      obtain rfl : s.saveAndRestore memoryLimitBytes = s' := Option.some.inj hs'
      exact (hbalanced.saveAndRestore_iff memoryLimitBytes).mp hbalanced'
    | _ => trivial
  · rintro h pre post rfl
    obtain ⟨s, hs, hbalanced⟩ := (balanced_new limitBytes).exec h.of_append
    exact ⟨s, hs, hbalanced, fun item ↦ (hbalanced.insert item).1⟩

/-- A key that is redacted when it is saved, and the insertion that evicts after it. -/
def longKey : List MemoryEvent :=
  [.insert ⟨"abcdefghijklmnopqrstuvwxyz0123456789", "v", none, false, .toolOutputUntrusted⟩,
    .saveAndRestore 64, .insert ⟨"k", "the quick brown fox jumps over a lazy dog", none, false,
      .toolOutputUntrusted⟩]

/-- The last insertion evicts the only item and then removes from an empty list. -/
theorem longKey_panics : ¬ ∀ limitBytes events, KeepsBooks limitBytes events := by
  intro h
  obtain ⟨s, hs, -⟩ := h 64 longKey longKey [] (by simp)
  have hnone : EeEditor.exec MemoryStore.step (new 64) longKey = none := by decide +kernel
  rw [hnone] at hs
  cases hs

end MemoryStore

end EeEditor.Orchestrator
