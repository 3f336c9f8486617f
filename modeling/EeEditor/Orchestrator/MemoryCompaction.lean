import EeEditor.Orchestrator.MemoryBooks

/-!
# What a compaction removes

The two passes of a compaction share the flags of the items. The contract says which flags each of
them leaves: an item is merged into the newest one of its key, and the decay counts the bytes of the
items that the merge has left. The code compares an item with the next one of its key, whose
provenance has taken the place of the newest one's, and its decay counts the bytes of all items.
-/

namespace EeEditor.Orchestrator

/-! ## Flags -/

section Flags

variable {α : Type*} {p q : α → List α → Bool}

/-- The flags of the items, each from the item and the ones behind it, where `rest` ends the
list. -/
def flagsBy (flag : α → List α → Bool) (rest : List α) : List α → List Bool
  | [] => []
  | item :: later => flag item (later ++ rest) :: flagsBy flag rest later

theorem length_flagsBy (flag : α → List α → Bool) (rest items : List α) :
    (flagsBy flag rest items).length = items.length := by
  induction items with
  | nil => rfl
  | cons item later ih => exact congrArg (· + 1) ih

theorem flagsBy_concat (flag : α → List α → Bool) (rest items : List α) (item : α) :
    flagsBy flag rest (items ++ [item]) = flagsBy flag (item :: rest)
    items ++ [flag item rest] := by
  induction items with
  | nil => rfl
  | cons first items ih =>
    rw [List.cons_append, flagsBy, flagsBy, ih, List.append_assoc, List.singleton_append]
    rfl

/-- A property of every way to split the items is one of the first split and of those of the
rest. -/
theorem forall_split_cons {Q : List α → α → List α → Prop} {first : α} {items : List α} :
    (∀ before item after, first :: items = before ++ item :: after → Q before item after) ↔
      Q [] first items ∧
        ∀ before item after, items = before ++ item :: after → Q (first :: before) item after := by
  refine ⟨fun h ↦ ⟨h [] first items rfl, fun before item after hsplit ↦ ?_⟩, fun h ↦ ?_⟩
  · exact h (first :: before) item after (by rw [hsplit, List.cons_append])
  · rintro (_ | ⟨other, before⟩) item after hsplit
    · obtain ⟨rfl, rfl⟩ := List.cons_eq_cons.mp hsplit
      exact h.1
    · obtain ⟨rfl, hrest⟩ := List.cons_eq_cons.mp hsplit
      exact h.2 before item after hrest

theorem flagsBy_eq_iff {rest items : List α} :
    flagsBy p rest items = flagsBy q rest items ↔
      ∀ before item after, items = before ++ item :: after →
        p item (after ++ rest) = q item (after ++ rest) := by
  induction items with
  | nil => exact iff_of_true rfl (by simp)
  | cons first items ih =>
    rw [forall_split_cons (Q := fun _ item after ↦ p item (after ++ rest) = q item (after ++ rest)),
      flagsBy, flagsBy, List.cons_eq_cons, ih]

/-- The items whose flag is set. -/
def selected (flagged : List (α × Bool)) : List α := (flagged.filter (·.2)).map (·.1)

theorem selected_cons_true (item : α) (flagged : List (α × Bool)) :
    selected ((item, true) :: flagged) = item :: selected flagged := rfl

theorem selected_cons_false (item : α) (flagged : List (α × Bool)) :
    selected ((item, false) :: flagged) = selected flagged := rfl

theorem selected_sublist (flagged : List (α × Bool)) :
    (selected flagged).Sublist (flagged.map (·.1)) := List.filter_sublist.map _

theorem length_selected (flagged : List (α × Bool)) :
    (selected flagged).length = (flagged.map (·.2)).count true := by
  rw [selected, List.length_map, List.count, List.countP_map, List.countP_eq_length_filter]
  exact congrArg List.length (List.filter_congr (by simp))

end Flags

namespace MemoryStore

variable {s : MemoryStore} {config : CompactionConfig} {items : List MemoryItem}
  {pressureBytes total : ℕ} {lowValuePrefix : String} {flagged : List (MemoryItem × Bool)}

/-! ## The contract -/

def provenance (item : MemoryItem) : Provenance := (item.sourceTask, item.trust)

/-- The provenance of the newest of the items with the key. -/
def newestOf (key : String) (items : List MemoryItem) : Option Provenance :=
  (items.reverse.find? (·.key = key)).map provenance

/-- An item is merged away into the newest one of its key. -/
def mergesAway (item : MemoryItem) (newer : List MemoryItem) : Bool :=
  !isProtectedKey item.key && newestOf item.key newer = some (provenance item)

def isLowValue (lowValuePrefix : String) (item : MemoryItem) : Bool :=
  lowValuePrefix.toList.isPrefixOf item.key.toList && !isProtectedKey item.key

/-- The flags after a decay that takes an item of low value while the items that are still kept, of
which the earlier ones have `earlier` bytes, are too long. -/
@[grind =] def decayed (pressureBytes : ℕ) (lowValuePrefix : String) :
    List (MemoryItem × Bool) → (earlier : ℕ) → List Bool
  | [], _ => []
  | (item, keep) :: later, earlier =>
    let stays := keep && !(isLowValue lowValuePrefix item &&
      pressureBytes < earlier + bytesOf (selected ((item, keep) :: later)))
    stays :: decayed pressureBytes lowValuePrefix later
      (earlier + if stays then item.byteSize else 0)

@[grind =] def keptAfterMerge (self : MemoryStore) (config : CompactionConfig) : List Bool :=
  if config.mergeDuplicates then flagsBy (fun item newer ↦ !mergesAway item newer) [] self.items
  else self.items.map fun _ ↦ true

@[grind =] def keptAfterDecay (self : MemoryStore) (config : CompactionConfig) : List Bool :=
  match config.pressureBytes self.limitBytes with
  | some pressureBytes =>
    decayed pressureBytes config.lowValuePrefix (self.items.zip (self.keptAfterMerge config)) 0
  | none => self.keptAfterMerge config

/-- The items that a merge leaves. -/
@[grind =] def merged (self : MemoryStore) (config : CompactionConfig) : List MemoryItem :=
  selected (self.items.zip (self.keptAfterMerge config))

/-- The store and the report of a compaction that keeps to its contract. -/
structure Compacted (s : MemoryStore) (config : CompactionConfig) (report : CompactionReport)
    (s' : MemoryStore) : Prop where
  items : s'.items = selected (s.items.zip (s.keptAfterDecay config))
  order : s'.items.Sublist s.items
  keepsProtected :
    s'.items.filter (isProtectedKey ·.key) = s.items.filter (isProtectedKey ·.key)
  fits : ∀ pressureBytes, config.pressureBytes s.limitBytes = some pressureBytes →
    bytesOf (s.merged config) ≤ pressureBytes → s'.items = s.merged config
  limitBytes : s'.limitBytes = s.limitBytes
  totalBytes : s'.totalBytes = bytesOf s'.items
  mergedDuplicates : report.mergedDuplicates = s.items.length - (s.merged config).length
  decayedObservations : report.decayedObservations = (s.merged config).length - s'.items.length
  preservedProtected : report.preservedProtected = s.items.countP (isProtectedKey ·.key)
  itemsBefore : report.itemsBefore = s.items.length
  itemsAfter : report.itemsAfter = s'.items.length
  bytesBefore : report.bytesBefore = bytesOf s.items
  bytesAfter : report.bytesAfter = bytesOf s'.items

/-- Each of the passes leaves the flags of the contract, and so do the store and the report. -/
def CompactsExactly (s : MemoryStore) (config : CompactionConfig) : Prop :=
  (s.mergeDuplicates config).1 = s.keptAfterMerge config ∧
  (∃ decays, s.decayObservations config (s.keptAfterMerge config) =
    some (s.keptAfterDecay config, decays)) ∧
  ∃ report s', s.compactMemory config = some (report, s') ∧ Compacted s config report s'

/-! ## The merge -/

/-- What the code compares an item with: the next item of its key. -/
def nextOf (key : String) (items : List MemoryItem) : Option Provenance :=
  (items.find? (·.key = key)).map provenance

def mergesIntoNext (item : MemoryItem) (newer : List MemoryItem) : Bool :=
  !isProtectedKey item.key && nextOf item.key newer = some (provenance item)

theorem nextOf_cons_self (item : MemoryItem) (newer : List MemoryItem) :
    nextOf item.key (item :: newer) = some (provenance item) := by
  rw [nextOf, List.find?_cons_of_pos (by simp)]
  rfl

theorem nextOf_cons_of_ne {item : MemoryItem} {key : String} (h : item.key ≠ key)
    (newer : List MemoryItem) : nextOf key (item :: newer) = nextOf key newer := by
  rw [nextOf, List.find?_cons_of_neg (by simpa using h)]
  rfl

/-- By induction on the items that remain, from the newest one on. For every key that is not
protected the map holds what the next item of the key says, merged away or not. -/
theorem mergeFlags_eq (older newer : List MemoryItem) (newest : String → Option Provenance)
    (hnewest : ∀ key, isProtectedKey key = false → newest key = nextOf key newer) :
    (mergeFlags newest older).1.reverse =
      flagsBy (fun item newer ↦ !mergesIntoNext item newer) newer older.reverse := by
  induction older generalizing newer newest with
  | nil => rfl
  | cons item older ih =>
    rw [mergeFlags, List.reverse_cons, flagsBy_concat]
    cases hprotected : isProtectedKey item.key with
    | true =>
      rw [if_pos rfl, List.reverse_cons, ih (item :: newer) newest, mergesIntoNext, hprotected]
      · rfl
      · intro key hkey
        rw [hnewest key hkey, nextOf_cons_of_ne]
        rintro rfl
        rw [hkey] at hprotected
        cases hprotected
    | false =>
      rw [if_neg Bool.false_ne_true, hnewest item.key hprotected]
      by_cases hmerges : nextOf item.key newer = some (item.sourceTask, item.trust)
      · rw [if_pos hmerges, List.reverse_cons, ih (item :: newer) newest, mergesIntoNext,
          hprotected, hmerges]
        · simp [provenance]
        · intro key hkey
          by_cases heq : item.key = key
          · subst heq
            rw [hnewest _ hkey, hmerges, nextOf_cons_self]
            rfl
          · rw [hnewest key hkey, nextOf_cons_of_ne heq]
      · rw [if_neg hmerges, List.reverse_cons, ih (item :: newer) _, mergesIntoNext, hprotected]
        · simp [provenance, hmerges]
        · intro key hkey
          by_cases heq : item.key = key
          · subst heq
            rw [Function.update_self, nextOf_cons_self]
            rfl
          · rw [Function.update_of_ne (Ne.symm heq), hnewest key hkey, nextOf_cons_of_ne heq]

theorem count_mergeFlags (newest : String → Option Provenance) (items : List MemoryItem) :
    (mergeFlags newest items).1.count true + (mergeFlags newest items).2 = items.length := by
  induction items generalizing newest with
  | nil => rfl
  | cons item older ih =>
    rw [mergeFlags]
    split
    · have hrest := ih newest
      simp only [List.count_cons_self, List.length_cons]
      omega
    · split
      · have hrest := ih newest
        simp only [List.count_cons_of_ne Bool.false_ne_true, List.length_cons]
        omega
      · have hrest := ih (Function.update newest item.key (some (item.sourceTask, item.trust)))
        simp only [List.count_cons_self, List.length_cons]
        omega

theorem mergeDuplicates_eq (s : MemoryStore) (config : CompactionConfig) :
    (s.mergeDuplicates config).1 =
      if config.mergeDuplicates then flagsBy (fun item newer ↦ !mergesIntoNext item newer) []
        s.items
      else s.items.map fun _ ↦ true := by
  rw [mergeDuplicates]
  split
  · have hflags := mergeFlags_eq s.items.reverse [] (fun _ ↦ none) fun _ _ ↦ rfl
    rwa [List.reverse_reverse] at hflags
  · rfl

theorem count_mergeDuplicates (s : MemoryStore) (config : CompactionConfig) :
    (s.mergeDuplicates config).1.count true + (s.mergeDuplicates config).2 = s.items.length := by
  rw [mergeDuplicates]
  split
  · have hcount := count_mergeFlags (fun _ ↦ none) s.items.reverse
    rwa [List.length_reverse, ← List.count_reverse] at hcount
  · rw [List.map_const', List.count_replicate_self, Nat.add_zero]

/-- Each item that may be merged agrees with the next item of its key when it agrees with the newest
one, and only then. -/
def NextIsNewest (items : List MemoryItem) : Prop :=
  ∀ older item newer, items = older ++ item :: newer → isProtectedKey item.key = false →
    (nextOf item.key newer = some (provenance item) ↔
      newestOf item.key newer = some (provenance item))

theorem mergeDuplicates_eq_iff :
    (s.mergeDuplicates config).1 = s.keptAfterMerge config ↔
      (config.mergeDuplicates = true → NextIsNewest s.items) := by
  rw [mergeDuplicates_eq, keptAfterMerge]
  cases config.mergeDuplicates with
  | false => exact iff_of_true rfl nofun
  | true =>
    rw [if_pos rfl, if_pos rfl, flagsBy_eq_iff, NextIsNewest, imp_iff_right rfl]
    refine forall₄_congr fun older item newer _ ↦ ?_
    rw [List.append_nil, mergesIntoNext, mergesAway]
    cases isProtectedKey item.key <;> simp

theorem length_keptAfterMerge (s : MemoryStore) (config : CompactionConfig) :
    (s.keptAfterMerge config).length = s.items.length := by
  rw [keptAfterMerge]
  split
  · exact length_flagsBy _ _ _
  · exact List.length_map _

/-! ## The decay -/

/-- The bytes of the items of low value. -/
def lowValueBytes (lowValuePrefix : String) (items : List MemoryItem) : ℕ :=
  bytesOf (items.filter (isLowValue lowValuePrefix))

/-- The flags after a decay that takes the items of low value until so many bytes are gone that of
`total` bytes no more than `pressureBytes` remain. -/
@[grind =] def decayedFrom (total pressureBytes : ℕ) (lowValuePrefix : String) :
    List (MemoryItem × Bool) → (gone : ℕ) → List Bool
  | [], _ => []
  | (item, keep) :: later, gone =>
    (keep && !(isLowValue lowValuePrefix item && pressureBytes + gone < total)) ::
      decayedFrom total pressureBytes lowValuePrefix later
        (gone + if keep && isLowValue lowValuePrefix item then item.byteSize else 0)

theorem decayedFrom_eq_of_le (flagged : List (MemoryItem × Bool)) {gone : ℕ}
    (h : total ≤ pressureBytes + gone) :
    decayedFrom total pressureBytes lowValuePrefix flagged gone = flagged.map (·.2) := by
  induction flagged generalizing gone with
  | nil => rfl
  | cons first later ih =>
    obtain ⟨item, keep⟩ := first
    rw [decayedFrom, ih (h.trans (by rw [← Nat.add_assoc]; exact Nat.le_add_right _ _)),
      decide_eq_false (Nat.not_lt.mpr h)]
    simp

theorem decayed_eq_of_le (flagged : List (MemoryItem × Bool)) {earlier : ℕ}
    (h : earlier + bytesOf (selected flagged) ≤ pressureBytes) :
    decayed pressureBytes lowValuePrefix flagged earlier = flagged.map (·.2) := by
  induction flagged generalizing earlier with
  | nil => rfl
  | cons first later ih =>
    obtain ⟨item, keep⟩ := first
    rw [decayed, decide_eq_false (Nat.not_lt.mpr h)]
    cases keep with
    | false => simpa using ih h
    | true =>
      rw [selected_cons_true, bytesOf_cons, ← Nat.add_assoc] at h
      simpa using ih h

/-- By induction on the items: as long as the decay goes on, the bytes that are kept and those that
are gone are all bytes that the merge has left. -/
theorem decayed_eq (flagged : List (MemoryItem × Bool)) {earlier gone : ℕ}
    (htotal : earlier + bytesOf (selected flagged) + gone = total) :
    decayed pressureBytes lowValuePrefix flagged earlier =
      decayedFrom total pressureBytes lowValuePrefix flagged gone := by
  by_cases hfits : earlier + bytesOf (selected flagged) ≤ pressureBytes
  · rw [decayed_eq_of_le flagged hfits, decayedFrom_eq_of_le flagged (by omega)]
  induction flagged generalizing earlier gone with
  | nil => rfl
  | cons first later ih =>
    obtain ⟨item, keep⟩ := first
    rw [decayed, decayedFrom, decide_eq_true (Nat.not_le.mp hfits),
      decide_eq_true (show pressureBytes + gone < total by omega)]
    have hrest : ∀ {earlier' gone' : ℕ}, earlier' + bytesOf (selected later) + gone' = total →
        decayed pressureBytes lowValuePrefix later earlier' =
          decayedFrom total pressureBytes lowValuePrefix later gone' := by
      intro earlier' gone' htotal'
      by_cases hfits' : earlier' + bytesOf (selected later) ≤ pressureBytes
      · rw [decayed_eq_of_le later hfits', decayedFrom_eq_of_le later (by omega)]
      · exact ih htotal' hfits'
    cases keep with
    | false =>
      rw [selected_cons_false] at htotal
      exact congrArg _ (hrest htotal)
    | true =>
      rw [selected_cons_true, bytesOf_cons] at htotal
      cases hlow : isLowValue lowValuePrefix item with
      | false =>
        rw [← Nat.add_assoc] at htotal
        exact congrArg _ (hrest htotal)
      | true =>
        rw [Nat.add_comm item.byteSize, ← Nat.add_assoc, Nat.add_assoc _ item.byteSize,
          Nat.add_comm item.byteSize] at htotal
        exact congrArg _ (hrest htotal)

/-- The code counts down from a total that is at least as long as what it may take. -/
theorem decayFlags_eq (pressureBytes : ℕ) (lowValuePrefix : String)
    (flagged : List (MemoryItem × Bool)) {bytes gone : ℕ}
    (hbytes : bytesOf (selected flagged) ≤ bytes) (htotal : bytes + gone = total) :
    ∃ decays, decayFlags pressureBytes lowValuePrefix flagged bytes =
        some (decayedFrom total pressureBytes lowValuePrefix flagged gone, decays) ∧
      ((decayedFrom total pressureBytes lowValuePrefix flagged gone).count true + decays =
        (flagged.map (·.2)).count true) := by
  induction flagged generalizing bytes gone with
  | nil => exact ⟨0, rfl, rfl⟩
  | cons first later ih =>
    obtain ⟨item, keep⟩ := first
    by_cases hfits : bytes ≤ pressureBytes
    · rw [decayFlags, if_pos hfits, decayedFrom_eq_of_le _ (by omega)]
      exact ⟨0, rfl, rfl⟩
    rw [decayFlags, if_neg hfits, decayedFrom,
      decide_eq_true (show pressureBytes + gone < total by omega), Bool.and_assoc, ← isLowValue]
    cases keep with
    | false =>
      obtain ⟨decays, heq, hcount⟩ := ih hbytes htotal
      rw [Bool.false_and, if_neg Bool.false_ne_true, heq]
      exact ⟨decays, rfl, by simpa using hcount⟩
    | true =>
      rw [selected_cons_true, bytesOf_cons] at hbytes
      cases hlow : isLowValue lowValuePrefix item with
      | false =>
        obtain ⟨decays, heq, hcount⟩ := ih (le_of_add_le_right hbytes) htotal
        rw [Bool.true_and, if_neg Bool.false_ne_true, heq]
        refine ⟨decays, rfl, ?_⟩
        simp only [Bool.true_and, Bool.false_and, Bool.not_false, Bool.false_eq_true, ↓reduceIte,
          List.map_cons, List.count_cons_self, Nat.add_zero]
        omega
      | true =>
        have hless : bytesOf (selected later) ≤ bytes - item.byteSize := by omega
        have hsum : bytes - item.byteSize + (gone + item.byteSize) = total := by omega
        obtain ⟨decays, heq, hcount⟩ := ih hless hsum
        rw [Bool.true_and, if_pos rfl, if_neg (by omega), heq]
        refine ⟨decays + 1, rfl, ?_⟩
        simp only [Bool.true_and, Bool.not_true, ↓reduceIte, List.map_cons, List.count_cons_self,
          List.count_cons_of_ne Bool.false_ne_true]
        omega

/-- By induction on the items, where `gone` counts the bytes of low value before them. -/
theorem decayedFrom_eq_iff (flagged : List (MemoryItem × Bool)) {total' gone : ℕ} :
    decayedFrom total pressureBytes lowValuePrefix flagged gone =
        decayedFrom total' pressureBytes lowValuePrefix flagged gone ↔
      ∀ before item after, selected flagged = before ++ item :: after →
        isLowValue lowValuePrefix item = true →
        (pressureBytes + (gone + lowValueBytes lowValuePrefix before) < total ↔
          pressureBytes + (gone + lowValueBytes lowValuePrefix before) < total') := by
  induction flagged generalizing gone with
  | nil => exact iff_of_true rfl (by simp [selected])
  | cons first later ih =>
    obtain ⟨item, keep⟩ := first
    rw [decayedFrom, decayedFrom, List.cons_eq_cons, ih]
    cases keep with
    | false => simp [selected_cons_false]
    | true =>
      rw [selected_cons_true, forall_split_cons (Q := fun before item _ ↦
        isLowValue lowValuePrefix item = true →
        (pressureBytes + (gone + lowValueBytes lowValuePrefix before) < total ↔
          pressureBytes + (gone + lowValueBytes lowValuePrefix before) < total'))]
      refine and_congr ?_ ?_
      · cases isLowValue lowValuePrefix item <;> simp [lowValueBytes, bytesOf_nil]
      · refine forall₄_congr fun before other after _ ↦ ?_
        cases hlow : isLowValue lowValuePrefix item with
        | false => simp [lowValueBytes, hlow]
        | true => simp [lowValueBytes, hlow, bytesOf_cons, Nat.add_assoc]

/-- No item of low value is where the decay of the items would go on and that of the merged ones
would stop. -/
def StopsInTime (pressureBytes : ℕ) (lowValuePrefix : String) (items merged : List MemoryItem) :
    Prop :=
  ∀ before item after, merged = before ++ item :: after → isLowValue lowValuePrefix item = true →
    (pressureBytes + lowValueBytes lowValuePrefix before < bytesOf items ↔
      pressureBytes + lowValueBytes lowValuePrefix before < bytesOf merged)

theorem bytesOf_merged_le (s : MemoryStore) (config : CompactionConfig) :
    bytesOf (s.merged config) ≤ bytesOf s.items := by
  have hsub := selected_sublist (s.items.zip (s.keptAfterMerge config))
  rw [List.map_fst_zip (length_keptAfterMerge s config).ge] at hsub
  exact bytesOf_le hsub

/-- What the decay of a store makes of the flags of the merge, as long as the total is right. -/
theorem decayObservations_spec (config : CompactionConfig)
    (htotal : s.totalBytes = bytesOf s.items) :
    ∃ flags decays,
      s.decayObservations config (s.keptAfterMerge config) = some (flags, decays) ∧
      flags.count true + decays = (s.keptAfterMerge config).count true ∧
      (flags = s.keptAfterDecay config ↔
        ∀ pressureBytes, config.pressureBytes s.limitBytes = some pressureBytes →
          StopsInTime pressureBytes config.lowValuePrefix s.items (s.merged config)) := by
  rw [decayObservations, keptAfterDecay]
  cases hpressure : config.pressureBytes s.limitBytes with
  | none => exact ⟨_, 0, rfl, rfl, iff_of_true rfl fun pressureBytes h ↦ by cases h⟩
  | some pressureBytes =>
    obtain ⟨decays, heq, hcount⟩ :=
      decayFlags_eq pressureBytes config.lowValuePrefix
        (s.items.zip (s.keptAfterMerge config)) (htotal ▸ bytesOf_merged_le s config)
        (Nat.add_zero s.totalBytes)
    rw [List.map_snd_zip (length_keptAfterMerge s config).le] at hcount
    refine ⟨_, decays, heq, hcount, ?_⟩
    have hmerged : 0 + bytesOf (s.merged config) + 0 = bytesOf (s.merged config) := Nat.zero_add _
    dsimp only
    rw [decayed_eq _ hmerged, decayedFrom_eq_iff, htotal]
    simp only [Nat.zero_add, Option.some.injEq, forall_eq', StopsInTime]
    rfl

theorem length_decayed (pressureBytes : ℕ) (lowValuePrefix : String)
    (flagged : List (MemoryItem × Bool)) (earlier : ℕ) :
    (decayed pressureBytes lowValuePrefix flagged earlier).length = flagged.length := by
  induction flagged generalizing earlier with
  | nil => rfl
  | cons first later ih => exact congrArg (· + 1) (ih _)

theorem length_keptAfterDecay (s : MemoryStore) (config : CompactionConfig) :
    (s.keptAfterDecay config).length = s.items.length := by
  rw [keptAfterDecay]
  split
  · rw [length_decayed, List.length_zip, length_keptAfterMerge, Nat.min_self]
  · exact length_keptAfterMerge s config

/-! ## Protected items -/

/-- No item under a protected prefix is flagged to go. -/
def KeepsProtected (flagged : List (MemoryItem × Bool)) : Prop :=
  ∀ entry ∈ flagged, isProtectedKey entry.1.key = true → entry.2 = true

theorem KeepsProtected.filter_selected (h : KeepsProtected flagged) :
    (selected flagged).filter (isProtectedKey ·.key) =
      (flagged.map (·.1)).filter (isProtectedKey ·.key) := by
  induction flagged with
  | nil => rfl
  | cons first flagged ih =>
    obtain ⟨item, keep⟩ := first
    have hrest := ih fun entry hentry ↦ h entry (List.mem_cons_of_mem _ hentry)
    rw [List.map_cons, List.filter_cons, ← hrest]
    cases hprotected : isProtectedKey item.key with
    | true =>
      obtain rfl : keep = true := h _ List.mem_cons_self hprotected
      rw [selected_cons_true, List.filter_cons, hprotected]
    | false =>
      cases keep with
      | true =>
        rw [selected_cons_true, List.filter_cons, hprotected]
      | false => rfl

theorem keepsProtected_flagsBy (rest items : List MemoryItem) :
    KeepsProtected (items.zip (flagsBy (fun item newer ↦ !mergesAway item newer) rest items)) := by
  induction items with
  | nil => exact nofun
  | cons item newer ih =>
    intro entry hentry hprotected
    rcases List.mem_cons.mp hentry with rfl | hentry
    · change (!mergesAway item (newer ++ rest)) = true
      rw [mergesAway, hprotected]
      rfl
    · exact ih entry hentry hprotected

theorem keepsProtected_merge (s : MemoryStore) (config : CompactionConfig) :
    KeepsProtected (s.items.zip (s.keptAfterMerge config)) := by
  rw [keptAfterMerge]
  split
  · exact keepsProtected_flagsBy [] s.items
  · intro entry hentry _
    obtain ⟨_, -, hkeep⟩ := List.mem_map.mp (List.of_mem_zip hentry).2
    exact hkeep.symm

theorem KeepsProtected.decayed (h : KeepsProtected flagged) (pressureBytes : ℕ)
    (lowValuePrefix : String) (earlier : ℕ) :
    KeepsProtected ((flagged.map (·.1)).zip
      (decayed pressureBytes lowValuePrefix flagged earlier)) := by
  induction flagged generalizing earlier with
  | nil => exact nofun
  | cons first later ih =>
    obtain ⟨item, keep⟩ := first
    intro entry hentry hprotected
    rcases List.mem_cons.mp hentry with rfl | hentry
    · obtain rfl : keep = true := h _ List.mem_cons_self hprotected
      rw [isLowValue, hprotected]
      simp
    · exact ih (fun entry hentry ↦ h entry (List.mem_cons_of_mem _ hentry)) _ entry hentry
        hprotected

theorem keepsProtected_decay (s : MemoryStore) (config : CompactionConfig) :
    KeepsProtected (s.items.zip (s.keptAfterDecay config)) := by
  rw [keptAfterDecay]
  split
  · have hdecayed := (keepsProtected_merge s config).decayed ‹ℕ› config.lowValuePrefix 0
    rwa [List.map_fst_zip (length_keptAfterMerge s config).ge] at hdecayed
  · exact keepsProtected_merge s config

/-! ## The compaction -/

theorem keptAfterDecay_of_fits (h : config.pressureBytes s.limitBytes = some pressureBytes)
    (hfits : bytesOf (s.merged config) ≤ pressureBytes) :
    s.keptAfterDecay config = s.keptAfterMerge config := by
  rw [keptAfterDecay, h]
  dsimp only
  rw [decayed_eq_of_le _ (by rwa [Nat.zero_add]),
    List.map_snd_zip (length_keptAfterMerge s config).le]

theorem compactMemory_eq {decays : ℕ}
    (hmerge : (s.mergeDuplicates config).1 = s.keptAfterMerge config)
    (hdecay : s.decayObservations config (s.keptAfterMerge config) =
      some (s.keptAfterDecay config, decays)) :
    s.compactMemory config =
      some (⟨(s.mergeDuplicates config).2, decays, s.items.countP (isProtectedKey ·.key),
          s.items.length,
          s.items.length - (s.items.length -
            (selected (s.items.zip (s.keptAfterDecay config))).length),
          s.totalBytes, bytesOf (selected (s.items.zip (s.keptAfterDecay config)))⟩,
        { s with
          totalBytes := bytesOf (selected (s.items.zip (s.keptAfterDecay config)))
          items := selected (s.items.zip (s.keptAfterDecay config)) }) := by
  rw [compactMemory]
  simp only [hmerge, hdecay, Option.bind_some, retain,
    if_neg (length_keptAfterDecay s config).not_lt, Option.map_some]
  rfl

/-- The passes keep to the contract exactly when the total is right, the next item of a key speaks
for the newest one and the decay of all items stops where that of the merged ones does. -/
theorem compactsExactly_iff (s : MemoryStore) (config : CompactionConfig) :
    CompactsExactly s config ↔
      s.totalBytes = bytesOf s.items ∧
      (config.mergeDuplicates = true → NextIsNewest s.items) ∧
      ∀ pressureBytes, config.pressureBytes s.limitBytes = some pressureBytes →
        StopsInTime pressureBytes config.lowValuePrefix s.items (s.merged config) := by
  constructor
  · rintro ⟨hmerge, ⟨decays, hdecay⟩, report, s', hcompact, hcompacted⟩
    have htotal : s.totalBytes = bytesOf s.items := by
      rw [compactMemory_eq hmerge hdecay] at hcompact
      obtain ⟨rfl, rfl⟩ := Prod.mk.inj (Option.some.inj hcompact)
      exact hcompacted.bytesBefore
    refine ⟨htotal, mergeDuplicates_eq_iff.mp hmerge, ?_⟩
    obtain ⟨flags, decays', hdecay', -, hiff⟩ := decayObservations_spec config htotal
    exact hiff.mp (Prod.mk.inj (Option.some.inj (hdecay'.symm.trans hdecay))).1
  · rintro ⟨htotal, hnext, hstops⟩
    have hmerge := mergeDuplicates_eq_iff.mpr hnext
    obtain ⟨flags, decays, hdecay, hcount, hiff⟩ := decayObservations_spec config htotal
    obtain rfl := hiff.mpr hstops
    refine ⟨hmerge, ⟨decays, hdecay⟩, _, _, compactMemory_eq hmerge hdecay, ?_⟩
    have hfst := List.map_fst_zip (length_keptAfterDecay s config).ge
    have hsub := selected_sublist (s.items.zip (s.keptAfterDecay config))
    have hlength := length_selected (s.items.zip (s.keptAfterDecay config))
    have hmerged : (s.merged config).length = (s.keptAfterMerge config).count true := by
      rw [merged, length_selected, List.map_snd_zip (length_keptAfterMerge s config).le]
    rw [hfst] at hsub
    rw [List.map_snd_zip (length_keptAfterDecay s config).le] at hlength
    have hmerges := count_mergeDuplicates s config
    rw [hmerge] at hmerges
    exact
      { items := rfl
        order := hsub
        keepsProtected := by rw [(keepsProtected_decay s config).filter_selected, hfst]
        fits := fun _ hpressure hfits ↦ by rw [keptAfterDecay_of_fits hpressure hfits, merged]
        limitBytes := rfl
        totalBytes := rfl
        mergedDuplicates := by dsimp only; omega
        decayedObservations := by dsimp only; omega
        preservedProtected := rfl
        itemsBefore := rfl
        itemsAfter := Nat.sub_sub_self hsub.length_le
        bytesBefore := htotal
        bytesAfter := rfl }

/-- Three notes with one key, of which the second one comes from another task. -/
def threeNotes : MemoryStore :=
  ⟨64, 15, [⟨"note", "1", some "a", false, .modelOutput⟩,
    ⟨"note", "2", some "b", false, .modelOutput⟩,
    ⟨"note", "3", some "a", false, .modelOutput⟩]⟩

/-- The oldest note is like the newest one, and stays. -/
theorem threeNotes_stay : ¬ ∀ s config, CompactsExactly s config := by
  intro h
  have hflags := (h threeNotes ⟨fun _ ↦ none, "obs:", true⟩).1
  exact absurd hflags (by decide)

end MemoryStore

end EeEditor.Orchestrator
