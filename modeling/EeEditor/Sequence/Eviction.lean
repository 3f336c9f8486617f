import Mathlib.Algebra.BigOperators.Group.List.Basic
import Mathlib.Algebra.GroupWithZero.Nat
import Mathlib.Data.List.AList
import Mathlib.Order.Defs.Unbundled

/-!
# Maps with an index in the order of eviction

The entries of a map have keys of an order besides their own ones, and an index lists them in that
order. When room is needed, the first entry of the index is evicted until what is needed fits. What
is evicted is then below all that is kept, and no entry is evicted once there is room
(`EvictsTo.spec`).
-/

namespace EeEditor

variable {κ ν τ : Type*} [DecidableEq κ]

/-! ## The sizes of the entries -/

section

variable {data : AList fun _ : κ ↦ ν} {k : κ} {v : ν}

def entryValues (data : AList fun _ : κ ↦ ν) : List ν := data.entries.map (·.2)

theorem entryValues_perm (h : data.lookup k = some v) :
    (entryValues data).Perm (v :: entryValues (data.erase k)) := by
  have hmem : k ∈ data.entries.keys := AList.lookup_isSome.mp (h ▸ rfl)
  obtain ⟨w, first, rest, hnot, hentries, herase⟩ := List.exists_of_kerase hmem
  obtain rfl : w = v := by
    have hlookup : data.entries.dlookup k = some v := h
    rw [hentries, List.dlookup_append, List.dlookup_eq_none.mpr hnot, Option.none_or,
      List.dlookup_cons_eq] at hlookup
    exact Option.some.inj hlookup
  have hvalues : entryValues (data.erase k) = first.map (·.2) ++ rest.map (·.2) := by
    rw [← List.map_append, ← herase]
    rfl
  rw [hvalues, entryValues, hentries, List.map_append, List.map_cons]
  exact List.perm_middle

theorem length_erase_entry (h : data.lookup k = some v) :
    (data.erase k).entries.length + 1 = data.entries.length := by
  have hlength := (entryValues_perm h).length_eq
  rw [List.length_cons, entryValues, entryValues, List.length_map, List.length_map] at hlength
  exact hlength.symm

theorem entryValues_insert (h : data.lookup k = none) :
    entryValues (data.insert k v) = v :: entryValues data := by
  rw [entryValues, AList.entries_insert_of_notMem (AList.lookup_eq_none.mp h)]
  rfl

theorem erase_insert_entry (h : data.lookup k = none) : (data.insert k v).erase k = data := by
  refine AList.ext ?_
  change List.kerase k (data.insert k v).entries = data.entries
  rw [AList.entries_insert_of_notMem (AList.lookup_eq_none.mp h)]
  exact List.kerase_cons_eq rfl

theorem erase_entry_of_none (h : data.lookup k = none) : data.erase k = data :=
  AList.ext (List.kerase_of_notMem_keys (AList.lookup_eq_none.mp h))

/-- An entry that is inserted takes the place of the one it has the name of. -/
theorem insert_erase_entry : (data.erase k).insert k v = data.insert k v := by
  refine AList.ext ?_
  rw [AList.entries_insert, AList.entries_insert]
  exact congrArg (List.cons (⟨k, v⟩ : (_ : κ) × ν))
    (List.kerase_of_notMem_keys (List.notMem_keys_kerase k data.nodupKeys))

end

section

variable (size : ν → ℕ) (data : AList fun _ : κ ↦ ν)

def totalSize : ℕ := ((entryValues data).map size).sum

/-- The sizes of some of the entries. -/
def sizeWhere (p : ν → Prop) [DecidablePred p] : ℕ :=
  (((entryValues data).filter (p ·)).map size).sum

variable {size data} {k : κ} {v : ν} {p : ν → Prop} [DecidablePred p]

theorem totalSize_eq (h : data.lookup k = some v) :
    totalSize size data = size v + totalSize size (data.erase k) := by
  rw [totalSize, ((entryValues_perm h).map size).sum_eq, List.map_cons, List.sum_cons]
  rfl

theorem totalSize_insert (h : data.lookup k = none) :
    totalSize size (data.insert k v) = size v + totalSize size data := by
  rw [totalSize, entryValues_insert h, List.map_cons, List.sum_cons]
  rfl

theorem totalSize_rekey {v' : ν} (h : data.lookup k = some v) (hsize : size v' = size v) :
    totalSize size data = totalSize size (data.insert k v') := by
  rw [← insert_erase_entry, totalSize_insert (AList.lookup_erase ..), totalSize_eq h, hsize]

theorem sizeWhere_eq (h : data.lookup k = some v) (hp : ¬ p v) :
    sizeWhere size data p = sizeWhere size (data.erase k) p := by
  have hperm := ((entryValues_perm h).filter (p ·)).map size
  rw [List.filter_cons_of_neg (by rwa [decide_eq_true_eq])] at hperm
  exact hperm.sum_eq

theorem sizeWhere_of_forall (h : ∀ k v, data.lookup k = some v → p v) :
    sizeWhere size data p = totalSize size data := by
  have hall : (entryValues data).filter (p ·) = entryValues data := by
    refine List.filter_eq_self.mpr fun v hv ↦ decide_eq_true ?_
    obtain ⟨⟨k, w⟩, hmem, rfl⟩ := List.mem_map.mp hv
    exact h k w (AList.mem_lookup_iff.mpr hmem)
  rw [sizeWhere, hall]
  rfl

end

/-! ## The index -/

/-- The entries of the map in the order of their keys, under their names. -/
structure IsIndex (lt : τ → τ → Prop) (key : ν → τ) (index : List (τ × κ))
    (data : AList fun _ : κ ↦ ν) : Prop where
  sorted : index.Pairwise fun p q ↦ lt p.1 q.1
  mem_iff : ∀ t k, (t, k) ∈ index ↔ ∃ v, data.lookup k = some v ∧ key v = t

namespace IsIndex

variable {lt : τ → τ → Prop} {key : ν → τ} {index index' : List (τ × κ)}
  {data : AList fun _ : κ ↦ ν} {t : τ} {k k' : κ} {v v' : ν}

theorem empty : IsIndex lt key [] (∅ : AList fun _ : κ ↦ ν) :=
  ⟨.nil, fun _ _ ↦ ⟨fun h ↦ absurd h List.not_mem_nil, fun ⟨_, h, _⟩ ↦ nomatch h⟩⟩

variable (h : IsIndex lt key index data)

include h

theorem mem (hv : data.lookup k = some v) : (key v, k) ∈ index :=
  (h.mem_iff _ _).mpr ⟨v, hv, rfl⟩

/-- A map with entries has an index with keys. -/
theorem ne_nil (hne : data.entries ≠ []) : index ≠ [] := by
  rintro rfl
  obtain ⟨⟨k, v⟩, hmem⟩ := List.exists_mem_of_ne_nil _ hne
  exact absurd (h.mem (AList.mem_lookup_iff.mpr hmem)) List.not_mem_nil

theorem name_unique [Std.Irrefl lt] (hk : (t, k) ∈ index) (hk' : (t, k') ∈ index) : k = k' := by
  have hnodup : (index.map (·.1)).Nodup :=
    List.pairwise_map.mpr (h.sorted.imp fun {p q} hlt (heq : p.1 = q.1) ↦
      Std.Irrefl.irrefl (r := lt) q.1 (heq ▸ hlt))
  exact congrArg (·.2) (List.inj_on_of_nodup_map hnodup hk hk' rfl)

/-- An index without the key of an entry. -/
theorem erase [Std.Irrefl lt] (hv : data.lookup k = some v)
    (hsorted : index'.Pairwise fun p q ↦ lt p.1 q.1)
    (hmem : ∀ p, p ∈ index' ↔ p ∈ index ∧ p.1 ≠ key v) :
    IsIndex lt key index' (data.erase k) := by
  refine ⟨hsorted, fun t k' ↦ ?_⟩
  rw [hmem, h.mem_iff]
  by_cases hk : k' = k
  · subst hk
    rw [AList.lookup_erase, hv]
    exact ⟨fun ⟨⟨w, hw, hkey⟩, hne⟩ ↦ absurd (Option.some.inj hw ▸ hkey.symm) hne,
      fun ⟨_, hw, _⟩ ↦ nomatch hw⟩
  · rw [AList.lookup_erase_ne hk]
    refine ⟨fun hw ↦ hw.1, fun ⟨w, hw, hkey⟩ ↦ ⟨⟨w, hw, hkey⟩, fun heq ↦ hk ?_⟩⟩
    have hown : (t, k') ∈ index := (h.mem_iff _ _).mpr ⟨w, hw, hkey⟩
    rw [show t = key v from heq] at hown
    exact h.name_unique hown (h.mem hv)

/-- An index with the key of a new entry. -/
theorem insert (hk : data.lookup k = none) (hsorted : index'.Pairwise fun p q ↦ lt p.1 q.1)
    (hmem : ∀ p, p ∈ index' ↔ p = (key v, k) ∨ p ∈ index) :
    IsIndex lt key index' (data.insert k v) := by
  refine ⟨hsorted, fun t k' ↦ ?_⟩
  rw [hmem, h.mem_iff]
  by_cases hk' : k' = k
  · subst hk'
    rw [AList.lookup_insert, hk]
    constructor
    · rintro (heq | ⟨_, hw, -⟩)
      · exact ⟨v, rfl, (congrArg (·.1) heq).symm⟩
      · cases hw
    · rintro ⟨w, hw, rfl⟩
      rw [← Option.some.inj hw]
      exact .inl rfl
  · rw [AList.lookup_insert_ne hk']
    exact or_iff_right fun heq ↦ hk' (congrArg (·.2) heq)

/-- An index with a new key of an entry. -/
theorem rekey [Std.Irrefl lt] (hv : data.lookup k = some v) {index'' : List (τ × κ)}
    (hsorted : index'.Pairwise fun p q ↦ lt p.1 q.1)
    (hmem : ∀ p, p ∈ index' ↔ p ∈ index ∧ p.1 ≠ key v)
    (hsorted' : index''.Pairwise fun p q ↦ lt p.1 q.1)
    (hmem' : ∀ p, p ∈ index'' ↔ p = (key v', k) ∨ p ∈ index') :
    IsIndex lt key index'' (data.insert k v') := by
  rw [← insert_erase_entry]
  exact (h.erase hv hsorted hmem).insert (AList.lookup_erase ..) hsorted' hmem'

end IsIndex

/-! ## Evicting -/

/-- The first entries of the index are evicted until what is needed fits. -/
inductive EvictsTo (size : ν → ℕ) (needed cap : ℕ) : List (τ × κ) → (AList fun _ : κ ↦ ν) →
    List (τ × κ) → (AList fun _ : κ ↦ ν) → Prop
  | fits {index data} (h : data = ∅ ∨ totalSize size data + needed ≤ cap) :
      EvictsTo size needed cap index data index data
  | next {t k index data index' data'} (h : cap < totalSize size data + needed)
      (rest : EvictsTo size needed cap index (data.erase k) index' data') :
      EvictsTo size needed cap ((t, k) :: index) data index' data'

section

variable {lt : τ → τ → Prop} {key : ν → τ} {index index' : List (τ × κ)}
  {data data' : AList fun _ : κ ↦ ν} {size : ν → ℕ} {needed cap : ℕ} {t : τ} {k : κ} {v : ν}

/-- The first entry of the index. -/
theorem IsIndex.head [Std.Irrefl lt] (h : IsIndex lt key ((t, k) :: index) data) :
    ∃ v, data.lookup k = some v ∧ key v = t ∧ IsIndex lt key index (data.erase k) ∧
      ∀ k' v', (data.erase k).lookup k' = some v' → lt (key v) (key v') := by
  obtain ⟨v, hv, rfl⟩ := (h.mem_iff t k).mp List.mem_cons_self
  obtain ⟨hbelow, hsorted⟩ := List.pairwise_cons.mp h.sorted
  have hrest : IsIndex lt key index (data.erase k) := by
    refine h.erase hv hsorted fun p ↦ ?_
    rw [List.mem_cons]
    refine ⟨fun hp ↦ ⟨.inr hp, fun heq ↦ ?_⟩, fun ⟨hp, hne⟩ ↦ ?_⟩
    · exact Std.Irrefl.irrefl _ (heq ▸ hbelow p hp)
    · exact hp.resolve_left fun heq ↦ hne (congrArg (·.1) heq)
  exact ⟨v, hv, rfl, hrest, fun k' v' hv' ↦ hbelow _ (hrest.mem hv')⟩

/-- The entries that an eviction leaves, against those there were. -/
structure Evicted (lt : τ → τ → Prop) [DecidableRel lt] (key : ν → τ) (size : ν → ℕ)
    (needed cap : ℕ) (data data' : AList fun _ : κ ↦ ν) : Prop where
  kept : ∀ k, data'.lookup k = data.lookup k ∨ data'.lookup k = none
  inOrder : ∀ k v k' v', data.lookup k = some v → data'.lookup k = none →
    data'.lookup k' = some v' → lt (key v) (key v')
  required : ∀ k v, data.lookup k = some v → data'.lookup k = none →
    cap < sizeWhere size data (fun w ↦ ¬ lt (key w) (key v)) + needed
  room : data' = ∅ ∨ totalSize size data' + needed ≤ cap

theorem EvictsTo.spec [Std.Irrefl lt] [Std.Asymm lt] [DecidableRel lt]
    (hstep : EvictsTo size needed cap index data index' data') (h : IsIndex lt key index data) :
    IsIndex lt key index' data' ∧ Evicted lt key size needed cap data data' := by
  induction hstep with
  | fits hroom =>
    refine ⟨h, fun _ ↦ .inl rfl, fun k v _ _ hv hnone ↦ ?_, fun k v hv hnone ↦ ?_, hroom⟩ <;>
      exact absurd (hv.symm.trans hnone) nofun
  | @next t k index data index' data' hfull _ ih =>
    obtain ⟨v, hv, rfl, hrest, hbelow⟩ := h.head
    obtain ⟨hindex, hkept, horder, hrequired, hroom⟩ := ih hrest
    have hgone : data'.lookup k = none := by
      rcases hkept k with hk | hk
      · rwa [AList.lookup_erase] at hk
      · exact hk
    refine ⟨hindex, fun k' ↦ ?_, fun k₁ v₁ k₂ v₂ hv₁ hnone hv₂ ↦ ?_, fun k₁ v₁ hv₁ hnone ↦ ?_,
      hroom⟩
    · by_cases hk : k' = k
      · exact .inr (hk ▸ hgone)
      · have hk' := hkept k'
        rwa [AList.lookup_erase_ne hk] at hk'
    · by_cases hk : k₁ = k
      · subst hk
        obtain rfl := Option.some.inj (hv.symm.trans hv₁)
        refine hbelow k₂ v₂ ?_
        rcases hkept k₂ with hk₂ | hk₂ <;> rw [hv₂] at hk₂
        · exact hk₂.symm
        · cases hk₂
      · exact horder k₁ v₁ k₂ v₂ ((AList.lookup_erase_ne hk).trans hv₁) hnone hv₂
    · by_cases hk : k₁ = k
      · -- the first entry: all others are above it
        subst hk
        obtain rfl := Option.some.inj (hv.symm.trans hv₁)
        rwa [sizeWhere_of_forall]
        intro k' v' hv' hlt
        by_cases hk' : k' = k₁
        · subst hk'
          obtain rfl := Option.some.inj (hv.symm.trans hv')
          exact Std.Irrefl.irrefl _ hlt
        · exact Std.Asymm.asymm _ _ hlt (hbelow k' v' ((AList.lookup_erase_ne hk').trans hv'))
      · have hv₁' := (AList.lookup_erase_ne hk).trans hv₁
        rw [sizeWhere_eq hv (not_not_intro (hbelow k₁ v₁ hv₁'))]
        exact hrequired k₁ v₁ hv₁' hnone

end

end EeEditor
