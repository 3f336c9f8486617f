import Mathlib.Data.List.FinRange
import EeEditor.Engine.Basic
import EeEditor.Engine.Walk
import EeEditor.Rope.Label
import EeEditor.Rope.RoundTrips

/-!
# Engines that represent a ledger

`Engine.Represents e g` ties the fields of an engine to a ledger. Looking up old revisions only
reads the ledger: the contents of a revision are the atoms known to it that the walk backwards
leaves undeleted.

## Shuffles

`shuffle` works on the labels of a union string: what it makes of the text and the tombstones of
one deletion set are those of another. Every string with every two subsets is so labelled, by the
positions of its characters.
-/

namespace EeEditor

variable {α κ : Type}

section

variable (u : List κ) (v : κ → α) (a b : κ → ℕ)

private theorem filter_flip (c : κ → ℕ) :
    (u.filter fun k ↦ (if c k = 0 then 1 else 0) = 0) = u.filter fun k ↦ c k ≠ 0 :=
  List.filter_congr fun k _ ↦ by by_cases hc : c k = 0 <;> simp [hc]

private theorem filter_flip_ne (c : κ → ℕ) :
    (u.filter fun k ↦ (if c k = 0 then 1 else 0) ≠ 0) = u.filter fun k ↦ c k = 0 :=
  List.filter_congr fun k _ ↦ by by_cases hc : c k = 0 <;> simp [hc]

theorem shuffleTombstones_label :
    shuffleTombstones ((u.filter fun k ↦ a k = 0).map v) ((u.filter fun k ↦ a k ≠ 0).map v)
      (.label u a) (.label u b) = some ((u.filter fun k ↦ b k ≠ 0).map v) := by
  obtain ⟨d, hd, -, -, -, happly⟩ := Delta.synthesize_label u v (fun k ↦ if a k = 0 then 1 else 0)
    fun k ↦ if b k = 0 then 1 else 0
  rw [filter_flip_ne] at hd
  rw [filter_flip, filter_flip] at happly
  rw [shuffleTombstones, Subset.complement_label, Subset.complement_label]
  simp only [Option.bind_eq_bind, Option.bind_some]
  rw [hd]
  exact happly

theorem shuffle_label :
    shuffle ((u.filter fun k ↦ a k = 0).map v) ((u.filter fun k ↦ a k ≠ 0).map v) (.label u a)
      (.label u b)
      = some ((u.filter fun k ↦ b k = 0).map v, (u.filter fun k ↦ b k ≠ 0).map v) := by
  obtain ⟨d, hd, -, -, -, happly⟩ := Delta.synthesize_label u v a b
  rw [shuffle, hd, Option.bind_eq_bind, Option.bind_some, happly, Option.bind_eq_bind,
    Option.bind_some, shuffleTombstones_label]
  rfl

end

/-! ## Union strings -/

/-- A subset of a string labels the positions of the string. -/
theorem exists_label_finRange {u : List α} {s : Subset} (h : s.len = u.length) :
    ∃ c, s = .label (List.finRange u.length) c ∧
      outside u s = ((List.finRange u.length).filter fun k ↦ c k = 0).map u.get ∧
      inside u s = ((List.finRange u.length).filter fun k ↦ c k ≠ 0).map u.get := by
  obtain ⟨c, rfl⟩ := Subset.exists_label (List.nodup_finRange u.length) (s := s)
    (by rw [← Subset.len_eq, h, List.length_finRange])
  have hu : (List.finRange u.length).map u.get = u := List.map_get_finRange u
  refine ⟨c, rfl, ?_, ?_⟩
  · have hkeep := keepZero_map (List.finRange u.length) u.get c
    rw [hu] at hkeep
    rw [outside, Subset.counts_label]
    exact hkeep
  · have hkeep := keepZero_map (List.finRange u.length) u.get fun k ↦ if c k = 0 then 1 else 0
    rw [hu, filter_flip] at hkeep
    rw [inside, Subset.counts_label, List.map_map]
    exact hkeep

/-- What synthesizing a delta and shuffling should give, for a string and two subsets of it. -/
structure ShufflesExactly (u : List α) (old new : Subset) : Prop where
  synthesize : ∃ d, Delta.synthesize (inside u old) old new = some d ∧ d.WellFormed ∧
    d.apply (outside u old) = some (outside u new)
  shuffle : shuffle (outside u old) (inside u old) old new = some (outside u new, inside u new)

theorem shufflesExactly {u : List α} {old new : Subset} (hold : old.len = u.length)
    (hnew : new.len = u.length) : ShufflesExactly u old new := by
  obtain ⟨a, rfl, houta, hina⟩ := exists_label_finRange hold
  obtain ⟨b, rfl, houtb, hinb⟩ := exists_label_finRange hnew
  obtain ⟨d, hd, hwf, -, -, happly⟩ := Delta.synthesize_label (List.finRange u.length) u.get a b
  exact ⟨⟨d, by rwa [hina], hwf, by rwa [houta, houtb]⟩, by
    rw [houta, hina, houtb, hinb]
    exact shuffle_label _ _ _ _⟩

/-- **Factoring and synthesis.** A delta is applied in two steps to the same effect exactly when it
inserts text at every place, and the delta synthesized from two subsets turns one text of a union
string into the other. -/
theorem factor_synthesize_inverse :
    (∀ (d : Delta α) (base : List α), d.CopiesProper → base.length = d.baseLen →
      ((∃ t, d.apply base = some t ∧ d.applyFactored base = some t) ↔ d.InsertsText)) ∧
    ∀ (u : List α) (old new : Subset), old.len = u.length → new.len = u.length →
      ShufflesExactly u old new :=
  ⟨fun _ _ h hlen ↦ Delta.applyFactored_eq_iff h hlen, fun _ _ _ ↦ shufflesExactly⟩

theorem factor_synthesize_inverse_replacing :
    (∃ t, Delta.replacing.apply (List.range 10) = some t ∧
      Delta.replacing.applyFactored (List.range 10) = some t) ∧
    ShufflesExactly [7, 8, 9] (.ofCounts [0, 1, 0]) (.ofCounts [1, 0, 0]) :=
  ⟨(factor_synthesize_inverse.1 Delta.replacing (List.range 10)
      (Delta.wellFormed_iff.mp (by decide)).1 (by decide)).mpr (by decide),
    factor_synthesize_inverse.2 [7, 8, 9] (.ofCounts [0, 1, 0]) (.ofCounts [1, 0, 0]) (by decide)
      (by decide)⟩

/-- A delta that inserts nothing in front of its base can be applied but not factored. -/
theorem not_applyFactored_of_empty_insert :
    ¬ ∀ (d : Delta ℕ) (base : List ℕ), d.CopiesProper → base.length = d.baseLen →
      ∃ t, d.apply base = some t ∧ d.applyFactored base = some t := by
  intro hall
  obtain ⟨t, -, hfactored⟩ := hall ⟨[.insert [], .copy 0 1], 1⟩ [7]
    ⟨by decide, fun b e hmem ↦ by
      simp only [List.mem_cons, reduceCtorEq, DeltaElement.copy.injEq, List.not_mem_nil, or_false,
        false_or] at hmem
      omega⟩ rfl
  cases hfactored

end EeEditor

namespace EeEditor

variable {α : Type}

/-- The atoms of the union string, the effect of every revision, and how often each atom is
deleted. -/
structure Ledger (α : Type) where
  atoms : List (Atom α)
  effect : RevId → Atom α → ℕ
  count : Atom α → ℕ

/-- The text of the atoms that are not deleted. -/
def visible (u : List (Atom α)) (c : Atom α → ℕ) : List α := (u.filter fun k ↦ c k = 0).map Atom.val

/-- The text of the atoms that are deleted. -/
def hidden (u : List (Atom α)) (c : Atom α → ℕ) : List α := (u.filter fun k ↦ c k ≠ 0).map Atom.val

theorem visible_congr {u : List (Atom α)} {c c' : Atom α → ℕ} (h : ∀ k ∈ u, c k = c' k) :
    visible u c = visible u c' := by
  rw [visible, visible, List.filter_congr fun k hk ↦ by rw [h k hk]]

/-! ## Moving characters between text and tombstones -/

theorem synthesize_apply (u : List (Atom α)) (a b : Atom α → ℕ) :
    ∃ d, Delta.synthesize (hidden u a) (.label u a) (.label u b) = some d ∧
      d.apply (visible u a) = some (visible u b) := by
  obtain ⟨d, hd, -, -, -, happly⟩ := Delta.synthesize_label u Atom.val a b
  exact ⟨d, hd, happly⟩

theorem shuffleTombstones_eq (u : List (Atom α)) (a b : Atom α → ℕ) :
    shuffleTombstones (visible u a) (hidden u a) (.label u a) (.label u b)
      = some (hidden u b) := shuffleTombstones_label u Atom.val a b

theorem shuffle_eq (u : List (Atom α)) (a b : Atom α → ℕ) :
    shuffle (visible u a) (hidden u a) (.label u a) (.label u b)
      = some (visible u b, hidden u b) := shuffle_label u Atom.val a b

/-! ## Representation -/

/-- The undo group of an edit. -/
def Contents.group? : Contents → Option ℕ
  | .edit _ undoGroup _ _ => some undoGroup
  | .undo .. => none

/-- `max_undo_so_far` bounds the groups of all edits up to a revision. -/
def BoundsGroups (revs : List Revision) : Prop :=
  ∀ pre r post, revs = pre ++ r :: post → ∀ q ∈ pre ++ [r], ∀ g ∈ q.edit.group?,
    g ≤ r.maxUndoSoFar

/-- The engine is the encoding of the ledger. -/
structure Engine.Represents (e : Engine α) (g : Ledger α) : Prop where
  history : History g.atoms g.effect e.revs
  /-- Revision 0 is an undo of no groups. -/
  first : ∃ m b rest, e.revs = ⟨⟨0, 0, 0⟩, m, .undo ∅ b⟩ :: rest
  dels : e.deletesFromUnion = .label g.atoms g.count
  text : e.text = visible g.atoms g.count
  tombstones : e.tombstones = hidden g.atoms g.count
  /-- The next revision ID has not been used. -/
  fresh : ∀ r ∈ e.revs, r.revId.sessionId = e.session → r.revId.num < e.revIdCounter
  bounds : BoundsGroups e.revs

namespace Engine

/-! ## Looking up revisions -/

theorem sliceFrom_append {β : Type} (l l' : List β) : sliceFrom (l ++ l') l.length = some l' := by
  rw [sliceFrom, if_pos (by simp), List.drop_left]

/-- A found index splits the revisions behind the one found. -/
theorem rfindIdx_eq_some {p : Revision → Bool} {revs : List Revision} {i : ℕ}
    (h : rfindIdx p revs = some i) : ∃ pre r post, revs = pre ++ [r] ++ post ∧
      pre.length = i ∧ p r = true ∧ ∀ q ∈ post, p q = false := by
  rw [rfindIdx, Option.map_eq_some_iff] at h
  obtain ⟨j, hj, rfl⟩ := h
  obtain ⟨hlt, hp, hbefore⟩ := List.findIdx?_eq_some_iff_getElem.mp hj
  rw [List.length_reverse] at hlt
  refine ⟨revs.take (revs.length - 1 - j), revs[revs.length - 1 - j],
    revs.drop (revs.length - 1 - j + 1), ?_, ?_, ?_, ?_⟩
  · rw [List.append_assoc, List.singleton_append, ← List.drop_eq_getElem_cons (by omega),
      List.take_append_drop]
  · rw [List.length_take]
    omega
  · rwa [List.getElem_reverse] at hp
  · intro q hq
    obtain ⟨m, hm, rfl⟩ := List.mem_iff_getElem.mp hq
    rw [List.getElem_drop]
    rw [List.length_drop] at hm
    have := hbefore (j - 1 - m) (by omega)
    rw [List.getElem_reverse] at this
    have hidx : revs.length - 1 - (j - 1 - m) = revs.length - 1 - j + 1 + m := by omega
    simpa [hidx] using this

theorem rfindIdx_append_cons {p : Revision → Bool} (pre : List Revision) {r : Revision}
    (hr : p r = true) {post : List Revision} (hpost : ∀ q ∈ post, p q = false) :
    rfindIdx p (pre ++ [r] ++ post) = some pre.length := by
  rw [rfindIdx, Option.map_eq_some_iff]
  refine ⟨post.length, ?_, by simp⟩
  rw [List.reverse_append, List.reverse_append, List.reverse_singleton]
  rw [List.findIdx?_append, List.findIdx?_eq_none_iff.mpr fun q hq ↦ hpost q (by simpa using hq)]
  simp [List.findIdx?_cons, hr]

namespace Represents

variable {e : Engine α} {g : Ledger α} {pre post : List Revision}

theorem nonempty (h : e.Represents g) : e.revs ≠ [] := by
  obtain ⟨m, b, rest, hrevs⟩ := h.first
  simp [hrevs]

theorem first_append (h : e.Represents g) (r : Revision) :
    ∃ m b rest, e.revs ++ [r] = ⟨⟨0, 0, 0⟩, m, .undo ∅ b⟩ :: rest := by
  obtain ⟨m, b, rest, hrevs⟩ := h.first
  exact ⟨m, b, rest ++ [r], by rw [hrevs, List.cons_append]⟩

/-- How often the atoms are deleted at the end of `pre`, with the later ones hidden. -/
def pastCount (e : Engine α) (g : Ledger α) (pre post : List Revision) (k : Atom α) : ℕ :=
  if known pre k then (invertAll g.effect true post (g.count, e.undoneGroups)).1 k else 1

theorem deletesFromUnionBeforeIndex_eq_some_iff (h : e.Represents g) (hrevs : e.revs = pre ++ post)
    (invertUndos : Bool) (s : Subset) :
    e.deletesFromUnionBeforeIndex pre.length invertUndos = some s ↔
      InvertibleAll g.effect g.atoms invertUndos pre post (g.count, e.undoneGroups) ∧
        s = .label (unionAt g.atoms pre)
          (invertAll g.effect invertUndos post (g.count, e.undoneGroups)).1 := by
  have hh := h.history
  have hself : unionAt g.atoms (pre ++ post) = g.atoms := hrevs ▸ hh.unionAt_self
  rw [hrevs, ← List.append_nil (pre ++ post)] at hh
  have hwalk := hh.unapplyAll_eq_some_iff invertUndos g.count e.undoneGroups
  rw [hself] at hwalk
  rw [deletesFromUnionBeforeIndex, hrevs, sliceFrom_append, h.dels]
  simp only [Option.bind_eq_bind, Option.bind_some, Option.bind_eq_some_iff]
  constructor
  · rintro ⟨st, hst, hs⟩
    obtain ⟨hinv, rfl⟩ := (hwalk st).mp hst
    exact ⟨hinv, (Option.some.inj hs).symm⟩
  · rintro ⟨hinv, rfl⟩
    exact ⟨_, (hwalk _).mpr ⟨hinv, rfl⟩, rfl⟩

theorem deletesFromCurUnionForIndex_eq_some_iff (h : e.Represents g) {r : Revision}
    (hrevs : e.revs = pre ++ [r] ++ post) (s : Subset) :
    e.deletesFromCurUnionForIndex pre.length = some s ↔
      InvertibleAll g.effect g.atoms true (pre ++ [r]) post (g.count, e.undoneGroups) ∧
        s = .label g.atoms (pastCount e g (pre ++ [r]) post) := by
  have hlen : (pre ++ [r]).length = pre.length + 1 := by simp
  have hh := h.history
  rw [hrevs] at hh
  have hh' : History g.atoms g.effect (pre ++ [r] ++ post ++ []) := by simpa using hh
  have hslice : sliceFrom e.revs (pre.length + 1) = some post := by
    rw [hrevs, ← hlen, sliceFrom_append]
  have hhide := hh'.foldlM_hideInserts (invertAll g.effect true post (g.count, e.undoneGroups)).1
  rw [hh.unionAt_self] at hhide
  rw [deletesFromCurUnionForIndex, deletesFromUnionForIndex, ← hlen]
  simp only [Option.bind_eq_bind, Option.bind_eq_some_iff,
    h.deletesFromUnionBeforeIndex_eq_some_iff hrevs]
  rw [hlen]
  constructor
  · rintro ⟨s₁, ⟨hinv, rfl⟩, revs, hr, hs⟩
    rw [hslice] at hr
    obtain rfl := Option.some.inj hr
    rw [hhide] at hs
    exact ⟨hinv, (Option.some.inj hs).symm⟩
  · rintro ⟨hinv, rfl⟩
    exact ⟨_, ⟨hinv, rfl⟩, post, hslice, hhide⟩

/-- The contents of a revision are the atoms that the walk backwards leaves undeleted. -/
theorem revContentForIndex_eq_some_iff (h : e.Represents g) {r : Revision}
    (hrevs : e.revs = pre ++ [r] ++ post) (t : List α) :
    e.revContentForIndex pre.length = some t ↔
      InvertibleAll g.effect g.atoms true (pre ++ [r]) post (g.count, e.undoneGroups) ∧
        t = visible g.atoms (pastCount e g (pre ++ [r]) post) := by
  obtain ⟨d, hd, happly⟩ := synthesize_apply g.atoms g.count (pastCount e g (pre ++ [r]) post)
  rw [revContentForIndex]
  simp only [Option.bind_eq_bind, Option.bind_eq_some_iff,
    h.deletesFromCurUnionForIndex_eq_some_iff hrevs]
  rw [h.dels, h.text, h.tombstones]
  constructor
  · rintro ⟨s, ⟨hinv, rfl⟩, d', hd', ht⟩
    rw [hd] at hd'
    obtain rfl := Option.some.inj hd'
    rw [happly] at ht
    exact ⟨hinv, (Option.some.inj ht).symm⟩
  · rintro ⟨hinv, rfl⟩
    exact ⟨_, ⟨hinv, rfl⟩, d, hd, happly⟩

/-- The text at a revision in terms of the union string at that revision. -/
theorem visible_pastCount (e : Engine α) (g : Ledger α) (pre post : List Revision) :
    visible g.atoms (pastCount e g pre post)
      = visible (unionAt g.atoms pre)
          (invertAll g.effect true post (g.count, e.undoneGroups)).1 := by
  rw [visible, visible, unionAt, List.filter_filter]
  congr 1
  refine List.filter_congr fun k _ ↦ ?_
  cases hk : known pre k <;> simp [pastCount, hk]

end Represents

end Engine

end EeEditor
