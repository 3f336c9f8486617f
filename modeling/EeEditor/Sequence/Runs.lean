import Mathlib.Data.List.Chain
import Mathlib.Order.Basic
import Mathlib.Tactic.Common

/-!
# Run-length encoded sequences

A sequence stored as maximal runs of equal values. The encoding is kept *canonical*: every run
is non-empty and neighbouring runs carry different values. Canonical encodings are then unique,
`Run.Canonical.eq_of_expand_eq`, so structural equality of two encodings is equality of the
sequences they stand for.
-/

namespace EeEditor

variable {β : Type*}

/-- A run of `len` consecutive elements that all carry the value `val`. -/
structure Run (β : Type*) where
  /-- The number of elements. -/
  len : ℕ
  /-- Their common value. -/
  val : β
deriving DecidableEq, Repr

namespace Run

/-- The sequence a list of runs stands for. -/
def expand (rs : List (Run β)) : List β := rs.flatMap fun r ↦ List.replicate r.len r.val

@[simp] theorem expand_nil : expand ([] : List (Run β)) = [] := rfl

@[simp] theorem expand_cons (r : Run β) (rs : List (Run β)) :
    expand (r :: rs) = List.replicate r.len r.val ++ expand rs := by
  rw [expand, expand, List.flatMap_cons]

@[simp] theorem expand_append (rs ss : List (Run β)) :
    expand (rs ++ ss) = expand rs ++ expand ss := by
  rw [expand, expand, expand, List.flatMap_append]

/-- Every run is non-empty and no run has the value of the one before it. -/
structure Canonical (rs : List (Run β)) : Prop where
  pos : ∀ r ∈ rs, 0 < r.len
  ne : rs.IsChain fun r s ↦ r.val ≠ s.val

namespace Canonical

theorem nil : Canonical ([] : List (Run β)) :=
  ⟨fun _ h ↦ absurd h List.not_mem_nil, List.IsChain.nil⟩

theorem singleton {r : Run β} (h : 0 < r.len) : Canonical [r] :=
  ⟨fun _ hs ↦ (List.mem_singleton.mp hs) ▸ h, List.IsChain.singleton r⟩

theorem tail {r : Run β} {rs : List (Run β)} (h : Canonical (r :: rs)) : Canonical rs :=
  ⟨fun s hs ↦ h.pos s (List.mem_cons_of_mem _ hs), List.IsChain.of_cons h.ne⟩

/-- The element right after a maximal run differs from the run's value, which is what makes the
split of a sequence into runs unique. -/
theorem head?_expand_ne {r : Run β} {rs : List (Run β)} (h : Canonical (r :: rs)) :
    ∀ v ∈ (expand rs).head?, v ≠ r.val := by
  intro v hv
  cases rs with
  | nil => simp at hv
  | cons s rs =>
    have hpos : 0 < s.len := h.pos s (by simp)
    have hne : r.val ≠ s.val := by simpa using (List.isChain_cons_cons.mp h.ne).1
    obtain ⟨n, hn⟩ := Nat.exists_eq_succ_of_ne_zero (Nat.ne_of_gt hpos)
    rw [expand_cons, hn, List.replicate_succ, List.cons_append, List.head?_cons] at hv
    rw [Option.mem_some_iff] at hv
    exact hv ▸ hne.symm

end Canonical

private theorem replicate_append_inj {v w : β} {l k : List β} :
    ∀ {n m : ℕ}, 0 < n → 0 < m → (∀ x ∈ l.head?, x ≠ v) → (∀ x ∈ k.head?, x ≠ w) →
      List.replicate n v ++ l = List.replicate m w ++ k → n = m ∧ v = w ∧ l = k := by
  intro n
  induction n with
  | zero => intro m h; exact absurd h (Nat.lt_irrefl 0)
  | succ n ih =>
    intro m _ hm hl hk heq
    obtain ⟨m, rfl⟩ := Nat.exists_eq_succ_of_ne_zero (Nat.ne_of_gt hm)
    rw [List.replicate_succ, List.replicate_succ, List.cons_append, List.cons_append,
      List.cons.injEq] at heq
    obtain ⟨rfl, heq⟩ := heq
    rcases Nat.eq_zero_or_pos n with rfl | hn
    · rcases Nat.eq_zero_or_pos m with rfl | hm'
      · exact ⟨rfl, rfl, by simpa using heq⟩
      · obtain ⟨m, rfl⟩ := Nat.exists_eq_succ_of_ne_zero (Nat.ne_of_gt hm')
        have hl' : l = v :: (List.replicate m v ++ k) := by
          simpa [List.replicate_succ] using heq
        exact absurd rfl (hl v (by simp [hl']))
    · rcases Nat.eq_zero_or_pos m with rfl | hm'
      · obtain ⟨n, rfl⟩ := Nat.exists_eq_succ_of_ne_zero (Nat.ne_of_gt hn)
        have hk' : k = v :: (List.replicate n v ++ l) := by
          simpa [List.replicate_succ] using heq.symm
        exact absurd rfl (hk v (by simp [hk']))
      · obtain ⟨hnm, _, hlk⟩ := ih hn hm' hl hk heq
        exact ⟨by rw [hnm], rfl, hlk⟩

/-- **Canonical encodings are unique.** -/
theorem Canonical.eq_of_expand_eq {rs ss : List (Run β)} (hr : Canonical rs) (hs : Canonical ss)
    (h : expand rs = expand ss) : rs = ss := by
  induction rs generalizing ss with
  | nil =>
    cases ss with
    | nil => rfl
    | cons s ss =>
      have hpos : 0 < s.len := hs.pos s (by simp)
      have hlen := congrArg List.length h
      simp at hlen
      omega
  | cons r rs ih =>
    cases ss with
    | nil =>
      have hpos : 0 < r.len := hr.pos r (by simp)
      have hlen := congrArg List.length h
      simp at hlen
      omega
    | cons s ss =>
      rw [expand_cons, expand_cons] at h
      obtain ⟨hn, hv, hrest⟩ := replicate_append_inj (hr.pos r (by simp)) (hs.pos s (by simp))
        hr.head?_expand_ne hs.head?_expand_ne h
      rw [ih hr.tail hs.tail hrest]
      cases r; cases s
      simp_all

/-! ## Appending a run -/

section Push

variable [DecidableEq β]

/-- Append a run of `n` copies of `v`, merging it into the last run when the values agree. -/
def push (n : ℕ) (v : β) : List (Run β) → List (Run β)
  | [] => [⟨n, v⟩]
  | [r] => if r.val = v then [⟨r.len + n, v⟩] else [r, ⟨n, v⟩]
  | r :: s :: rs => r :: push n v (s :: rs)

theorem expand_push (n : ℕ) (v : β) (rs : List (Run β)) :
    expand (push n v rs) = expand rs ++ List.replicate n v := by
  induction rs using push.induct (v := v) with
  | case1 => simp [push]
  | case2 r h => rw [push, if_pos h, ← h]; simp
  | case3 r h => simp [push, h]
  | case4 r s rs ih => rw [push, expand_cons, ih, expand_cons r, List.append_assoc]

/-- Pushing changes at most the last run, so the value at the front survives. -/
theorem head?_val_push (n : ℕ) (v : β) (r : Run β) (rs : List (Run β)) :
    ∃ s ss, push n v (r :: rs) = s :: ss ∧ s.val = r.val := by
  cases rs with
  | nil =>
    by_cases h : r.val = v
    · exact ⟨⟨r.len + n, v⟩, [], by simp [push, h], h.symm⟩
    · exact ⟨r, [⟨n, v⟩], by simp [push, h], rfl⟩
  | cons s rs => exact ⟨r, push n v (s :: rs), rfl, rfl⟩

theorem Canonical.push {n : ℕ} (hn : 0 < n) (v : β) {rs : List (Run β)} (h : Canonical rs) :
    Canonical (Run.push n v rs) := by
  induction rs using push.induct (v := v) with
  | case1 => exact Canonical.singleton hn
  | case2 r hv =>
    rw [Run.push, if_pos hv]
    exact Canonical.singleton (Nat.add_pos_right _ hn)
  | case3 r hv =>
    rw [Run.push, if_neg hv]
    refine ⟨fun s hs ↦ ?_, List.IsChain.cons_cons hv (List.IsChain.singleton _)⟩
    rcases List.mem_cons.mp hs with rfl | hs
    · exact h.pos _ (by simp)
    · rw [List.mem_singleton.mp hs]; exact hn
  | case4 r s rs ih =>
    have ih := ih h.tail
    obtain ⟨t, ts, hts, htv⟩ := head?_val_push n v s rs
    rw [Run.push]
    rw [hts] at ih ⊢
    refine ⟨fun u hu ↦ ?_, List.IsChain.cons_cons ?_ ih.ne⟩
    · rcases List.mem_cons.mp hu with rfl | hu
      · exact h.pos _ (by simp)
      · exact ih.pos u hu
    · rw [htv]
      exact (List.isChain_cons_cons.mp h.ne).1

/-- The canonical encoding of a sequence. -/
def encode (l : List β) : List (Run β) := l.foldl (fun rs v ↦ push 1 v rs) []

private theorem foldl_push_spec (l : List β) :
    ∀ rs : List (Run β), Canonical rs →
      Canonical (l.foldl (fun rs v ↦ push 1 v rs) rs) ∧
        expand (l.foldl (fun rs v ↦ push 1 v rs) rs) = expand rs ++ l := by
  induction l with
  | nil => intro rs h; exact ⟨h, by simp⟩
  | cons v l ih =>
    intro rs h
    obtain ⟨hc, he⟩ := ih (push 1 v rs) (h.push Nat.one_pos v)
    refine ⟨hc, ?_⟩
    rw [List.foldl_cons, he, expand_push, List.append_assoc]
    rfl

theorem canonical_encode (l : List β) : Canonical (encode l) :=
  (foldl_push_spec l [] Canonical.nil).1

@[simp] theorem expand_encode (l : List β) : expand (encode l) = l :=
  (foldl_push_spec l [] Canonical.nil).2

theorem Canonical.encode_expand {rs : List (Run β)} (h : Canonical rs) : encode (expand rs) = rs :=
  (canonical_encode _).eq_of_expand_eq h (expand_encode _)

end Push

end Run

end EeEditor
