import EeEditor.Sequence.Masked

/-!
# Insertion scripts

A *script* describes insertions into a sequence: `none` keeps the next element, `some b` inserts
`b`. Scripts are transformed through masks, as edits are transformed over concurrent ones:
`Script.expand` re-bases a script from the zero positions of a mask to all of its positions, and
`Script.shrink` goes back.

On labelled sequences a script is a list of labels with a predicate for the new ones,
`Script.ofLabels`, and every operation is a filter of the labels. Re-basing has to decide where
new elements go relative to masked ones in the same gap.
-/

namespace EeEditor

variable {β κ : Type*}

namespace Script

/-- The number of elements kept. -/
def kept (s : List (Option β)) : ℕ := s.countP Option.isNone

/-- The result of a script on a sequence. -/
def fill : List (Option β) → List β → List β
  | some b :: s, as => b :: fill s as
  | none :: s, a :: as => a :: fill s as
  | none :: _, [] => []
  | [], _ => []

/-- Which elements of the result are new. -/
def mask (s : List (Option β)) : List ℕ := s.map fun o ↦ if o.isSome then 1 else 0

/-- Re-base a script from the zero positions of a mask to all positions. In a gap, `after` puts
the new elements behind the masked ones, otherwise they go before them. -/
def expand (after : Bool) : List ℕ → List (Option β) → List (Option β)
  | [], s => s
  | x :: xs, s =>
    if x = 0 then
      s.takeWhile Option.isSome ++ none :: expand after xs (s.dropWhile Option.isSome).tail
    else if after then none :: expand after xs s
    else s.takeWhile Option.isSome ++ none :: expand after xs (s.dropWhile Option.isSome)

/-- Re-base a script to the zero positions of a mask. -/
def shrink : List ℕ → List (Option β) → List (Option β)
  | xs, some b :: s => some b :: shrink xs s
  | 0 :: xs, none :: s => none :: shrink xs s
  | (_ + 1) :: xs, none :: s => shrink xs s
  | [], none :: _ => []
  | _, [] => []

@[simp] theorem kept_nil : kept ([] : List (Option β)) = 0 := rfl

@[simp] theorem kept_some_cons (b : β) (s : List (Option β)) : kept (some b :: s) = kept s := by
  simp [kept]

@[simp] theorem kept_none_cons (s : List (Option β)) : kept (none :: s) = kept s + 1 := by
  simp [kept]

@[simp] theorem kept_append (s t : List (Option β)) : kept (s ++ t) = kept s + kept t :=
  List.countP_append

@[simp] theorem kept_replicate_none (n : ℕ) :
    kept (List.replicate n (none : Option β)) = n := by
  simp [kept, List.countP_replicate]

@[simp] theorem kept_map_some (l : List β) : kept (l.map some) = 0 := by
  simp [kept, List.countP_map]

theorem mask_append (s t : List (Option β)) : mask (s ++ t) = mask s ++ mask t := List.map_append

theorem mask_replicate_none (n : ℕ) :
    mask (List.replicate n (none : Option β)) = List.replicate n 0 := List.map_replicate

theorem mask_map_some (l : List β) : mask (l.map some) = List.replicate l.length 1 := by
  rw [mask, List.map_map, ← List.map_const']
  rfl

theorem zeros_mask (s : List (Option β)) : zeros (mask s) = kept s := by
  induction s with
  | nil => rfl
  | cons o s ih => cases o <;> simpa [mask] using ih

theorem length_fill {s : List (Option β)} {as : List β} (h : kept s = as.length) :
    (fill s as).length = s.length := by
  induction s generalizing as with
  | nil => rfl
  | cons o s ih =>
    cases o with
    | some b => rw [fill, List.length_cons, List.length_cons, ih (by simpa using h)]
    | none =>
      cases as with
      | nil => simp at h
      | cons a as => rw [fill, List.length_cons, List.length_cons, ih (by simpa using h)]

/-! ## Stretches of a re-based script -/

/-- Masked elements come first when the new ones go after them. -/
theorem expand_true_pos (xs : List ℕ) (s : List (Option β)) : ∀ ys : List ℕ, (∀ y ∈ ys, y ≠ 0) →
    expand true (ys ++ xs) s = List.replicate ys.length none ++ expand true xs s := by
  intro ys
  induction ys with
  | nil => intro _; rfl
  | cons y ys ih =>
    intro h
    rw [List.cons_append, expand, if_neg (h y (by simp)), if_pos rfl,
      ih fun z hz ↦ h z (by simp [hz])]
    rfl

/-- Masked elements come first when there is nothing to insert before them. -/
theorem expand_false_pos (xs : List ℕ) {s : List (Option β)} (hs : s.takeWhile Option.isSome = []) :
    ∀ ys : List ℕ, (∀ y ∈ ys, y ≠ 0) →
      expand false (ys ++ xs) s = List.replicate ys.length none ++ expand false xs s := by
  have hd : s.dropWhile Option.isSome = s := by
    simpa [hs] using List.takeWhile_append_dropWhile (p := Option.isSome) (l := s)
  intro ys
  induction ys with
  | nil => intro _; rfl
  | cons y ys ih =>
    intro h
    rw [List.cons_append, expand, if_neg (h y (by simp)), if_neg (by simp), hs, hd,
      ih fun z hz ↦ h z (by simp [hz])]
    rfl

/-- New elements stay in front, unless they go after a masked one. -/
theorem expand_some_cons (after : Bool) {xs : List ℕ} (b : β) (s : List (Option β))
    (h : after = true → ∀ x ∈ xs.head?, x = 0) :
    expand after xs (some b :: s) = some b :: expand after xs s := by
  cases xs with
  | nil => rfl
  | cons x xs =>
    rw [expand, expand]
    by_cases hx : x = 0
    · simp [hx]
    · cases after with
      | false => simp [hx]
      | true => exact absurd (h rfl x (by simp)) hx

theorem expand_map_some (after : Bool) {xs : List ℕ} (s : List (Option β))
    (h : after = true → ∀ x ∈ xs.head?, x = 0) (l : List β) :
    expand after xs (l.map some ++ s) = l.map some ++ expand after xs s := by
  induction l with
  | nil => rfl
  | cons b l ih => rw [List.map_cons, List.cons_append, expand_some_cons after b _ h, ih]; rfl

/-- Kept elements are kept at the zero positions. -/
theorem expand_zero_none (after : Bool) (xs : List ℕ) (s : List (Option β)) (n : ℕ) :
    expand after (List.replicate n 0 ++ xs) (List.replicate n none ++ s)
      = List.replicate n none ++ expand after xs s := by
  induction n with
  | zero => rfl
  | succ n ih =>
    rw [List.replicate_succ, List.replicate_succ, List.cons_append, List.cons_append, expand,
      if_pos rfl]
    simp [ih]

/-! ## Applying and shrinking -/

theorem shrink_replicate_none_append (zs : List ℕ) (s : List (Option β)) :
    ∀ ys : List ℕ, shrink (ys ++ zs) (List.replicate ys.length none ++ s)
      = List.replicate (zeros ys) none ++ shrink zs s := by
  intro ys
  induction ys with
  | nil => rfl
  | cons y ys ih =>
    rw [List.length_cons, List.replicate_succ, List.cons_append, List.cons_append]
    cases y with
    | zero => rw [shrink, ih, zeros_zero_cons, List.replicate_succ, List.cons_append]
    | succ y => rw [shrink, ih, zeros_succ_cons]

theorem shrink_map_some_append (xs : List ℕ) (s : List (Option β)) (l : List β) :
    shrink xs (l.map some ++ s) = l.map some ++ shrink xs s := by
  induction l with
  | nil => rfl
  | cons b l ih => rw [List.map_cons, List.cons_append, shrink, ih, List.cons_append]

theorem fill_replicate_none_append (s : List (Option β)) : ∀ (n : ℕ) (as : List β),
    n ≤ as.length → fill (List.replicate n none ++ s) as = as.take n ++ fill s (as.drop n) := by
  intro n
  induction n with
  | zero => intro as _; simp
  | succ n ih =>
    intro as h
    cases as with
    | nil => simp at h
    | cons a as =>
      rw [List.replicate_succ, List.cons_append, fill, ih as (by simpa using h)]
      simp

theorem fill_map_some_append (s : List (Option β)) (as l : List β) :
    fill (l.map some ++ s) as = l ++ fill s as := by
  induction l with
  | nil => rfl
  | cons b l ih => rw [List.map_cons, List.cons_append, fill, ih, List.cons_append]

/-! ## Labelled scripts -/

variable (new : κ → Bool) (val : κ → β)

/-- The script that turns the labels that are not new into all labels. -/
def ofLabels (u : List κ) : List (Option β) := u.map fun k ↦ if new k then some (val k) else none

@[simp] theorem ofLabels_nil : ofLabels new val [] = [] := rfl

theorem ofLabels_cons (k : κ) (u : List κ) :
    ofLabels new val (k :: u) = (if new k then some (val k) else none) :: ofLabels new val u := rfl

theorem kept_ofLabels (u : List κ) :
    kept (ofLabels new val u) = (u.filter fun k ↦ !new k).length := by
  induction u with
  | nil => rfl
  | cons k u ih =>
    rw [ofLabels_cons, List.filter_cons]
    by_cases h : new k <;> simp [h, ih]

theorem mask_ofLabels (u : List κ) :
    mask (ofLabels new val u) = u.map fun k ↦ if new k then 1 else 0 := by
  rw [mask, ofLabels, List.map_map]
  congr 1
  funext k
  by_cases h : new k <;> simp [h]

theorem fill_ofLabels (u : List κ) :
    fill (ofLabels new val u) ((u.filter fun k ↦ !new k).map val) = u.map val := by
  induction u with
  | nil => rfl
  | cons k u ih =>
    rw [ofLabels_cons, List.filter_cons]
    by_cases h : new k <;> simp [h, fill, ih]

theorem shrink_ofLabels (x : κ → ℕ) (u : List κ) :
    shrink ((u.filter fun k ↦ !new k).map x) (ofLabels new val u)
      = ofLabels new val (u.filter fun k ↦ new k || x k == 0) := by
  induction u with
  | nil => simp [shrink]
  | cons k u ih =>
    rw [ofLabels_cons, List.filter_cons, List.filter_cons]
    by_cases h : new k
    · simp [h, shrink, ih, ofLabels_cons]
    · cases hx : x k <;> simp [h, hx, shrink, ih, ofLabels_cons]

/-! ## The gaps decided by re-basing -/

/-- The elements a script inserts. -/
def inserted (s : List (Option β)) : List β := s.filterMap id

@[simp] theorem inserted_none_cons (s : List (Option β)) : inserted (none :: s) = inserted s := rfl

@[simp] theorem inserted_some_cons (b : β) (s : List (Option β)) :
    inserted (some b :: s) = b :: inserted s := rfl

@[simp] theorem inserted_map_some_append (l : List β) (s : List (Option β)) :
    inserted (l.map some ++ s) = l ++ inserted s := by
  rw [inserted, List.filterMap_append, List.filterMap_map]
  simp [inserted]

/-- A script cut behind the insertions it begins with. -/
theorem exists_eq_map_some_append (s : List (Option β)) :
    ∃ (l : List β) (t : List (Option β)), s = l.map some ++ t ∧
    s.takeWhile Option.isSome = l.map some ∧
      s.dropWhile Option.isSome = t ∧ (t = [] ∨ ∃ t', t = none :: t') := by
  induction s with
  | nil => exact ⟨[], [], rfl, rfl, rfl, .inl rfl⟩
  | cons o s ih =>
    cases o with
    | none => exact ⟨[], none :: s, rfl, rfl, rfl, .inr ⟨s, rfl⟩⟩
    | some b =>
      obtain ⟨l, t, hs, htake, hdrop, ht⟩ := ih
      exact ⟨b :: l, t, by rw [hs]; rfl, by simp [htake], by simp [hdrop], ht⟩

/-- How a script is re-based over the first position of a mask. -/
theorem expand_cons_cases (after : Bool) (x : ℕ) (xs : List ℕ) (s : List (Option β))
    (h : kept s = zeros (x :: xs)) : ∃ (l : List β) (t : List (Option β)), kept t = zeros xs ∧
      expand after (x :: xs) s = l.map some ++ none :: expand after xs t ∧
        (x = 0 ∧ s = l.map some ++ none :: t ∨ x ≠ 0 ∧ s = l.map some ++ t) := by
  obtain ⟨l, t, hs, htake, hdrop, ht⟩ := exists_eq_map_some_append s
  rw [expand, htake, hdrop]
  cases x with
  | zero =>
    rcases ht with rfl | ⟨t, rfl⟩
    · rw [hs] at h
      simp at h
    · refine ⟨l, t, ?_, by simp, .inl ⟨rfl, hs⟩⟩
      rw [hs] at h
      simpa using h
  | succ x =>
    rw [zeros_succ_cons] at h
    cases after with
    | true => exact ⟨[], s, h, by simp, .inr ⟨by simp, rfl⟩⟩
    | false =>
      refine ⟨l, t, ?_, by simp, .inr ⟨by simp, hs⟩⟩
      rw [hs] at h
      simpa using h

theorem kept_expand (after : Bool) : ∀ (xs : List ℕ) (s : List (Option β)), kept s = zeros xs →
    kept (expand after xs s) = xs.length := by
  intro xs
  induction xs with
  | nil => intro s h; exact h
  | cons x xs ih =>
    intro s h
    obtain ⟨l, t, ht, he, -⟩ := expand_cons_cases after x xs s h
    simp [he, ih t ht]

theorem inserted_expand (after : Bool) : ∀ (xs : List ℕ) (s : List (Option β)),
    kept s = zeros xs → inserted (expand after xs s) = inserted s := by
  intro xs
  induction xs with
  | nil => intro s _; rfl
  | cons x xs ih =>
    intro s h
    obtain ⟨l, t, ht, he, ⟨-, hs⟩ | ⟨-, hs⟩⟩ := expand_cons_cases after x xs s h
    · rw [he, hs]
      simp [ih t ht]
    · rw [he, hs]
      simp [ih t ht]

/-- Re-basing to all positions and back changes nothing. -/
theorem shrink_expand (after : Bool) : ∀ (xs : List ℕ) (s : List (Option β)), kept s = zeros xs →
    shrink xs (expand after xs s) = s := by
  intro xs
  induction xs with
  | nil =>
    intro s h
    obtain ⟨l, t, hs, -, -, ht⟩ := exists_eq_map_some_append s
    rcases ht with rfl | ⟨t, rfl⟩
    · rw [expand, hs, shrink_map_some_append, shrink.eq_5]
    · rw [hs] at h
      simp at h
  | cons x xs ih =>
    intro s h
    obtain ⟨l, t, ht, he, ⟨hx, hs⟩ | ⟨hx, hs⟩⟩ := expand_cons_cases after x xs s h
    · rw [he, hs, shrink_map_some_append, hx, shrink, ih t ht]
    · obtain ⟨c, rfl⟩ := Nat.exists_eq_succ_of_ne_zero hx
      rw [he, hs, shrink_map_some_append, shrink, ih t ht]

theorem expand_map {γ : Type*} (g : β → γ) (after : Bool) : ∀ (xs : List ℕ) (s : List (Option β)),
    expand after xs (s.map (Option.map g)) = (expand after xs s).map (Option.map g) := by
  intro xs
  induction xs with
  | nil => intro s; rfl
  | cons x xs ih =>
    intro s
    have hp : Option.isSome ∘ Option.map g = Option.isSome := by
      funext o
      cases o <;> rfl
    rw [expand, expand, List.takeWhile_map, List.dropWhile_map, hp, ← List.map_tail, ih, ih, ih]
    split_ifs <;> simp

/-! ### Arrangements -/

/-- A script that only inserts new labels is the script of its result. -/
theorem ofLabels_fill : ∀ (s : List (Option κ)) (w : List κ), kept s = w.length →
    (∀ k ∈ inserted s, new k = true) → (∀ k ∈ w, new k = false) →
    ofLabels new id (fill s w) = s ∧ ((fill s w).filter fun k ↦ !new k) = w := by
  intro s
  induction s with
  | nil =>
    intro w h _ _
    obtain rfl : w = [] := List.eq_nil_of_length_eq_zero h.symm
    exact ⟨rfl, rfl⟩
  | cons o s ih =>
    intro w h hs hw
    cases o with
    | some k =>
      have hk : new k = true := hs k (by simp)
      obtain ⟨h1, h2⟩ := ih w (by simpa using h) (fun l hl ↦ hs l (by simp [hl])) hw
      exact ⟨by rw [fill, ofLabels_cons, h1, if_pos hk]; rfl, by rw [fill]; simp [hk, h2]⟩
    | none =>
      cases w with
      | nil => simp at h
      | cons a w =>
        have ha : new a = false := hw a (by simp)
        obtain ⟨h1, h2⟩ := ih w (by simpa using h) hs fun l hl ↦ hw l (by simp [hl])
        exact ⟨by rw [fill, ofLabels_cons, h1, ha]; rfl, by rw [fill]; simp [ha, h2]⟩

theorem inserted_ofLabels (u : List κ) : inserted (ofLabels new id u) = u.filter new := by
  induction u with
  | nil => rfl
  | cons k u ih =>
    rw [ofLabels_cons, List.filter_cons]
    by_cases h : new k <;> simp [h, ih]

theorem ofLabels_eq_map (u : List κ) :
    ofLabels new val u = (ofLabels new id u).map (Option.map val) := by
  rw [ofLabels, ofLabels, List.map_map]
  congr 1
  funext k
  by_cases h : new k <;> simp [h]

/-- An arrangement is determined by its script and the labels that are not new. -/
theorem eq_of_ofLabels_eq {u v : List κ} (h : ofLabels new id u = ofLabels new id v)
    (h' : (u.filter fun k ↦ !new k) = v.filter fun k ↦ !new k) : u = v := by
  have hu := fill_ofLabels new id u
  have hv := fill_ofLabels new id v
  rw [List.map_id, List.map_id] at hu hv
  rw [← hu, ← hv, h, h']

/-- The arrangement of the new labels of `v` among the labels `w`, when `v` arranges them among
the zero positions of `x`. -/
def arrange (after : Bool) (x : κ → ℕ) (w v : List κ) : List κ :=
  fill (expand after (w.map x) (ofLabels new id v)) w

section

variable {new} (after : Bool) {x : κ → ℕ} {w v : List κ}

private theorem kept_of_arranged (h : (v.filter fun k ↦ !new k) = w.filter fun k ↦ x k = 0) :
    kept (ofLabels new id v) = zeros (w.map x) := by
  rw [kept_ofLabels, h, zeros_map]

private theorem arrange_fill (h : (v.filter fun k ↦ !new k) = w.filter fun k ↦ x k = 0)
    (hw : ∀ k ∈ w, new k = false) :
    ofLabels new id (arrange new after x w v) = expand after (w.map x) (ofLabels new id v) ∧
      ((arrange new after x w v).filter fun k ↦ !new k) = w := by
  refine ofLabels_fill new _ w ?_ ?_ hw
  · rw [kept_expand after _ _ (kept_of_arranged h), List.length_map]
  · intro k hk
    rw [inserted_expand after _ _ (kept_of_arranged h), inserted_ofLabels] at hk
    exact (List.mem_filter.mp hk).2

/-- The arrangement keeps `w`. -/
theorem filter_old_arrange (h : (v.filter fun k ↦ !new k) = w.filter fun k ↦ x k = 0)
    (hw : ∀ k ∈ w, new k = false) : ((arrange new after x w v).filter fun k ↦ !new k) = w :=
  (arrange_fill after h hw).2

/-- The script of the arrangement is the re-based script. -/
theorem ofLabels_arrange (h : (v.filter fun k ↦ !new k) = w.filter fun k ↦ x k = 0)
    (hw : ∀ k ∈ w, new k = false) :
    ofLabels new val (arrange new after x w v) = expand after (w.map x) (ofLabels new val v) := by
  rw [ofLabels_eq_map, (arrange_fill after h hw).1, ofLabels_eq_map new val v, expand_map]

theorem filter_new_arrange (h : (v.filter fun k ↦ !new k) = w.filter fun k ↦ x k = 0)
    (hw : ∀ k ∈ w, new k = false) : (arrange new after x w v).filter new = v.filter new := by
  rw [← inserted_ofLabels, (arrange_fill after h hw).1,
    inserted_expand after _ _ (kept_of_arranged h),
    inserted_ofLabels]

/-- The arrangement keeps `v`. -/
theorem filter_arrange (h : (v.filter fun k ↦ !new k) = w.filter fun k ↦ x k = 0)
    (hw : ∀ k ∈ w, new k = false) :
    ((arrange new after x w v).filter fun k ↦ new k || x k == 0) = v := by
  obtain ⟨h1, h2⟩ := arrange_fill after h hw
  refine eq_of_ofLabels_eq new ?_ ?_
  · rw [← shrink_ofLabels, h1, h2, shrink_expand after _ _ (kept_of_arranged h)]
  · rw [h, List.filter_filter]
    conv_rhs => rw [← h2, List.filter_filter]
    refine List.filter_congr fun k _ ↦ ?_
    by_cases hk : new k <;> by_cases hx : x k = 0 <;> simp [hk, hx]

end

end Script

end EeEditor
