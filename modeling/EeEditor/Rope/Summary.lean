import EeEditor.Rope.Delta

/-!
# Simple deltas

The model of the queries of `xi-rope/src/delta/apply.rs` that tell a single insertion or a single
deletion from other changes, and of the interval that a delta changes. Both kinds of simple deltas
have one shape: copies around a gap, with the inserted text in the gap.
-/

namespace EeEditor

variable {α : Type}

/-- The length of the section in the new document. -/
def DeltaElement.len : DeltaElement α → ℕ
  | .copy beg end_ => end_ - beg
  | .insert n => n.length

namespace Delta

/-- The text of a simple insertion at `i`, from the elements after a leading `Copy`. -/
def insertedAt (baseLen i : ℕ) : List (DeltaElement α) → Option (List α)
  | [.insert n] => if i = baseLen then some n else none
  | [.insert n, .copy beg end_] => if i = beg ∧ end_ = baseLen then some n else none
  | _ => none

/-- The inserted text, if the delta is a simple insertion. -/
def asSimpleInsert (self : Delta α) : Option (List α) :=
  match self.els with
  | .copy beg end_ :: rest => if beg ≠ 0 then none else insertedAt self.baseLen end_ rest
  | els => insertedAt self.baseLen 0 els

/-- The delta is a single deletion without any insertions. -/
def isSimpleDelete (self : Delta α) : Bool :=
  match self.els with
  | [] => self.baseLen > 0
  | .copy beg end_ :: rest =>
    if beg = 0 then
      match rest with
      | [] => end_ < self.baseLen
      | .copy b1 e1 :: rest => rest.isEmpty && end_ < b1 && e1 = self.baseLen
      | .insert _ :: _ => false
    else end_ = self.baseLen && rest.isEmpty
  | .insert _ :: _ => false

@[grind =] def totalElementLen (els : List (DeltaElement α)) : ℕ := (els.map DeltaElement.len).sum

/-- The length of the document after the delta. -/
def newDocumentLen (self : Delta α) : ℕ := totalElementLen self.els

/-- The interval of the base document outside of which nothing changes, and the length of what
replaces it. -/
def summary (self : Delta α) : (ℕ × ℕ) × ℕ :=
  let (ivStart, els) :=
    match self.els with
    | .copy 0 end_ :: rest => (end_, rest)
    | els => (0, els)
  match els.getLast? with
  | some (.copy beg end_) =>
    if end_ = self.baseLen then ((ivStart, beg), totalElementLen els.dropLast)
    else ((ivStart, self.baseLen), totalElementLen els)
  | _ => ((ivStart, self.baseLen), totalElementLen els)

/-! ## The shape of simple deltas -/

/-- The elements of a delta that puts `mid` between the copies `0..start` and `end..baseLen`. An
empty copy at either end may be missing. -/
def frame (lead trail : Bool) (start end_ baseLen : ℕ) (mid : List (DeltaElement α)) :
    List (DeltaElement α) :=
  (if lead then [.copy 0 start] else []) ++ mid ++ if trail then [.copy end_ baseLen] else []

/-- The elements of a delta are `mid` between two copies. -/
structure Framed (d : Delta α) (lead trail : Bool) (start end_ : ℕ) (mid : List (DeltaElement α)) :
    Prop where
  els : d.els = frame lead trail start end_ d.baseLen mid
  lead : lead = false → start = 0
  trail : trail = false → end_ = d.baseLen

theorem framed_of_asSimpleInsert {d : Delta α} {n : List α} (h : d.asSimpleInsert = some n) :
    ∃ lead trail i, d.Framed lead trail i i [.insert n] := by
  obtain ⟨els, baseLen⟩ := d
  have hrest : ∀ {i : ℕ} {rest : List (DeltaElement α)}, insertedAt baseLen i rest = some n →
      ∃ trail, rest = [.insert n] ++ (if trail then [.copy i baseLen] else []) ∧
        (trail = false → i = baseLen) := by
    intro i rest hins
    rw [insertedAt.eq_def] at hins
    split at hins
    · split at hins
      · next hi => exact ⟨false, by simpa using hins, fun _ ↦ hi⟩
      · cases hins
    · split at hins
      · next hi =>
        obtain ⟨rfl, rfl⟩ := hi
        obtain rfl := Option.some.inj hins
        exact ⟨true, rfl, fun h ↦ absurd h (by simp)⟩
      · cases hins
    · cases hins
  rw [asSimpleInsert] at h
  split at h
  · next beg end_ rest heq =>
    dsimp only at heq
    split at h
    · cases h
    · next hbeg =>
      obtain rfl : beg = 0 := not_not.mp hbeg
      obtain ⟨trail, hels, htrail⟩ := hrest h
      exact ⟨true, trail, end_, by simp [heq, hels, frame], fun h ↦ absurd h (by simp), htrail⟩
  · obtain ⟨trail, hels, htrail⟩ := hrest h
    exact ⟨false, trail, 0, by simpa [frame] using hels, fun _ ↦ rfl, htrail⟩

theorem framed_of_isSimpleDelete {d : Delta α} (h : d.isSimpleDelete = true) :
    ∃ lead trail start end_, d.Framed lead trail start end_ [] ∧ start < end_ := by
  obtain ⟨els, baseLen⟩ := d
  rw [isSimpleDelete] at h
  dsimp only at h
  split at h
  · exact ⟨false, false, 0, baseLen, ⟨rfl, fun _ ↦ rfl, fun _ ↦ rfl⟩, of_decide_eq_true h⟩
  · next beg end_ rest =>
    split at h
    · next hbeg =>
      subst hbeg
      split at h
      · exact ⟨true, false, end_, baseLen, ⟨rfl, fun h ↦ absurd h (by simp), fun _ ↦ rfl⟩,
          of_decide_eq_true h⟩
      · next b1 e1 rest =>
        simp only [Bool.and_eq_true, List.isEmpty_iff, decide_eq_true_iff] at h
        obtain ⟨⟨rfl, hlt⟩, rfl⟩ := h
        exact ⟨true, true, end_, b1, ⟨rfl, fun h ↦ absurd h (by simp),
          fun h ↦ absurd h (by simp)⟩, hlt⟩
      · cases h
    · next hbeg =>
      simp only [Bool.and_eq_true, List.isEmpty_iff, decide_eq_true_iff] at h
      obtain ⟨rfl, rfl⟩ := h
      exact ⟨false, true, 0, beg, ⟨rfl, fun _ ↦ rfl, fun h ↦ absurd h (by simp)⟩, by omega⟩
  · cases h

variable {d : Delta α} {lead trail : Bool} {start end_ : ℕ} {mid : List (DeltaElement α)}

/-- What a framed delta makes of a document that it applies to. -/
theorem Framed.apply_eq {n doc doc' : List α} (h : d.Framed lead trail start end_ mid)
    (hmid : mid = [.insert n] ∨ mid = [] ∧ n = []) (happly : d.apply doc = some doc') :
    doc.length = d.baseLen ∧ end_ ≤ doc.length ∧ doc' = doc.take start ++ n ++ doc.drop end_ := by
  rw [apply] at happly
  split at happly
  · next hlen =>
    rw [h.els, frame, List.foldlM_append, List.foldlM_append] at happly
    obtain ⟨b₂, hmiddle, htrailing⟩ := Option.bind_eq_some_iff.mp happly
    obtain ⟨b₁, hleading, hmiddle⟩ := Option.bind_eq_some_iff.mp hmiddle
    have hb₁ : b₁ = doc.take start := by
      cases lead with
      | false => simpa [h.lead rfl] using hleading.symm
      | true =>
        simp only [if_true, List.foldlM_cons, List.foldlM_nil, Option.bind_eq_bind,
          Option.bind_assoc, Option.bind_eq_some_iff, subseq] at hleading
        obtain ⟨slice, hslice, hleading⟩ := hleading
        split at hslice <;> simp_all
    have hb₂ : b₂ = b₁ ++ n := by
      rcases hmid with rfl | ⟨rfl, rfl⟩
      · simpa using hmiddle.symm
      · simpa using hmiddle.symm
    have hb₃ : end_ ≤ doc.length ∧ doc' = b₂ ++ doc.drop end_ := by
      cases trail with
      | false =>
        have hend : end_ = doc.length := by rw [hlen, h.trail rfl]
        exact ⟨hend.le, by simpa [hend] using htrailing.symm⟩
      | true =>
        simp only [if_true, List.foldlM_cons, List.foldlM_nil, Option.bind_eq_bind,
          Option.bind_assoc, Option.bind_eq_some_iff, subseq] at htrailing
        obtain ⟨slice, hslice, htrailing⟩ := htrailing
        split at hslice
        · next hbounds =>
          obtain rfl := Option.some.inj hslice
          refine ⟨hlen ▸ hbounds.1, ?_⟩
          have hdrop : (doc.drop end_).take (d.baseLen - end_) = doc.drop end_ := by
            rw [List.take_of_length_le]
            rw [List.length_drop]
            omega
          obtain ⟨b₃, hb₃, htrailing⟩ := htrailing
          rw [← Option.some.inj htrailing, ← Option.some.inj hb₃, hdrop]
        · cases hslice
    exact ⟨hlen, hb₃.1, by rw [hb₃.2, hb₂, hb₁]⟩
  · cases happly

/-- The interval of a simple delta. -/
theorem Framed.summary_eq (h : d.Framed lead trail start end_ mid)
    (hmid : (∃ n, mid = [.insert n]) ∨ mid = [] ∧ start < end_) :
    d.summary = ((start, end_), totalElementLen mid) := by
  have hlead := h.lead
  have htrail := h.trail
  rw [summary, h.els]
  rcases hmid with ⟨n, rfl⟩ | ⟨rfl, hlt⟩
  · cases lead <;> cases trail <;> simp_all [frame, totalElementLen]
  · cases lead with
    | true => cases trail <;> simp_all [frame, totalElementLen]
    | false =>
      obtain rfl := hlead rfl
      cases trail with
      | false => simp_all [frame, totalElementLen]
      | true =>
        -- a copy that does not begin at 0 is the trailing one
        obtain ⟨e, rfl⟩ := Nat.exists_eq_succ_of_ne_zero hlt.ne'
        simp [frame, totalElementLen]

/-- Applying further elements only appends. -/
theorem prefix_of_foldlM {base b b' : List α} {els : List (DeltaElement α)}
    (h : els.foldlM (fun b elem ↦
      match elem with
      | .copy beg end_ => do
        let slice ← subseq base beg end_
        return b ++ slice
      | .insert n => some (b ++ n)) b = some b') : b <+: b' := by
  induction els generalizing b with
  | nil =>
    obtain rfl := Option.some.inj h
    exact List.prefix_rfl
  | cons el els ih =>
    rw [List.foldlM_cons, Option.bind_eq_bind, Option.bind_eq_some_iff] at h
    obtain ⟨b₁, hstep, h⟩ := h
    refine List.IsPrefix.trans ?_ (ih h)
    cases el with
    | copy beg end_ =>
      obtain ⟨slice, -, hb₁⟩ := Option.bind_eq_some_iff.mp hstep
      obtain rfl := Option.some.inj hb₁
      exact List.prefix_append _ _
    | insert n =>
      obtain rfl := Option.some.inj hstep
      exact List.prefix_append _ _

theorem summary_start_of_cons {end_ : ℕ} {rest : List (DeltaElement α)}
    (h : d.els = .copy 0 end_ :: rest) : d.summary.1.1 = end_ := by
  rw [summary, h]
  dsimp only
  split
  · split_ifs <;> rfl
  · rfl

theorem summary_start_eq_zero (h : ∀ end_ rest, d.els ≠ .copy 0 end_ :: rest) :
    d.summary.1.1 = 0 := by
  obtain ⟨els, baseLen⟩ := d
  rw [summary]
  split
  next ivStart els' heq =>
  split at heq
  · next end_ rest hels => exact absurd hels (h end_ rest)
  · obtain ⟨rfl, rfl⟩ := Prod.mk.inj heq
    split
    · split_ifs <;> rfl
    · rfl

/-- Nothing changes before the interval of a delta. -/
theorem take_summary {doc doc' : List α} (happly : d.apply doc = some doc') :
    d.summary.1.1 ≤ doc'.length ∧ doc.take d.summary.1.1 = doc'.take d.summary.1.1 := by
  by_cases hcopy : ∃ end_ rest, d.els = .copy 0 end_ :: rest
  · obtain ⟨end_, rest, hels⟩ := hcopy
    rw [summary_start_of_cons hels]
    rw [apply] at happly
    split at happly
    · rw [hels, List.foldlM_cons, Option.bind_eq_bind, Option.bind_eq_some_iff] at happly
      obtain ⟨b, hfirst, hrest⟩ := happly
      obtain ⟨slice, hslice, hb⟩ := Option.bind_eq_some_iff.mp hfirst
      obtain rfl := Option.some.inj hb
      rw [subseq] at hslice
      split at hslice
      · next hbounds =>
        obtain rfl := Option.some.inj hslice
        have hpref := prefix_of_foldlM hrest
        rw [List.nil_append, List.drop_zero, Nat.sub_zero] at hpref
        have hlen : (doc.take end_).length = end_ := by
          rw [List.length_take, min_eq_left hbounds.2]
        have htake := List.prefix_iff_eq_take.mp hpref
        rw [hlen] at htake
        exact ⟨hlen ▸ hpref.length_le, htake⟩
      · cases hslice
    · cases happly
  · rw [summary_start_eq_zero fun end_ rest hels ↦ hcopy ⟨end_, rest, hels⟩]
    exact ⟨Nat.zero_le _, rfl⟩

end Delta

end EeEditor
