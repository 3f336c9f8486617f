import EeEditor.Rope.Regions

/-!
# Replaying a delta by its summary

The summary strips a copy from both ends of a delta. What is left lies between a prefix and a
suffix that the two documents share, so replacing one interval replays the whole edit.
-/

namespace EeEditor

variable {α : Type}

namespace Delta

variable {d : Delta α} {lead trail : Bool} {start end_ : ℕ} {mid : List (DeltaElement α)}

/-- The tail of the elements that are left when the head is stripped. -/
private theorem summary_tail (els : List (DeltaElement α)) (baseLen ivStart : ℕ) :
    ∃ trail end_ mid, els = mid ++ (if trail then [.copy end_ baseLen] else []) ∧
      (trail = false → end_ = baseLen) ∧
      (match els.getLast? with
        | some (.copy beg end_) =>
          if end_ = baseLen then ((ivStart, beg), totalElementLen els.dropLast)
          else ((ivStart, baseLen), totalElementLen els)
        | _ => ((ivStart, baseLen), totalElementLen els))
      = ((ivStart, end_), totalElementLen mid) := by
  induction els using List.reverseRecOn with
  | nil => exact ⟨false, baseLen, [], rfl, fun _ ↦ rfl, rfl⟩
  | append_singleton els el =>
    rw [List.getLast?_concat, List.dropLast_concat]
    cases el with
    | insert n => exact ⟨false, baseLen, els ++ [.insert n], by simp, fun _ ↦ rfl, rfl⟩
    | copy beg end_ =>
      dsimp only
      by_cases hend : end_ = baseLen
      · subst hend
        exact ⟨true, beg, els, rfl, nofun, if_pos rfl⟩
      · exact ⟨false, baseLen, els ++ [.copy beg end_], by simp, fun _ ↦ rfl, if_neg hend⟩

/-- The summary frames the elements that it counts. -/
theorem exists_framed (d : Delta α) : ∃ lead trail mid,
    d.Framed lead trail d.summary.1.1 d.summary.1.2 mid ∧ d.summary.2 = totalElementLen mid := by
  obtain ⟨els, baseLen⟩ := d
  by_cases hcopy : ∃ end_ rest, els = .copy 0 end_ :: rest
  · obtain ⟨start, rest, rfl⟩ := hcopy
    obtain ⟨trail, end_, mid, hrest, htrail, hsum⟩ := summary_tail rest baseLen start
    have heq : (⟨.copy 0 start :: rest, baseLen⟩ : Delta α).summary
        = ((start, end_), totalElementLen mid) := hsum
    refine ⟨true, trail, mid, ⟨?_, nofun, ?_⟩, ?_⟩
    · rw [heq, hrest]
      rfl
    · rw [heq]
      exact htrail
    · rw [heq]
  · obtain ⟨trail, end_, mid, hels, htrail, hsum⟩ := summary_tail els baseLen 0
    have heq : (⟨els, baseLen⟩ : Delta α).summary = ((0, end_), totalElementLen mid) := by
      rw [← hsum]
      -- the first element is no copy from the start of the base
      cases els with
      | nil => rfl
      | cons el rest =>
        cases el with
        | insert n => rfl
        | copy beg end_ =>
          cases beg with
          | zero => exact absurd ⟨_, _, rfl⟩ hcopy
          | succ beg => rfl
    refine ⟨false, trail, mid, ⟨?_, fun _ ↦ ?_, ?_⟩, ?_⟩
    · rw [heq]
      exact hels
    · rw [heq]
    · rw [heq]
      exact htrail
    · rw [heq]

theorem Sorted.apply_eq {base : List α} (h : d.Sorted) (hlen : base.length = d.baseLen) :
    ∃ t, d.apply base = some t ∧ t.map some = (flatten d.els).map (resolve base) := by
  refine apply_of_bounds hlen fun b e hmem ↦ ?_
  have hend := (CopiesSorted.append.mp (show CopiesSorted 0 (d.els ++ []) d.baseLen by
    rw [List.append_nil]; exact h)).2
  have hcopy := CopiesSorted.of_mem h hmem
  exact ⟨hcopy.2.1, hcopy.2.2.trans hend⟩

/-- A summary replays its delta: putting what the new document has in place of an interval of the
base makes the new document, and nothing else changes. -/
structure SummaryReplays (d : Delta α) (base t : List α) : Prop where
  start_le_end : d.summary.1.1 ≤ d.summary.1.2
  end_le : d.summary.1.2 ≤ base.length
  new_le : d.summary.1.1 + d.summary.2 ≤ t.length
  replace : base.take d.summary.1.1 ++ (t.drop d.summary.1.1).take d.summary.2
    ++ base.drop d.summary.1.2 = t
  before : base.take d.summary.1.1 = t.take d.summary.1.1
  after : base.drop d.summary.1.2 = t.drop (d.summary.1.1 + d.summary.2)
  newDocumentLen : d.newDocumentLen = t.length

/-- The copies on both sides leave room for each other. -/
theorem Framed.bounds (h : d.Framed lead trail start end_ mid) (hd : d.Sorted) :
    start ≤ end_ ∧ end_ ≤ d.baseLen := by
  have hlead := h.lead
  have htrail := h.trail
  rw [Sorted, h.els, frame, CopiesSorted.append, CopiesSorted.append] at hd
  obtain ⟨⟨hl, hm⟩, ht⟩ := hd
  have hstart : copiedTo 0 (if lead then [.copy 0 start] else ([] : List (DeltaElement α)))
      = start := by
    cases lead with
    | false => exact (hlead rfl).symm
    | true => rfl
  rw [copiedTo_append, hstart] at ht
  rw [hstart] at hm
  have hmid := hm.le
  rw [copiedTo_append, hstart] at hmid
  cases trail with
  | false => exact ⟨(htrail rfl) ▸ hmid.trans ht.le, (htrail rfl).le⟩
  | true => exact ⟨hmid.trans ht.1, ht.2.1⟩

theorem Framed.flatten_eq (h : d.Framed lead trail start end_ mid) :
    flatten d.els = (List.range' 0 start).map .inl ++ flatten mid
      ++ (List.range' end_ (d.baseLen - end_)).map .inl := by
  have hlead := h.lead
  have htrail := h.trail
  rw [h.els, frame, flatten_append, flatten_append]
  congr 1
  · congr 1
    cases lead with
    | false => rw [hlead rfl]; rfl
    | true => simp [DeltaElement.flat]
  · cases trail with
    | false => rw [htrail rfl, Nat.sub_self]; rfl
    | true => simp [DeltaElement.flat]

theorem Framed.exists_middle {base t : List α} (h : d.Framed lead trail start end_ mid)
    (hd : d.Sorted) (hlen : base.length = d.baseLen)
    (ht : t.map some = (flatten d.els).map (resolve base)) :
    ∃ new, new.length = totalElementLen mid ∧ t = base.take start ++ new ++ base.drop end_ := by
  obtain ⟨hle, hend⟩ := h.bounds hd
  have hbefore := range'_map_getElem? base 0 start (by omega)
  have hafter := range'_map_getElem? base end_ (d.baseLen - end_) (by omega)
  have hrest : (base.drop end_).take (d.baseLen - end_) = base.drop end_ :=
    List.take_of_length_le (by rw [List.length_drop]; omega)
  rw [hrest] at hafter
  rw [List.drop_zero] at hbefore
  rw [h.flatten_eq, List.map_append, List.map_append, List.map_map, List.map_map] at ht
  obtain ⟨t₁₂, t₃, rfl, ht₁₂, ht₃⟩ := List.map_eq_append_iff.mp ht
  obtain ⟨t₁, t₂, rfl, ht₁, ht₂⟩ := List.map_eq_append_iff.mp ht₁₂
  have hinj : Function.Injective (List.map (some : α → Option α)) :=
    List.map_injective_iff.mpr fun _ _ ↦ Option.some.inj
  have hnew := congrArg List.length ht₂
  rw [List.length_map, List.length_map, length_flatten] at hnew
  exact ⟨t₂, hnew, by rw [hinj (ht₁.trans hbefore), hinj (ht₃.trans hafter)]⟩

/-- **The summary of a delta.** -/
theorem Sorted.summaryReplays {base : List α} (h : d.Sorted) (hlen : base.length = d.baseLen) :
    ∃ t, d.apply base = some t ∧ d.SummaryReplays base t := by
  obtain ⟨t, happly, ht⟩ := h.apply_eq hlen
  obtain ⟨lead, trail, mid, hframed, hnew⟩ := d.exists_framed
  obtain ⟨hle, hend⟩ := hframed.bounds h
  obtain ⟨new, hlenNew, htext⟩ := hframed.exists_middle h hlen ht
  have hstart : (base.take d.summary.1.1).length = d.summary.1.1 := by
    rw [List.length_take]
    omega
  have hmid : new.length = d.summary.2 := hlenNew.trans hnew.symm
  have hpref : (base.take d.summary.1.1 ++ new).length = d.summary.1.1 + d.summary.2 := by
    rw [List.length_append, hstart, hmid]
  refine ⟨t, happly, hle, hlen ▸ hend, ?_, ?_, ?_, ?_, ?_⟩
  · rw [htext, List.length_append, hpref]
    exact Nat.le_add_right _ _
  · have hdrop : t.drop d.summary.1.1 = new ++ base.drop d.summary.1.2 := by
      rw [htext, List.append_assoc, List.drop_left' hstart]
    rw [hdrop, List.take_left' hmid]
    exact htext.symm
  · rw [htext, List.append_assoc, List.take_left' hstart]
  · rw [htext, List.drop_left' hpref]
  · have hcount := congrArg List.length ht
    rw [List.length_map, List.length_map, length_flatten] at hcount
    exact hcount.symm

theorem summaryReplays_replacing : ∃ t, replacing.apply (List.range 10) = some t ∧
    replacing.SummaryReplays (List.range 10) t :=
  Sorted.summaryReplays (d := replacing) (by decide) (by decide)

end Delta

end EeEditor
