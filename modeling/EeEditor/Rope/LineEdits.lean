import Mathlib.Data.List.Pairwise
import EeEditor.Rope.Splices
import EeEditor.Rope.Transformer
import EeEditor.Sequence.Lines
import EeEditor.Sequence.Pieces

/-!
# Edits of single lines

A delta that is built line by line, with at most one range replaced in a line. The lines of the
result are the edited ones. When nothing is taken away and no line is broken, an offset is carried
along to the line that it was on.
-/

namespace EeEditor

variable {α : Type}

/-- A line with the range of an edit replaced. -/
def editedLine (line : List α) : Option (Splice α) → List α
  | none => line
  | some edit => line.take edit.start ++ (edit.new ++ line.drop edit.end_)

/-- One turn of a loop over lines. `none` is a panic. -/
def replaceInLine (builder : DeltaBuilder α) (lineStart : ℕ) :
    Option (Splice α) → Option (DeltaBuilder α)
  | none => some builder
  | some edit => builder.replace (lineStart + edit.start) (lineStart + edit.end_) edit.new

variable {sep : α} {text line tail content out rest : List α} {before : List (List α)}
  {edit : ℕ → List α → Option (Splice α)} {builder builder' : DeltaBuilder α}
  {step : DeltaBuilder α → ℕ → Option (DeltaBuilder α)} {ns : List ℕ} {selected : ℕ → Prop}

/-! ## The text -/

/-- The builder behind what has become of the text up to an offset. -/
structure Reaches (text : List α) (builder : DeltaBuilder α) (offset : ℕ) (out : List α) :
    Prop where
  le : builder.lastOffset ≤ offset
  holds : ∃ content, builder.Holds text content ∧
    content ++ (text.drop builder.lastOffset).take (offset - builder.lastOffset) = out

theorem reaches_new (text : List α) : Reaches text (.new text.length) 0 [] where
  le := Nat.le_refl 0
  holds := ⟨[], DeltaBuilder.holds_new text, rfl⟩

theorem Reaches.copy {start end_ : ℕ} (h : Reaches text builder start out) (hle : start ≤ end_) :
    Reaches text builder end_ (out ++ (text.drop start).take (end_ - start)) where
  le := h.le.trans hle
  holds := by
    obtain ⟨content, hholds, rfl⟩ := h.holds
    exact ⟨content, hholds, by rw [List.append_assoc, take_drop_append h.le hle]⟩

theorem Reaches.replace {start end_ : ℕ} (h : Reaches text builder start out) (hle : start ≤ end_)
    (hend : end_ ≤ text.length) (new : List α) :
    ∃ builder', builder.replace start end_ new = some builder' ∧
      Reaches text builder' end_ (out ++ new) := by
  obtain ⟨content, hholds, rfl⟩ := h.holds
  obtain ⟨builder', heq, hlast, hholds'⟩ := hholds.replace h.le hle hend new
  refine ⟨builder', heq, hlast.le, _, hholds', ?_⟩
  rw [hlast, Nat.sub_self, List.take_zero, List.append_nil, List.append_assoc]

theorem Reaches.build (h : Reaches text builder text.length out) :
    builder.build.apply text = some out := by
  obtain ⟨content, hholds, rfl⟩ := h.holds
  rw [hholds.build, List.take_of_length_le (by rw [List.length_drop])]

/-- One line is edited. -/
theorem Reaches.editLine (h : Reaches text builder (ended sep before).length out)
    (htext : text = ended sep before ++ (line ++ tail)) {e : Option (Splice α)}
    (he : ∀ splice ∈ e, splice.start ≤ splice.end_ ∧ splice.end_ ≤ line.length) :
    ∃ builder', replaceInLine builder (ended sep before).length e = some builder' ∧
      Reaches text builder' ((ended sep before).length + line.length)
        (out ++ editedLine line e) := by
  -- a range of the line, as one of the text
  have hrange : ∀ a b, b ≤ line.length →
      (text.drop ((ended sep before).length + a)).take
        ((ended sep before).length + b - ((ended sep before).length + a)) =
          (line.drop a).take (b - a) := by
    intro a b hb
    rw [htext, List.drop_append, List.drop_append, List.drop_eq_nil_of_le (Nat.le_add_right _ _),
      List.nil_append, Nat.add_sub_cancel_left, Nat.add_sub_add_left,
      List.take_append_of_le_length]
    rw [List.length_drop]
    omega
  have hlength : (ended sep before).length + line.length ≤ text.length := by
    rw [htext, List.length_append, List.length_append]
    omega
  cases e with
  | none =>
    refine ⟨builder, rfl, ?_⟩
    have hcopy := h.copy (Nat.le_add_right _ line.length)
    have hline := hrange 0 line.length (Nat.le_refl _)
    rw [Nat.add_zero] at hline
    rw [hline, List.drop_zero, Nat.sub_zero, List.take_length] at hcopy
    exact hcopy
  | some splice =>
    obtain ⟨hle, hend⟩ := he splice rfl
    have hfirst := h.copy (Nat.le_add_right _ splice.start)
    have hline := hrange 0 splice.start (hle.trans hend)
    rw [Nat.add_zero] at hline
    rw [hline, List.drop_zero, Nat.sub_zero] at hfirst
    obtain ⟨builder', heq, hreaches⟩ := hfirst.replace (Nat.add_le_add_left hle _)
      ((Nat.add_le_add_left hend _).trans hlength) splice.new
    refine ⟨builder', heq, ?_⟩
    have hlast := hreaches.copy (Nat.add_le_add_left hend _)
    have hrest : (line.drop splice.end_).take (line.length - splice.end_) =
        line.drop splice.end_ := List.take_of_length_le (by rw [List.length_drop])
    rw [hrange _ _ (Nat.le_refl _), hrest, List.append_assoc, List.append_assoc] at hlast
    exact hlast

/-! ## What a replacement does -/

variable {start mid end_ : ℕ}

theorem delete_eq_replace (builder : DeltaBuilder α) (start end_ : ℕ) :
    builder.delete start end_ = builder.replace start end_ [] := by
  rw [DeltaBuilder.replace]
  cases builder.delete start end_ <;> rfl

/-- What is passed is copied, and then the replacement is inserted. -/
theorem replace_eq {new : List α} (h : builder.replace start end_ new = some builder') :
    builder.lastOffset ≤ start ∧ builder'.lastOffset = end_ ∧ builder'.baseLen = builder.baseLen ∧
      ∃ inserted, builder'.els = (if start > builder.lastOffset then
        builder.els ++ [.copy builder.lastOffset start] else builder.els) ++ inserted ∧
        (inserted = [] ∨ inserted = [.insert new]) := by
  rw [DeltaBuilder.replace, DeltaBuilder.delete] at h
  rcases Nat.lt_or_ge start builder.lastOffset with hlt | hle
  · rw [if_neg (Nat.not_le.mpr hlt)] at h
    cases h
  · rw [if_pos hle, Option.bind_eq_bind, Option.bind_some] at h
    cases new with
    | nil =>
      obtain rfl := Option.some.inj h
      exact ⟨hle, rfl, rfl, [], (List.append_nil _).symm, .inl rfl⟩
    | cons a new =>
      obtain rfl := Option.some.inj h
      exact ⟨hle, rfl, rfl, _, rfl, .inr rfl⟩

/-! ## Copying everything -/

/-- The sections copy everything between two offsets, with text of a kind in between. -/
def KeepsAll (p : List α → Prop) : ℕ → List (DeltaElement α) → ℕ → Prop
  | start, [], end_ => start = end_
  | start, .copy beg mid :: els, end_ => beg = start ∧ start < mid ∧ KeepsAll p mid els end_
  | start, .insert new :: els, end_ => p new ∧ KeepsAll p start els end_

variable {p : List α → Prop} {els els' : List (DeltaElement α)}

theorem KeepsAll.append (h : KeepsAll p start els mid) (h' : KeepsAll p mid els' end_) :
    KeepsAll p start (els ++ els') end_ := by
  induction els generalizing start with
  | nil => exact (show start = mid from h) ▸ h'
  | cons el els ih =>
    cases el with
    | copy beg e => exact ⟨h.1, h.2.1, ih h.2.2⟩
    | insert new => exact ⟨h.1, ih h.2⟩

theorem KeepsAll.le (h : KeepsAll p start els end_) : start ≤ end_ := by
  induction els generalizing start with
  | nil => exact (show start = end_ from h).le
  | cons el els ih =>
    cases el with
    | copy beg e => exact h.2.1.le.trans (ih h.2.2)
    | insert new => exact ih h.2

theorem KeepsAll.append_copy (h : KeepsAll p start els mid) (hle : mid ≤ end_) :
    KeepsAll p start (if end_ > mid then els ++ [.copy mid end_] else els) end_ := by
  split_ifs with hlt
  · exact h.append ⟨rfl, hlt, rfl⟩
  · rwa [← Nat.le_antisymm hle (Nat.not_lt.mp hlt)]

theorem KeepsAll.insert_before (h : KeepsAll p 0 builder.els builder.lastOffset) {offset : ℕ}
    {new : List α} (hnew : p new) (hreplace : builder.replace offset offset new = some builder') :
    KeepsAll p 0 builder'.els builder'.lastOffset := by
  obtain ⟨hle, hlast, -, inserted, hels, hinserted⟩ := replace_eq hreplace
  rw [hlast, hels]
  refine (h.append_copy hle).append ?_
  rcases hinserted with rfl | rfl
  · rfl
  · exact ⟨hnew, rfl⟩

theorem KeepsAll.build (h : KeepsAll p 0 builder.els builder.lastOffset)
    (hle : builder.lastOffset ≤ builder.baseLen) :
    KeepsAll p 0 builder.build.els builder.baseLen :=
  h.append_copy hle

/-- What sections make of a text. -/
def produced (text : List α) (els : List (DeltaElement α)) : List α :=
  els.flatMap fun
    | .copy beg end_ => (text.drop beg).take (end_ - beg)
    | .insert new => new

theorem KeepsAll.apply_eq (h : KeepsAll p 0 els text.length) :
    (⟨els, text.length⟩ : Delta α).apply text = some (produced text els) := by
  suffices hrest : ∀ els start content, KeepsAll p start els text.length →
      els.foldlM (fun b elem ↦
        match elem with
        | .copy beg end_ => do
          let slice ← subseq text beg end_
          return b ++ slice
        | .insert n => some (b ++ n)) content = some (content ++ produced text els) by
    rw [Delta.apply, if_pos rfl]
    exact hrest els 0 [] h
  intro els
  induction els with
  | nil => exact fun _ content _ ↦ by rw [produced, List.flatMap_nil, List.append_nil]; rfl
  | cons el els ih =>
    intro start content h
    rw [List.foldlM_cons, produced, List.flatMap_cons, ← List.append_assoc]
    cases el with
    | copy beg e =>
      obtain ⟨rfl, hlt, hrest⟩ := h
      simp only [subseq_eq hlt.le hrest.le, Option.bind_eq_bind, Option.bind_some, Option.pure_def]
      exact ih e _ hrest
    | insert new => exact ih start _ h.2

/-! ## What is copied -/

theorem covers_replace {new : List α} (hreplace : builder.replace start end_ new = some builder')
    (i : ℕ) : (∃ el ∈ builder'.els, el.Covers i) ↔
      (∃ el ∈ builder.els, el.Covers i) ∨ builder.lastOffset ≤ i ∧ i < start := by
  obtain ⟨-, -, -, inserted, hels, hinserted⟩ := replace_eq hreplace
  have hnone : ¬ ∃ el ∈ inserted, el.Covers i := by
    rcases hinserted with rfl | rfl <;> simp [DeltaElement.Covers]
  simp only [hels, List.mem_append, or_and_right, exists_or, or_iff_left hnone]
  split_ifs with hgap
  · simp [List.mem_append, or_and_right, exists_or, DeltaElement.Covers]
  · exact (or_iff_left (by omega)).symm

theorem copy_ends_replace {q : ℕ → Prop} (hlast : q builder.lastOffset)
    (hcopies : ∀ b e, .copy b e ∈ builder.els → q b ∧ q e) (hstart : q start) {new : List α}
    (hreplace : builder.replace start end_ new = some builder') :
    ∀ b e, .copy b e ∈ builder'.els → q b ∧ q e := by
  obtain ⟨-, -, -, inserted, hels, hinserted⟩ := replace_eq hreplace
  intro b e hmem
  rw [hels] at hmem
  rcases List.mem_append.mp hmem with hmem | hmem
  · split_ifs at hmem
    · rcases List.mem_append.mp hmem with hmem | hmem
      · exact hcopies b e hmem
      · cases List.mem_singleton.mp hmem
        exact ⟨hlast, hstart⟩
    · exact hcopies b e hmem
  · rcases hinserted with rfl | rfl <;> simp at hmem

theorem covers_build_iff (builder : DeltaBuilder α) (i : ℕ) : builder.build.Covers i ↔
    (∃ el ∈ builder.els, el.Covers i) ∨ builder.lastOffset ≤ i ∧ i < builder.baseLen := by
  rw [DeltaBuilder.build, Delta.Covers]
  dsimp only
  split_ifs with hlt
  · simp [List.mem_append, or_and_right, exists_or, DeltaElement.Covers]
  · exact (or_iff_left (by omega)).symm

/-! ## Loops over lines -/

variable [DecidableEq α]

/-- The turns of a loop over lines edit those of the text that are selected. -/
structure EditsLines (sep : α) (text : List α) (selected : ℕ → Prop)
    (edit : ℕ → List α → Option (Splice α))
    (step : DeltaBuilder α → ℕ → Option (DeltaBuilder α)) : Prop where
  line : ∀ n line builder, selected n → (text.splitOn sep)[n]? = some line →
    step builder n = replaceInLine builder (startOfLine sep text n) (edit n line)
  past : ∀ n builder, selected n → (text.splitOn sep)[n]? = none → step builder n = some builder
  within : ∀ n line, ∀ splice ∈ edit n line,
    splice.start ≤ splice.end_ ∧ splice.end_ ≤ line.length

theorem foldlM_past (h : EditsLines sep text selected edit step)
    (hselected : ∀ n ∈ ns, selected n) (hns : ∀ n ∈ ns, (text.splitOn sep).length ≤ n)
    (builder : DeltaBuilder α) : ns.foldlM step builder = some builder := by
  induction ns with
  | nil => rfl
  | cons n ns ih =>
    rw [List.forall_mem_cons] at hselected hns
    rw [List.foldlM_cons, h.past n _ hselected.1 (List.getElem?_eq_none hns.1),
      Option.bind_eq_bind, Option.bind_some, ih hselected.2 hns.2]

/-- The loop goes past one line. -/
theorem exists_foldlM_line (h : EditsLines sep text selected edit step) {n : ℕ}
    (hline : (text.splitOn sep)[n]? = some line) (hsorted : ns.Pairwise (· < ·))
    (hselected : n ∈ ns → selected n) (hfrom : ∀ k ∈ ns, n ≤ k)
    (hskip : n ∉ ns → edit n line = none) (builder : DeltaBuilder α) :
    ∃ ns' : List ℕ, ns'.Pairwise (· < ·) ∧ (∀ k ∈ ns', n < k) ∧
      (∀ k, n < k → (k ∈ ns' ↔ k ∈ ns)) ∧ ns.foldlM step builder =
        (replaceInLine builder (startOfLine sep text n) (edit n line)).bind (ns'.foldlM step) := by
  have hlater : n ∉ ns → ∀ k ∈ ns, n < k := fun hn k hk ↦
    Nat.lt_of_le_of_ne (hfrom k hk) fun heq ↦ hn (heq ▸ hk)
  by_cases hn : n ∈ ns
  · cases ns with
    | nil => exact absurd hn List.not_mem_nil
    | cons first ns =>
      obtain ⟨hfirst, hsorted⟩ := List.pairwise_cons.mp hsorted
      obtain rfl : first = n := by
        rcases List.mem_cons.mp hn with rfl | hn
        · rfl
        · exact absurd (hfirst n hn) (Nat.not_lt.mpr (hfrom first List.mem_cons_self))
      refine ⟨ns, hsorted, hfirst, fun k hk ↦ ?_, ?_⟩
      · rw [List.mem_cons, or_iff_right hk.ne']
      · rw [List.foldlM_cons, h.line _ _ _ (hselected hn) hline]
        rfl
  · refine ⟨ns, hsorted, hlater hn, fun _ _ ↦ Iff.rfl, ?_⟩
    rw [hskip hn]
    rfl

/-- **The lines of the result are the edited ones.** -/
theorem foldlM_lines (h : EditsLines sep text selected edit step) (hsorted : ns.Pairwise (· < ·))
    (hselected : ∀ n ∈ ns, selected n) (hskip : ∀ n line, n ∉ ns → edit n line = none) :
    ∃ builder, ns.foldlM step (.new text.length) = some builder ∧
      Reaches text builder text.length ([sep].intercalate
        ((text.splitOn sep).mapIdx fun n line ↦ editedLine line (edit n line))) := by
  -- the lines before `rest` are done
  suffices hrest : ∀ (rest : List α) (before : List (List α)) (out : List α)
      (ns : List ℕ) (builder : DeltaBuilder α), text = ended sep before ++ rest →
      (∀ line ∈ before, sep ∉ line) → Reaches text builder (ended sep before).length out →
      ns.Pairwise (· < ·) → (∀ k ∈ ns, selected k) → (∀ k ∈ ns, before.length ≤ k) →
      (∀ n line, before.length ≤ n → n ∉ ns → edit n line = none) →
      ∃ builder', ns.foldlM step builder = some builder' ∧
        Reaches text builder' text.length (out ++ [sep].intercalate
          ((rest.splitOn sep).mapIdx fun n line ↦
            editedLine line (edit (before.length + n) line))) by
    obtain ⟨builder, hrun, hout⟩ := hrest text [] [] ns _ rfl nofun (reaches_new text) hsorted
      hselected (fun k _ ↦ Nat.zero_le k) fun n line _ hn ↦ hskip n line hn
    simp only [List.length_nil, Nat.zero_add, List.nil_append] at hout
    exact ⟨builder, hrun, hout⟩
  intro rest
  induction rest using lines_induction sep with
  | last line hline =>
    intro before out ns builder htext hbefore hreaches hsorted hselected hfrom hskip
    have hsplit : text.splitOn sep = before ++ [line] := by
      rw [htext, splitOn_ended hbefore, List.splitOn_eq_singleton hline]
    have hstart : startOfLine sep text before.length = (ended sep before).length := by
      have hoffset := startOfLine_ended hbefore line 0
      rwa [Nat.add_zero, startOfLine, Nat.add_zero, ← htext] at hoffset
    obtain ⟨ns', -, hlater, hmem, hrun⟩ := exists_foldlM_line h
      (by rw [hsplit, List.getElem?_concat_length]) hsorted (hselected _) hfrom
      (hskip _ line (Nat.le_refl _)) builder
    obtain ⟨builder', heq, hreaches⟩ := hreaches.editLine (by rw [htext, List.append_nil])
      (h.within before.length line)
    have hpast : ∀ n ∈ ns', (text.splitOn sep).length ≤ n := fun n hn ↦ by
      rw [hsplit, List.length_append]
      exact hlater n hn
    rw [hrun, hstart, heq, Option.bind_some, foldlM_past h (fun n hn ↦
      hselected n ((hmem n (hlater n hn)).mp hn)) hpast]
    refine ⟨builder', rfl, ?_⟩
    have hlength : (ended sep before).length + line.length = text.length := by
      rw [htext, List.length_append]
    rw [hlength] at hreaches
    rwa [List.splitOn_eq_singleton hline, List.mapIdx_singleton, List.intercalate_singleton,
      Nat.add_zero]
  | cons line rest hline ih =>
    intro before out ns builder htext hbefore hreaches hsorted hselected hfrom hskip
    have hsplit : text.splitOn sep = before ++ line :: rest.splitOn sep := by
      rw [htext, splitOn_ended hbefore, List.splitOn_append_cons_self_of_not_mem hline]
    have hstart : startOfLine sep text before.length = (ended sep before).length := by
      have hoffset := startOfLine_ended hbefore (line ++ sep :: rest) 0
      rwa [Nat.add_zero, startOfLine, Nat.add_zero, ← htext] at hoffset
    obtain ⟨ns', hsorted', hlater, hmem, hrun⟩ := exists_foldlM_line h
      (by rw [hsplit, List.getElem?_append_right (Nat.le_refl _), Nat.sub_self,
        List.getElem?_cons_zero]) hsorted (hselected _) hfrom (hskip _ line (Nat.le_refl _)) builder
    obtain ⟨builder', heq, hreaches⟩ := hreaches.editLine htext (h.within before.length line)
    have hended : ended sep (before ++ [line]) = ended sep before ++ (line ++ [sep]) := by
      rw [ended_append, ended_cons, ended_nil]
    have hnext := hreaches.copy (Nat.le_add_right _ 1)
    have hnewline : (text.drop ((ended sep before).length + line.length)).take
        ((ended sep before).length + line.length + 1 -
          ((ended sep before).length + line.length)) = [sep] := by
      rw [htext, ← List.append_assoc, List.drop_left' (by rw [List.length_append]),
        Nat.add_sub_cancel_left]
      rfl
    rw [hnewline] at hnext
    have hlength : (ended sep (before ++ [line])).length =
        (ended sep before).length + line.length + 1 := by
      rw [hended, List.length_append, List.length_append, List.length_singleton, Nat.add_assoc]
    rw [← hlength] at hnext
    obtain ⟨builder'', hrun', hout⟩ := ih (before ++ [line]) _ ns' builder'
      (by rw [hended, htext]; simp)
      (List.forall_mem_append.mpr ⟨hbefore, List.forall_mem_singleton.mpr hline⟩) hnext hsorted'
      (fun k hk ↦ hselected k ((hmem k (hlater k hk)).mp hk))
      (fun k hk ↦ by rw [List.length_append]; exact hlater k hk)
      (fun n line' hn hnot ↦ by
        rw [List.length_append, List.length_singleton] at hn
        exact hskip n line' (by omega) fun hn' ↦ hnot ((hmem n hn).mpr hn'))
    refine ⟨builder'', ?_, ?_⟩
    · rw [hrun, hstart, heq, Option.bind_some, hrun']
    · rw [List.splitOn_append_cons_self_of_not_mem hline, List.mapIdx_cons,
        List.intercalate_cons_of_ne_nil (by simp)]
      simpa [Nat.add_assoc, Nat.add_comm 1] using hout

/-- The lines are still the lines when no line was broken. -/
theorem splitOn_mapIdx {f : ℕ → List α → List α}
    (hf : ∀ n line, sep ∉ line → sep ∉ f n line) (text : List α) :
    ([sep].intercalate ((text.splitOn sep).mapIdx f)).splitOn sep =
      (text.splitOn sep).mapIdx f := by
  refine List.splitOn_intercalate sep (fun line hline ↦ ?_) ?_
  · obtain ⟨n, hn, rfl⟩ := List.mem_mapIdx.mp hline
    exact hf n _ (notMem_of_mem_splitOn (List.getElem_mem hn))
  · rw [← List.length_pos_iff, List.length_mapIdx, length_splitOn]
    exact Nat.succ_pos _

/-- Up to where an offset is carried there are as many newlines as before. -/
theorem KeepsAll.count_take (h : KeepsAll (fun new ↦ sep ∉ new) start els text.length)
    {offset : ℕ} (hle : start ≤ offset) (hoffset : offset ≤ text.length) :
    ((produced text els).take (Transformer.walkLen offset true els)).count sep =
      ((text.drop start).take (offset - start)).count sep := by
  induction els generalizing start with
  | nil =>
    rw [show start = text.length from h, Nat.sub_eq_zero_of_le hoffset]
    rfl
  | cons el els ih =>
    rw [produced, List.flatMap_cons]
    cases el with
    | insert new =>
      rw [Transformer.walkLen_insert, List.take_length_add_append, List.count_append,
        List.count_eq_zero.mpr h.1, Nat.zero_add]
      exact ih h.2 hle
    | copy beg e =>
      obtain ⟨rfl, hlt, hrest⟩ := h
      have hend := hrest.le
      have hlength : ((text.drop beg).take (e - beg)).length = e - beg := by
        rw [List.length_take, List.length_drop]
        omega
      rw [Transformer.walkLen_copy]
      split_ifs with hstart hinside
      · rw [Nat.sub_eq_zero_of_le hstart]
        rfl
      · have hinside : offset ≤ e := by omega
        rw [List.take_append_of_le_length (by rw [hlength]; omega), List.take_take,
          Nat.min_eq_left (by omega)]
      · have hbehind : e ≤ offset := by
          simp only [and_false, or_false, not_lt] at hinside
          exact hinside
        nth_rewrite 1 [← hlength]
        rw [List.take_length_add_append, List.count_append, ← take_drop_append hlt.le hbehind,
          List.count_append]
        exact congrArg _ (ih hrest hbehind)

/-- Insertions into lines copy everything. -/
theorem EditsLines.keepsAll (h : EditsLines sep text selected edit step)
    (hselected : ∀ n ∈ ns, selected n)
    (hinserts : ∀ n line, selected n → (text.splitOn sep)[n]? = some line →
      ∀ splice ∈ edit n line, splice.start = splice.end_ ∧ sep ∉ splice.new)
    (hcopies : KeepsAll (fun new ↦ sep ∉ new) 0 builder.els builder.lastOffset)
    (hrun : ns.foldlM step builder = some builder') :
    KeepsAll (fun new ↦ sep ∉ new) 0 builder'.els builder'.lastOffset := by
  induction ns generalizing builder with
  | nil =>
    cases hrun
    exact hcopies
  | cons n ns ih =>
    obtain ⟨hn, hselected⟩ := List.forall_mem_cons.mp hselected
    rw [List.foldlM_cons, Option.bind_eq_bind] at hrun
    obtain ⟨next, hnext, hrun⟩ := Option.bind_eq_some_iff.mp hrun
    refine ih hselected ?_ hrun
    cases hline : (text.splitOn sep)[n]? with
    | none =>
      rw [h.past n _ hn hline] at hnext
      exact Option.some.inj hnext ▸ hcopies
    | some line =>
      rw [h.line n line _ hn hline] at hnext
      cases hedit : edit n line with
      | none =>
        rw [hedit] at hnext
        exact Option.some.inj hnext ▸ hcopies
      | some splice =>
        obtain ⟨hstart, hnew⟩ := hinserts n line hn hline splice hedit
        rw [hedit, replaceInLine, hstart] at hnext
        exact hcopies.insert_before hnew hnext

/-- The position is taken away from its line. -/
def TakesAway (sep : α) (text : List α) (ns : List ℕ) (edit : ℕ → List α → Option (Splice α))
    (i : ℕ) : Prop :=
  ∃ n ∈ ns, ∃ line, (text.splitOn sep)[n]? = some line ∧ ∃ splice ∈ edit n line,
    startOfLine sep text n + splice.start ≤ i ∧ i < startOfLine sep text n + splice.end_

/-- The loop copies what it passes and does not take away. -/
theorem EditsLines.covers (h : EditsLines sep text selected edit step)
    (hselected : ∀ n ∈ ns, selected n) (hrun : ns.foldlM step builder = some builder') :
    builder.lastOffset ≤ builder'.lastOffset ∧ builder'.baseLen = builder.baseLen ∧
      (∀ i, TakesAway sep text ns edit i → builder.lastOffset ≤ i ∧ i < builder'.lastOffset) ∧
      ∀ i, (∃ el ∈ builder'.els, el.Covers i) ↔ (∃ el ∈ builder.els, el.Covers i) ∨
        builder.lastOffset ≤ i ∧ i < builder'.lastOffset ∧ ¬ TakesAway sep text ns edit i := by
  induction ns generalizing builder with
  | nil =>
    cases hrun
    exact ⟨Nat.le_refl _, rfl, fun i ⟨n, hn, _⟩ ↦ absurd hn List.not_mem_nil,
      fun i ↦ (or_iff_left (by omega)).symm⟩
  | cons n ns ih =>
    obtain ⟨hn, hselected⟩ := List.forall_mem_cons.mp hselected
    rw [List.foldlM_cons, Option.bind_eq_bind] at hrun
    obtain ⟨next, hnext, hrun⟩ := Option.bind_eq_some_iff.mp hrun
    obtain ⟨hle, hbase, hcuts, hcovers⟩ := ih hselected hrun
    -- what the first line has taken away
    have hcons (i : ℕ) : TakesAway sep text (n :: ns) edit i ↔
      (∃ line, (text.splitOn sep)[n]? = some line ∧
        ∃ splice ∈ edit n line, startOfLine sep text n + splice.start ≤ i ∧
          i < startOfLine sep text n + splice.end_) ∨ TakesAway sep text ns edit i :=
      List.exists_mem_cons_iff ..
    have hsame (hnone : ∀ line, (text.splitOn sep)[n]? = some line → edit n line = none)
        (heq : next = builder) : builder.lastOffset ≤ builder'.lastOffset ∧
          builder'.baseLen = builder.baseLen ∧
          (∀ i, TakesAway sep text (n :: ns) edit i → builder.lastOffset ≤ i ∧
            i < builder'.lastOffset) ∧
          ∀ i, (∃ el ∈ builder'.els, el.Covers i) ↔ (∃ el ∈ builder.els, el.Covers i) ∨
            builder.lastOffset ≤ i ∧ i < builder'.lastOffset ∧
              ¬ TakesAway sep text (n :: ns) edit i := by
      subst heq
      have hcut (i : ℕ) : TakesAway sep text (n :: ns) edit i ↔ TakesAway sep text ns edit i := by
        rw [hcons, or_iff_right]
        rintro ⟨line, hline, splice, hsplice, -⟩
        rw [hnone line hline] at hsplice
        cases hsplice
      simp only [hcut]
      exact ⟨hle, hbase, hcuts, hcovers⟩
    cases hline : (text.splitOn sep)[n]? with
    | none =>
      rw [h.past n _ hn hline] at hnext
      exact hsame (fun line hsome ↦ by rw [hline] at hsome; cases hsome)
        (Option.some.inj hnext).symm
    | some line =>
      rw [h.line n line _ hn hline] at hnext
      cases hedit : edit n line with
      | none =>
        rw [hedit] at hnext
        exact hsame (fun line' hsome ↦ by
          obtain rfl := Option.some.inj (hline.symm.trans hsome)
          exact hedit) (Option.some.inj hnext).symm
      | some splice =>
        obtain ⟨hstart, -⟩ := h.within n line splice hedit
        rw [hedit, replaceInLine] at hnext
        obtain ⟨hlast, hend, hbase', -⟩ := replace_eq hnext
        have hfirst := covers_replace hnext
        have hcut (i : ℕ) : TakesAway sep text (n :: ns) edit i ↔
            (startOfLine sep text n + splice.start ≤ i ∧ i < startOfLine sep text n + splice.end_) ∨
              TakesAway sep text ns edit i := by
          rw [hcons]
          refine or_congr ⟨?_, fun hi ↦ ⟨line, hline, splice, hedit, hi⟩⟩ Iff.rfl
          rintro ⟨line', hline', splice', hsplice', hi⟩
          obtain rfl := Option.some.inj (hline.symm.trans hline')
          obtain rfl := Option.some.inj (hedit.symm.trans hsplice')
          exact hi
        refine ⟨by omega, hbase.trans hbase', fun i hi ↦ ?_, fun i ↦ ?_⟩
        · rcases (hcut i).mp hi with hi | hi
          · omega
          · have hi := hcuts i hi
            omega
        · have hlater := hcuts i
          rw [hcovers, hfirst, hcut, or_assoc]
          refine or_congr Iff.rfl ?_
          by_cases hi : TakesAway sep text ns edit i
          · have hi' := hlater hi
            simp only [hi, not_true_eq_false, and_false, or_true, or_false, iff_false]
            omega
          · simp only [hi, not_false_eq_true, and_true, or_false]
            omega

theorem EditsLines.covers_build (h : EditsLines sep text selected edit step)
    (hselected : ∀ n ∈ ns, selected n)
    (hrun : ns.foldlM step (.new text.length) = some builder')
    (hle : builder'.lastOffset ≤ text.length) (i : ℕ) :
    builder'.build.Covers i ↔ i < text.length ∧ ¬ TakesAway sep text ns edit i := by
  obtain ⟨-, hbase, hcuts, hcovers⟩ := h.covers hselected hrun
  have hnone : ¬ ∃ el ∈ (DeltaBuilder.new text.length : DeltaBuilder α).els, el.Covers i :=
    fun ⟨_, hmem, _⟩ ↦ absurd hmem List.not_mem_nil
  have hlength : builder'.baseLen = text.length := hbase
  have hzero : (DeltaBuilder.new text.length : DeltaBuilder α).lastOffset = 0 := rfl
  have hcut := hcuts i
  rw [covers_build_iff, hcovers, or_iff_right hnone, hlength, hzero]
  rw [hzero] at hcut
  by_cases hi : TakesAway sep text ns edit i
  · have hi' := hcut hi
    simp only [hi, not_true_eq_false, and_false, false_or, iff_false]
    omega
  · simp only [hi, not_false_eq_true, and_true]
    omega

instance (el : DeltaElement α) (i : ℕ) : Decidable (el.Covers i) :=
  match el with
  | .copy b e => inferInstanceAs (Decidable (b ≤ i ∧ i < e))
  | .insert _ => inferInstanceAs (Decidable False)

instance (delta : Delta α) (i : ℕ) : Decidable (delta.Covers i) :=
  inferInstanceAs (Decidable (∃ el ∈ delta.els, el.Covers i))

/-- What a delta takes away from a line. -/
def removedFrom (sep : α) (delta : Delta α) (text : List α) (n : ℕ) : List α :=
  ((List.range' (startOfLine sep text n) (((text.splitOn sep)[n]?).getD []).length).filter
    (¬ delta.Covers ·)).filterMap (text[·]?)

omit [DecidableEq α] in
theorem filterMap_getElem? (text : List α) (start k : ℕ) :
    (List.range' start k).filterMap (text[·]?) = (text.drop start).take k := by
  induction k generalizing start with
  | zero => rfl
  | succ k ih =>
    rw [List.range'_succ]
    cases hget : text[start]? with
    | none =>
      have hlen := List.getElem?_eq_none_iff.mp hget
      rw [List.filterMap_cons_none hget, ih, List.drop_eq_nil_of_le hlen,
        List.drop_eq_nil_of_le (hlen.trans (Nat.le_succ _)), List.take_nil, List.take_nil]
    | some a =>
      obtain ⟨hlt, rfl⟩ := List.getElem?_eq_some_iff.mp hget
      rw [List.filterMap_cons_some hget, ih, List.drop_eq_getElem_cons hlt, List.take_succ_cons]

theorem filter_range'_between {start k p q : ℕ} (hpq : p ≤ q) (hqk : q ≤ k) :
    (List.range' start k).filter (fun i ↦ start + p ≤ i ∧ i < start + q) =
      List.range' (start + p) (q - p) := by
  have hsplit : List.range' start k = List.range' start p ++
      (List.range' (start + p) (q - p) ++ List.range' (start + q) (k - q)) := by
    have hk : k = p + ((q - p) + (k - q)) := by omega
    conv_lhs => rw [hk, ← List.range'_append_1, ← List.range'_append_1]
    rw [show start + p + (q - p) = start + q by omega]
  rw [hsplit, List.filter_append, List.filter_append, List.filter_eq_nil_iff.mpr,
    List.filter_eq_self.mpr, List.filter_eq_nil_iff.mpr, List.nil_append, List.append_nil]
  all_goals
    intro i hi
    rw [List.mem_range'_1] at hi
    simp only [decide_eq_true_eq]
    omega

/-- From each line its cut is taken away. -/
theorem EditsLines.removedFrom_eq (h : EditsLines sep text selected edit step)
    (hselected : ∀ n ∈ ns, selected n) (hskip : ∀ n line, n ∉ ns → edit n line = none)
    (hrun : ns.foldlM step (.new text.length) = some builder')
    (hle : builder'.lastOffset ≤ text.length) {n : ℕ}
    (hline : (text.splitOn sep)[n]? = some line) :
    removedFrom sep builder'.build text n = match edit n line with
      | none => []
      | some splice => (line.drop splice.start).take (splice.end_ - splice.start) := by
  obtain ⟨tail, htail⟩ := drop_startOfLine hline
  have hlength := congrArg List.length htail
  rw [List.length_drop, List.length_append] at hlength
  -- only its own cut reaches into the line
  have hcut : ∀ i, startOfLine sep text n ≤ i → i < startOfLine sep text n + line.length →
      (¬ builder'.build.Covers i ↔ ∃ splice ∈ edit n line,
        startOfLine sep text n + splice.start ≤ i ∧ i < startOfLine sep text n + splice.end_) := by
    intro i hfrom hto
    rw [h.covers_build hselected hrun hle, and_iff_right (by omega), not_not]
    constructor
    · rintro ⟨m, -, line', hline', splice, hsplice, hi⟩
      obtain ⟨-, hend⟩ := h.within m line' splice hsplice
      rcases Nat.lt_trichotomy m n with hlt | rfl | hlt
      · have hbefore := startOfLine_add_lt hline' hlt (List.getElem?_eq_some_iff.mp hline).1
        omega
      · obtain rfl := Option.some.inj (hline.symm.trans hline')
        exact ⟨splice, hsplice, hi⟩
      · have hbehind := startOfLine_add_lt hline hlt (List.getElem?_eq_some_iff.mp hline').1
        omega
    · rintro ⟨splice, hsplice, hi⟩
      have hn : n ∈ ns := by
        by_contra hn
        rw [hskip n line hn] at hsplice
        cases hsplice
      exact ⟨n, hn, line, hline, splice, hsplice, hi⟩
  rw [removedFrom, hline, Option.getD_some]
  cases hedit : edit n line with
  | none =>
    rw [List.filter_eq_nil_iff.mpr, List.filterMap_nil]
    intro i hi
    rw [List.mem_range'_1] at hi
    simp [hcut i hi.1 hi.2, hedit]
  | some splice =>
    obtain ⟨hstart, hend⟩ := h.within n line splice hedit
    have hfilter : (List.range' (startOfLine sep text n) line.length).filter
        (¬ builder'.build.Covers ·) = List.range' (startOfLine sep text n + splice.start)
          (splice.end_ - splice.start) := by
      rw [← filter_range'_between hstart hend]
      refine List.filter_congr fun i hi ↦ ?_
      rw [List.mem_range'_1] at hi
      rw [decide_eq_decide, hcut i hi.1 hi.2, hedit]
      simp
    rw [hfilter, filterMap_getElem?, ← List.drop_drop, htail,
      List.drop_append_of_le_length (hstart.trans hend), List.take_append_of_le_length]
    rw [List.length_drop]
    omega

/-- Copies begin and end where the cuts of the lines do. -/
theorem EditsLines.copy_ends (h : EditsLines sep text selected edit step) {q : ℕ → Prop}
    (hselected : ∀ n ∈ ns, selected n)
    (hcuts : ∀ n ∈ ns, ∀ line, (text.splitOn sep)[n]? = some line → ∀ splice ∈ edit n line,
      q (startOfLine sep text n + splice.start) ∧ q (startOfLine sep text n + splice.end_))
    (hlast : q builder.lastOffset) (hcopies : ∀ b e, .copy b e ∈ builder.els → q b ∧ q e)
    (hrun : ns.foldlM step builder = some builder') :
    q builder'.lastOffset ∧ ∀ b e, .copy b e ∈ builder'.els → q b ∧ q e := by
  induction ns generalizing builder with
  | nil =>
    cases hrun
    exact ⟨hlast, hcopies⟩
  | cons n ns ih =>
    obtain ⟨hn, hselected⟩ := List.forall_mem_cons.mp hselected
    obtain ⟨hcut, hcuts⟩ := List.forall_mem_cons.mp hcuts
    rw [List.foldlM_cons, Option.bind_eq_bind] at hrun
    obtain ⟨next, hnext, hrun⟩ := Option.bind_eq_some_iff.mp hrun
    have hstep : q next.lastOffset ∧ ∀ b e, .copy b e ∈ next.els → q b ∧ q e := by
      cases hline : (text.splitOn sep)[n]? with
      | none =>
        rw [h.past n _ hn hline] at hnext
        exact Option.some.inj hnext ▸ ⟨hlast, hcopies⟩
      | some line =>
        rw [h.line n line _ hn hline] at hnext
        cases hedit : edit n line with
        | none =>
          rw [hedit] at hnext
          exact Option.some.inj hnext ▸ ⟨hlast, hcopies⟩
        | some splice =>
          obtain ⟨hstart, hend⟩ := hcut line hline splice hedit
          rw [hedit] at hnext
          rw [replaceInLine] at hnext
          exact ⟨(replace_eq hnext).2.1 ▸ hend, copy_ends_replace hlast hcopies hstart hnext⟩
    exact ih hselected hcuts hstep.1 hstep.2 hrun

/-! ## Loops that know whether anything has changed -/

variable {flagged : DeltaBuilder α × Bool → ℕ → Option (DeltaBuilder α × Bool)}

omit [DecidableEq α] in
theorem map_fst_foldlM (h : ∀ builder changed n,
    (flagged (builder, changed) n).map Prod.fst = step builder n) (changed : Bool) :
    (ns.foldlM flagged (builder, changed)).map Prod.fst = ns.foldlM step builder := by
  induction ns generalizing builder changed with
  | nil => rfl
  | cons n ns ih =>
    rw [List.foldlM_cons, List.foldlM_cons, ← h builder changed n]
    cases flagged (builder, changed) n with
    | none => rfl
    | some state => exact ih state.2

omit [DecidableEq α] in
theorem eq_of_unchanged (h : ∀ state n state', flagged state n = some state' → state'.2 = false →
    state' = state) {state state' : DeltaBuilder α × Bool}
    (hrun : ns.foldlM flagged state = some state') (hunchanged : state'.2 = false) :
    state' = state := by
  induction ns generalizing state with
  | nil =>
    cases hrun
    rfl
  | cons n ns ih =>
    rw [List.foldlM_cons, Option.bind_eq_bind] at hrun
    obtain ⟨next, hnext, hrun⟩ := Option.bind_eq_some_iff.mp hrun
    obtain rfl := ih hrun
    exact h state n _ hnext hunchanged

end EeEditor
