import EeEditor.Lsp.DocumentPositions
import EeEditor.Rope.Splices

/-!
# Text edits of a language server

The model of `delta_from_lsp_text_edits` of `xi-lsp-lib/src/utils.rs`. The edits are resolved to
offsets, sorted, and given to the builder of a delta one after the other. A reversed range is
stopped by an assertion that only debug builds have, so that builds are told apart.
-/

namespace EeEditor.Lsp

open BTree (bytes bytes_append)

structure TextEdit where
  range : Range
  newText : List Char

inductive Error where
  | protocol (message : String)
deriving DecidableEq

/-- The `Debug` format. -/
def LanguageResponseError.debug : LanguageResponseError → String
  | transport message => "Transport(\"" ++ message ++ "\")"

def resolveEdit (documentText : List Char) (edit : TextEdit) : Except Error (Splice UInt8) := do
  let start ← (offsetOfPositionInDocument documentText edit.range.start).mapError fun err ↦
    .protocol ("invalid edit start: " ++ err.debug)
  let end_ ← (offsetOfPositionInDocument documentText edit.range.end_).mapError fun err ↦
    .protocol ("invalid edit end: " ++ err.debug)
  return ⟨start, end_, bytes edit.newText⟩

/-- The loop over the sorted edits. `none` is a panic. -/
def replaceEdits (debugAssertions : Bool) :
    List (Splice UInt8) → DeltaBuilder UInt8 → ℕ → Option (Except Error (DeltaBuilder UInt8))
  | [], builder, _ => some (.ok builder)
  | ⟨start, end_, newText⟩ :: edits, builder, lastEnd =>
    if start < lastEnd then some (.error (.protocol "overlapping text edits are not supported"))
    else if debugAssertions && end_ < start then none
    else do
      let builder ← builder.replace start end_ newText
      replaceEdits debugAssertions edits builder end_

/-- The document is read from the view, which may fail. -/
def deltaFromLspTextEdits (debugAssertions : Bool) (document : Except String (List Char))
    (edits : List TextEdit) : Option (Except Error (Delta UInt8)) :=
  match document with
  | .error err => some (.error (.protocol ("document fetch failed: " ++ err)))
  | .ok documentText =>
    match edits.mapM (resolveEdit documentText) with
    | .error error => some (.error error)
    | .ok resolvedEdits =>
      let builder := DeltaBuilder.new (bytes documentText).length
      (replaceEdits debugAssertions (resolvedEdits.insertionSort Splice.keyLe) builder 0).map
        (·.map DeltaBuilder.build)

/-! ## What the protocol says -/

/-- The offset is that of the position. A position in a surrogate pair is that behind the pair. -/
def HasOffset (text : List Char) (position : Position) (offset : ℕ) : Prop :=
  ∃ before after, text = before ++ after ∧ PointsTo before position ∧ offset = (bytes before).length

structure Resolves (text : List Char) (edit : TextEdit) (splice : Splice UInt8) : Prop where
  start : HasOffset text edit.range.start splice.start
  end_ : HasOffset text edit.range.end_ splice.end_
  new : splice.new = bytes edit.newText

/-- The edits are valid: no range is reversed, and no two overlap. -/
structure Acceptable (text : List Char) (edits : List TextEdit) (splices : List (Splice UInt8)) :
    Prop where
  resolves : List.Forall₂ (Resolves text) edits splices
  proper : ∀ splice ∈ splices, splice.start ≤ splice.end_
  apart : splices.Pairwise Splice.Apart

/-- Valid edits are applied at once, and an error is returned for others. -/
def AppliesEdits (debugAssertions : Bool) (text : List Char) (edits : List TextEdit) : Prop :=
  (∀ splices, Acceptable text edits splices →
    ∃ delta, deltaFromLspTextEdits debugAssertions (.ok text) edits = some (.ok delta) ∧
      delta.apply (bytes text) = some (Splice.replaceAll (bytes text) splices)) ∧
  ((¬∃ splices, Acceptable text edits splices) →
    ∃ error, deltaFromLspTextEdits debugAssertions (.ok text) edits = some (.error error))

/-- A position of an edit is the end of a document whose last line is empty. -/
def NamesEmptyEnd (text : List Char) (edits : List TextEdit) : Prop :=
  EndsEmpty text ∧
    ∃ edit ∈ edits, edit.range.start = endPosition text ∨ edit.range.end_ = endPosition text

/-- An edit begins before the one ends that precedes it; in a debug build no edit before it is
reversed. -/
def OverlapFound (debugAssertions : Bool) (p : ℕ) (splices : List (Splice UInt8)) : Prop :=
  ∃ older splice newer, splices = older ++ splice :: newer ∧
    splice.start < (older.getLast?.map Splice.end_).getD p ∧
    (debugAssertions = true → ∀ before ∈ older, before.start ≤ before.end_)

/-! ## The loop -/

variable {debugAssertions : Bool} {text : List Char} {edits : List TextEdit} {edit : TextEdit}
  {splices rest : List (Splice UInt8)} {splice : Splice UInt8} {builder : DeltaBuilder UInt8}
    {p : ℕ}
  {content : List UInt8}

theorem not_overlapFound_nil : ¬OverlapFound debugAssertions p [] := by
  rintro ⟨older, splice, newer, heq, -⟩
  simp at heq

theorem overlapFound_cons : OverlapFound debugAssertions p (splice :: rest) ↔ splice.start < p ∨
    (debugAssertions = true → splice.start ≤ splice.end_) ∧
      OverlapFound debugAssertions splice.end_ rest := by
  have hlast (older : List (Splice UInt8)) :
      ((splice :: older).getLast?.map Splice.end_).getD p =
        (older.getLast?.map Splice.end_).getD splice.end_ := by
    rw [List.getLast?_cons]
    cases older.getLast? <;> rfl
  constructor
  · rintro ⟨older, other, newer, heq, hlt, hproper⟩
    cases older with
    | nil =>
      obtain ⟨rfl, rfl⟩ := List.cons.inj heq
      exact .inl hlt
    | cons first older =>
      obtain ⟨rfl, rfl⟩ := List.cons.inj heq
      rw [hlast] at hlt
      refine .inr ⟨fun h ↦ hproper h splice List.mem_cons_self, older, other, newer, rfl, hlt, ?_⟩
      exact fun h before hbefore ↦ hproper h before (List.mem_cons_of_mem _ hbefore)
  · rintro (hlt | ⟨hfirst, older, other, newer, rfl, hlt, hproper⟩)
    · exact ⟨[], splice, rest, rfl, hlt, fun _ ↦ List.forall_mem_nil _⟩
    · refine ⟨splice :: older, other, newer, rfl, by rwa [hlast], fun h ↦ ?_⟩
      exact List.forall_mem_cons.mpr ⟨hfirst h, hproper h⟩

/-- An interval that does not begin before the last offset is replaced, reversed or not. -/
theorem exists_replace (builder : DeltaBuilder UInt8) (splice : Splice UInt8)
    (hlast : builder.lastOffset ≤ splice.start) :
    ∃ builder', builder.replace splice.start splice.end_ splice.new = some builder' ∧
      builder'.lastOffset = splice.end_ := by
  rw [DeltaBuilder.replace, DeltaBuilder.delete, if_pos hlast, Option.bind_eq_bind,
    Option.bind_some]
  cases splice.new with
  | nil => exact ⟨_, rfl, rfl⟩
  | cons b new => exact ⟨_, rfl, rfl⟩

/-- The loop ends with an error just if it finds an overlap. -/
theorem replaceEdits_eq_error (hlast : builder.lastOffset = p) :
    (∃ error, replaceEdits debugAssertions splices builder p = some (.error error)) ↔
      OverlapFound debugAssertions p splices := by
  induction splices generalizing builder p with
  | nil => exact iff_of_false (fun ⟨_, h⟩ ↦ nomatch h) not_overlapFound_nil
  | cons splice rest ih =>
    rw [overlapFound_cons, replaceEdits]
    split_ifs with hlt hreversed
    · exact iff_of_true ⟨_, rfl⟩ (.inl hlt)
    · refine iff_of_false (fun ⟨_, h⟩ ↦ nomatch h) ?_
      rw [Bool.and_eq_true, decide_eq_true_eq] at hreversed
      rintro (h | ⟨h, -⟩)
      · exact hlt h
      · exact absurd (h hreversed.1) (Nat.not_le.mpr hreversed.2)
    · obtain ⟨builder', hreplace, hlast'⟩ :=
        exists_replace builder splice (by omega)
      have hproper : debugAssertions = true → splice.start ≤ splice.end_ := by
        rintro rfl
        simpa using hreversed
      rw [hreplace, Option.bind_eq_bind, Option.bind_some, ih hlast', or_iff_right hlt,
        and_iff_right hproper]

/-- Edits in order are replaced one after the other. -/
theorem replaceEdits_inOrder (debugAssertions : Bool) {document : List UInt8}
    (h : builder.Holds document content)
    (horder : Splice.InOrder builder.lastOffset splices document.length) :
    ∃ builder', replaceEdits debugAssertions splices builder builder.lastOffset
    = some (.ok builder') ∧
      builder'.build.apply document =
        some (content ++ Splice.spliced document builder.lastOffset splices) := by
  induction splices generalizing builder content with
  | nil => exact ⟨builder, rfl, h.build⟩
  | cons splice rest ih =>
    obtain ⟨hstart, hle, hrest⟩ := horder
    obtain ⟨builder₁, hreplace, hlast₁, hholds₁⟩ := h.replace hstart hle hrest.le splice.new
    rw [← hlast₁] at hrest
    obtain ⟨builder', hloop, happly⟩ := ih hholds₁ hrest
    refine ⟨builder', ?_, ?_⟩
    · rw [replaceEdits, if_neg (by omega), if_neg (by simp; omega), hreplace, Option.bind_eq_bind,
        Option.bind_some, ← hlast₁, hloop]
    · rw [happly, hlast₁, Splice.spliced]
      simp only [List.append_assoc]

theorem inOrder_of_not_overlapFound {len : ℕ} (h : ¬OverlapFound debugAssertions p splices)
    (hbounds : ∀ splice ∈ splices, splice.start ≤ splice.end_ ∧ splice.end_ ≤ len) (hp : p ≤ len) :
    Splice.InOrder p splices len := by
  induction splices generalizing p with
  | nil => exact hp
  | cons splice rest ih =>
    obtain ⟨⟨hproper, hend⟩, hbounds⟩ := List.forall_mem_cons.mp hbounds
    rw [overlapFound_cons, not_or, and_iff_right fun _ ↦ hproper] at h
    exact ⟨Nat.not_lt.mp h.1, hproper, ih h.2 hbounds hend⟩

/-! ## Resolved edits -/

theorem offsetOfPositionInDocument_eq_ok_iff {position : Position} {offset : ℕ} :
    offsetOfPositionInDocument text position = .ok offset ↔
      HasOffset text position offset ∧ ¬(EndsEmpty text ∧ position = endPosition text) := by
  constructor
  · intro h
    obtain ⟨before, after, htext, hoffset, hpoints, -⟩ := offsetOfPositionInDocument_eq_ok.mp h
    refine ⟨⟨before, after, htext, hpoints, hoffset⟩, fun hend ↦ ?_⟩
    obtain ⟨error, herror⟩ := offsetOfPositionInDocument_eq_error.mpr (.inr hend)
    rw [h] at herror
    cases herror
  · rintro ⟨⟨before, after, rfl, hpoints, rfl⟩, hend⟩
    refine offsetOfPositionInDocument_eq_ok.mpr ⟨before, after, rfl, rfl, hpoints, ?_⟩
    rintro ⟨rfl, hempty⟩
    rw [List.append_nil] at hend
    rcases hpoints with rfl | ⟨init, ch, rfl, hpair, -⟩
    · exact hend ⟨hempty, rfl⟩
    · exact ne_newline_of_pair hpair (hempty ch (by rw [List.getLast?_concat]; rfl))

theorem HasOffset.le {position : Position} {offset : ℕ} (h : HasOffset text position offset) :
    offset ≤ (bytes text).length := by
  obtain ⟨before, after, rfl, -, rfl⟩ := h
  rw [bytes_append, List.length_append]
  exact Nat.le_add_right _ _

theorem resolveEdit_eq_ok : resolveEdit text edit = .ok splice ↔
    ¬(EndsEmpty text ∧
      (edit.range.start = endPosition text ∨ edit.range.end_ = endPosition text)) ∧
    Resolves text edit splice := by
  have hrejected : ¬(EndsEmpty text ∧
      (edit.range.start = endPosition text ∨ edit.range.end_ = endPosition text)) ↔
      ¬(EndsEmpty text ∧ edit.range.start = endPosition text) ∧
        ¬(EndsEmpty text ∧ edit.range.end_ = endPosition text) := by
    rw [and_or_left, not_or]
  rw [hrejected, resolveEdit]
  constructor
  · intro h
    cases hstart : offsetOfPositionInDocument text edit.range.start with
    | error err =>
      rw [hstart] at h
      cases h
    | ok start =>
      cases hend : offsetOfPositionInDocument text edit.range.end_ with
      | error err =>
        rw [hstart, hend] at h
        cases h
      | ok end_ =>
        rw [hstart, hend] at h
        cases h
        obtain ⟨hstart, hstart'⟩ := offsetOfPositionInDocument_eq_ok_iff.mp hstart
        obtain ⟨hend, hend'⟩ := offsetOfPositionInDocument_eq_ok_iff.mp hend
        exact ⟨⟨hstart', hend'⟩, hstart, hend, rfl⟩
  · rintro ⟨⟨hstart', hend'⟩, hstart, hend, hnew⟩
    rw [offsetOfPositionInDocument_eq_ok_iff.mpr ⟨hstart, hstart'⟩,
      offsetOfPositionInDocument_eq_ok_iff.mpr ⟨hend, hend'⟩, ← hnew]
    rfl

theorem mapM_eq_ok {β γ ε : Type} {f : β → Except ε γ} {l : List β} {l' : List γ} :
    l.mapM f = .ok l' ↔ List.Forall₂ (fun b c ↦ f b = .ok c) l l' := by
  induction l generalizing l' with
  | nil =>
    rw [List.mapM_nil, List.forall₂_nil_left_iff]
    exact ⟨fun h ↦ (Except.ok.inj h).symm, fun h ↦ h ▸ rfl⟩
  | cons b l ih =>
    rw [List.mapM_cons, List.forall₂_cons_left_iff]
    cases hb : f b with
    | error error =>
      refine iff_of_false (fun h ↦ nomatch h) ?_
      rintro ⟨c, cs, h, -⟩
      cases h
    | ok c =>
      cases hl : l.mapM f with
      | error error =>
        refine iff_of_false (fun h ↦ nomatch h) ?_
        rintro ⟨c', cs, -, hcs, -⟩
        rw [ih.mpr hcs] at hl
        cases hl
      | ok cs =>
        constructor
        · intro h
          cases h
          exact ⟨c, cs, rfl, ih.mp hl, rfl⟩
        · rintro ⟨c', cs', h, hcs, rfl⟩
          cases h
          rw [ih.mpr hcs] at hl
          cases hl
          rfl

theorem mapM_resolveEdit_eq_ok : edits.mapM (resolveEdit text) = .ok splices ↔
    ¬NamesEmptyEnd text edits ∧ List.Forall₂ (Resolves text) edits splices := by
  have hnames : (∀ edit ∈ edits, ¬(EndsEmpty text ∧ (edit.range.start = endPosition text ∨
      edit.range.end_ = endPosition text))) ↔ ¬NamesEmptyEnd text edits := by
    rw [NamesEmptyEnd]
    constructor
    · rintro h ⟨hempty, edit, hedit, hend⟩
      exact h edit hedit ⟨hempty, hend⟩
    · rintro h edit hedit ⟨hempty, hend⟩
      exact h ⟨hempty, edit, hedit, hend⟩
  rw [mapM_eq_ok, ← hnames, ← List.forall₂_and_left]
  simp only [resolveEdit_eq_ok]

/-- The intervals of resolved edits are in the document. -/
theorem le_of_resolves (h : List.Forall₂ (Resolves text) edits splices) :
    ∀ splice ∈ splices, splice.end_ ≤ (bytes text).length := by
  induction h with
  | nil => exact List.forall_mem_nil _
  | cons hfirst _ ih => exact List.forall_mem_cons.mpr ⟨hfirst.end_.le, ih⟩

/-! ## The delta -/

/-- What the loop makes of resolved edits. -/
theorem deltaFromLspTextEdits_eq (h : edits.mapM (resolveEdit text) = .ok splices) :
    deltaFromLspTextEdits debugAssertions (.ok text) edits =
      (replaceEdits debugAssertions (splices.insertionSort Splice.keyLe)
        (DeltaBuilder.new (bytes text).length) 0).map (·.map DeltaBuilder.build) := by
  rw [deltaFromLspTextEdits, h]

/-- Valid edits are applied at once. -/
theorem deltaFromLspTextEdits_acceptable (h : Acceptable text edits splices)
    (hresolved : edits.mapM (resolveEdit text) = .ok splices) :
    ∃ delta, deltaFromLspTextEdits debugAssertions (.ok text) edits = some (.ok delta) ∧
      delta.apply (bytes text) = some (Splice.replaceAll (bytes text) splices) := by
  have hmem (splice : Splice UInt8) : splice ∈ splices.insertionSort Splice.keyLe ↔
    splice ∈ splices :=
    List.mem_insertionSort _
  have hapart : (splices.insertionSort Splice.keyLe).Pairwise Splice.Apart :=
    ((List.perm_insertionSort Splice.keyLe splices).pairwise_iff fun h ↦ h.symm).mpr h.apart
  have horder : Splice.InOrder 0 (splices.insertionSort Splice.keyLe) (bytes text).length := by
    refine Splice.inOrder_of_sorted (List.pairwise_insertionSort _ _) hapart
      (fun splice hsplice ↦ ?_)
      (fun _ _ ↦ Nat.zero_le _) (Nat.zero_le _)
    rw [hmem] at hsplice
    exact ⟨h.proper splice hsplice, le_of_resolves h.resolves splice hsplice⟩
  obtain ⟨builder, hloop, happly⟩ :=
    replaceEdits_inOrder debugAssertions (DeltaBuilder.holds_new (bytes text)) horder
  change replaceEdits _ _ _ 0 = _ at hloop
  rw [deltaFromLspTextEdits_eq hresolved, hloop]
  refine ⟨builder.build, rfl, happly.trans ?_⟩
  change some (Splice.spliced (bytes text) 0 _) = _
  rw [Splice.spliced_eq horder, ← Splice.replaceAll_insertionSort h.apart, Splice.replaceAll,
    List.range_eq_range']
  rfl

theorem deltaFromLspTextEdits_eq_error (h : edits.mapM (resolveEdit text) = .ok splices) :
    (∃ error, deltaFromLspTextEdits debugAssertions (.ok text) edits = some (.error error)) ↔
      OverlapFound debugAssertions 0 (splices.insertionSort Splice.keyLe) := by
  have hloop : (DeltaBuilder.new (bytes text).length : DeltaBuilder UInt8).lastOffset = 0 := rfl
  rw [deltaFromLspTextEdits_eq h, ← replaceEdits_eq_error hloop]
  refine exists_congr fun error ↦ ?_
  cases replaceEdits debugAssertions (splices.insertionSort Splice.keyLe)
      (DeltaBuilder.new (bytes text).length) 0 with
  | none => exact iff_of_false (fun h ↦ nomatch h) (fun h ↦ nomatch h)
  | some result =>
    cases result with
    | error error' =>
      rw [Option.map_some, Except.map, Option.some.injEq, Option.some.injEq, Except.error.injEq,
        Except.error.injEq]
    | ok builder => exact iff_of_false (fun h ↦ nomatch h) (fun h ↦ nomatch h)

/-- Edits that are not reversed are valid unless an overlap is found. -/
theorem acceptable_of_not_overlapFound (hresolves : List.Forall₂ (Resolves text) edits splices)
    (hproper : ∀ splice ∈ splices, splice.start ≤ splice.end_)
    (h : ¬OverlapFound debugAssertions 0 (splices.insertionSort Splice.keyLe)) :
    Acceptable text edits splices := by
  have horder : Splice.InOrder 0 (splices.insertionSort Splice.keyLe) (bytes text).length := by
    refine inOrder_of_not_overlapFound h (fun splice hsplice ↦ ?_) (Nat.zero_le _)
    rw [List.mem_insertionSort] at hsplice
    exact ⟨hproper splice hsplice, le_of_resolves hresolves splice hsplice⟩
  exact ⟨hresolves, hproper,
    ((List.perm_insertionSort Splice.keyLe splices).pairwise_iff fun h ↦ h.symm).mp horder.pairwise⟩

/-- The edits are applied as the protocol says unless valid ones name the end of an empty last line,
or one is reversed and no overlap is found. -/
theorem appliesEdits_iff (debugAssertions : Bool) (text : List Char) (edits : List TextEdit) :
    AppliesEdits debugAssertions text edits ↔
      (∀ splices, Acceptable text edits splices → ¬NamesEmptyEnd text edits) ∧
      ∀ splices, List.Forall₂ (Resolves text) edits splices → ¬NamesEmptyEnd text edits →
        (∃ splice ∈ splices, splice.end_ < splice.start) →
          OverlapFound debugAssertions 0 (splices.insertionSort Splice.keyLe) := by
  cases hresolved : edits.mapM (resolveEdit text) with
  | error error =>
    have hnone (splices : List (Splice UInt8)) (h : List.Forall₂ (Resolves text) edits splices) :
        NamesEmptyEnd text edits := by
      by_contra hnames
      rw [mapM_resolveEdit_eq_ok.mpr ⟨hnames, h⟩] at hresolved
      cases hresolved
    have herror : deltaFromLspTextEdits debugAssertions (.ok text) edits = some (.error error) := by
      rw [deltaFromLspTextEdits, hresolved]
    constructor
    · rintro ⟨hvalid, -⟩
      refine ⟨fun splices h ↦ ?_, fun splices h hnames ↦ absurd (hnone splices h) hnames⟩
      obtain ⟨delta, hdelta, -⟩ := hvalid splices h
      rw [herror] at hdelta
      cases hdelta
    · rintro ⟨hvalid, -⟩
      exact ⟨fun splices h ↦ absurd (hnone splices h.resolves) (hvalid splices h),
        fun _ ↦ ⟨error, herror⟩⟩
  | ok resolved =>
    obtain ⟨hnames, hresolves⟩ := mapM_resolveEdit_eq_ok.mp hresolved
    have hunique (splices : List (Splice UInt8)) (h : List.Forall₂ (Resolves text) edits splices) :
        splices = resolved := by
      have heq := mapM_resolveEdit_eq_ok.mpr ⟨hnames, h⟩
      rw [hresolved] at heq
      exact (Except.ok.inj heq).symm
    constructor
    · rintro ⟨-, hinvalid⟩
      refine ⟨fun _ _ ↦ hnames, fun splices h _ ⟨splice, hsplice, hreversed⟩ ↦ ?_⟩
      obtain rfl := hunique splices h
      rw [← deltaFromLspTextEdits_eq_error hresolved]
      refine hinvalid fun ⟨others, hothers⟩ ↦ ?_
      obtain rfl := hunique others hothers.resolves
      exact absurd (hothers.proper splice hsplice) (Nat.not_le.mpr hreversed)
    · rintro ⟨-, hreversed⟩
      refine ⟨fun splices h ↦ ?_, fun hinvalid ↦ ?_⟩
      · obtain rfl := hunique splices h.resolves
        exact deltaFromLspTextEdits_acceptable h hresolved
      · rw [deltaFromLspTextEdits_eq_error hresolved]
        by_contra hnot
        have hproper : ∀ splice ∈ resolved, splice.start ≤ splice.end_ := fun splice hsplice ↦ by
          by_contra hlt
          exact hnot (hreversed resolved hresolves hnames ⟨splice, hsplice, Nat.not_le.mp hlt⟩)
        exact hinvalid ⟨resolved, acceptable_of_not_overlapFound hresolves hproper hnot⟩

/-- An edit that appends to a text that ends with a newline is rejected. -/
theorem append_rejected : ¬ ∀ (debugAssertions : Bool) (text : List Char) (edits : List TextEdit),
    AppliesEdits debugAssertions text edits := by
  intro h
  have hend : HasOffset ['a', '\n'] ⟨1, 0⟩ 2 := ⟨['a', '\n'], [], rfl, .inl rfl, rfl⟩
  have hacceptable : Acceptable ['a', '\n'] [⟨⟨⟨1, 0⟩, ⟨1, 0⟩⟩, ['b']⟩] [⟨2, 2, bytes ['b']⟩] :=
    ⟨.cons ⟨hend, hend, rfl⟩ .nil, by simp, List.pairwise_singleton _ _⟩
  obtain ⟨delta, hdelta, -⟩ := (h false _ _).1 _ hacceptable
  rw [deltaFromLspTextEdits] at hdelta
  split at hdelta
  · cases hdelta
  · rename_i resolved hresolved
    exact (mapM_resolveEdit_eq_ok.mp hresolved).1
      ⟨by decide, _, List.mem_cons_self, .inl (by decide)⟩

end EeEditor.Lsp
