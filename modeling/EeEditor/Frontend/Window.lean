import EeEditor.Frontend.Rejection

/-!
# The window of a very large file

An update places rows one after the other: the inserted ones on their lines, and the copied ones
after the last row, or where they stood in the old window. Of the rows that are placed on one line
the first is shown. An inserted row is lost if another row was placed on its line before it.
-/

namespace EeEditor.Frontend

open BTree (usizeMax)

/-! ## Where the rows are placed -/

/-- The frame rows that the operations of an update take. -/
def carriedRows (blob : Option (List UInt8)) : BlobRows :=
  ((blob.map BlobRows.decode).getD (.ok ⟨[], 0⟩)).toOption.getD ⟨[], 0⟩

/-- The operations, each with the frame rows that its lines take. -/
def opParts (ops : List CoreUpdateOp) (blob : Option (List UInt8)) :
    List (CoreUpdateOp × List (Option (List UInt8))) :=
  ops.zip (handOut (carriedRows blob) ops)

/-- The rows of an `insert`, on their lines. -/
def numberedRows (scopes : List String) (lines : List CoreLine)
    (opRows : List (Option (List UInt8))) : List (ℕ × LineSlot) :=
  (lines.zip opRows).filterMap fun q ↦ q.1.logicalLine.bind fun ln ↦
    (LineSlot.fromCoreLine q.1 scopes q.2).toOption.map (ln, ·)

/-- The rows that the operations insert. -/
def insertions (scopes : List String)
    (parts : List (CoreUpdateOp × List (Option (List UInt8)))) : List (ℕ × LineSlot) :=
  (parts.filter (·.1.op = .insert)).flatMap fun p ↦ numberedRows scopes p.1.lines p.2

/-- The slot of a line in a window. -/
def slotAt (old : List LineSlot) (oldStart ln : ℕ) : Option LineSlot :=
  if ln < oldStart then none else old[ln - oldStart]?

/-- The old rows that are copied from a line on, as far as the old window goes. -/
def copiedFrom (old : List LineSlot) (oldStart : ℕ) : (n ln : ℕ) → List (ℕ × LineSlot)
  | 0, _ => []
  | n + 1, ln =>
    match slotAt old oldStart ln with
    | none => []
    | some slot => (ln, slot) :: copiedFrom old oldStart n (saturatingAdd ln 1)

/-- The rows that one operation places. -/
def placedBy (old : List LineSlot) (oldStart : ℕ) (scopes : List String) (source : ℕ)
    (last : Option ℕ) (op : CoreUpdateOp) (opRows : List (Option (List UInt8))) :
    List (ℕ × LineSlot) :=
  match op.op with
  | .insert => numberedRows scopes op.lines opRows
  | .copy | .update => copiedFrom old oldStart op.n
      ((last.map (saturatingAdd · 1)).getD (saturatingAdd oldStart source))
  | .skip | .invalidate => []

def sourceAfter (source : ℕ) (op : CoreUpdateOp) : ℕ :=
  match op.op with
  | .insert | .invalidate => source
  | .skip | .copy | .update => saturatingAdd source op.n

/-- The rows that the operations place one after the other; `last` is the line of the last row. -/
def arrivals (old : List LineSlot) (oldStart : ℕ) (scopes : List String) :
    ℕ → Option ℕ → List (CoreUpdateOp × List (Option (List UInt8))) → List (ℕ × LineSlot)
  | _, _, [] => []
  | source, last, (op, opRows) :: parts =>
    let rows := placedBy old oldStart scopes source last op opRows
    rows ++ arrivals old oldStart scopes (sourceAfter source op)
      ((rows.getLast?.map Prod.fst).or last) parts

variable {old cache : List LineSlot} {oldStart start end_ source : ℕ} {scopes : List String}
  {blob : Option (List UInt8)} {ops : List CoreUpdateOp} {lines : List CoreLine}
  {opRows : List (Option (List UInt8))} {rows placed : List (ℕ × LineSlot)} {last : Option ℕ}
  {parts : List (CoreUpdateOp × List (Option (List UInt8)))}

/-- A row with its number, as the loop collects it. -/
def positioned (row : ℕ × LineSlot) : Option ℕ × LineSlot := (some row.1, row.2)

theorem length_takeOpRows (b : Bool) (r : BlobRows) (lines : List CoreLine) :
    (takeOpRows b r lines).1.length = lines.length := by
  induction lines generalizing r with
  | nil => rfl
  | cons line lines ih =>
    rw [takeOpRows]
    dsimp only
    rw [List.length_cons, List.length_cons, ih]

theorem numberedRows_cons (line : CoreLine) (row : Option (List UInt8)) {ln : ℕ} {slot : LineSlot}
    (hln : line.logicalLine = some ln) (hslot : LineSlot.fromCoreLine line scopes row = .ok slot) :
    numberedRows scopes (line :: lines) (row :: opRows) =
      (ln, slot) :: numberedRows scopes lines opRows := by
  rw [numberedRows, List.zip_cons_cons, List.filterMap_cons_some, numberedRows]
  rw [hln, hslot]
  rfl

/-- The rows of an `insert` of numbered lines are all positioned. -/
theorem windowInsertRows_eq (hlen : opRows.length = lines.length)
    (hnumbered : ∀ line ∈ lines, line.logicalLine.isSome) {inserted : List (Option ℕ × LineSlot)}
    (h : windowInsertRows scopes lines opRows = .ok inserted) :
    inserted = (numberedRows scopes lines opRows).map positioned ∧
      (numberedRows scopes lines opRows).map Prod.fst = lines.filterMap (·.logicalLine) := by
  induction lines generalizing opRows inserted with
  | nil =>
    cases h
    exact ⟨rfl, rfl⟩
  | cons line lines ih =>
    cases opRows with
    | nil => cases hlen
    | cons row opRows =>
      rw [List.forall_mem_cons] at hnumbered
      obtain ⟨ln, hln⟩ := Option.isSome_iff_exists.mp hnumbered.1
      obtain ⟨slot, hslot, h⟩ := ok_of_bind h
      obtain ⟨rest, hrest, h⟩ := ok_of_bind h
      cases h
      obtain ⟨rfl, hnumbers⟩ := ih (Nat.succ.inj hlen) hnumbered.2 hrest
      rw [numberedRows_cons line row hln hslot, List.map_cons, List.map_cons, hnumbers,
        List.filterMap_cons_some hln, hln]
      exact ⟨rfl, rfl⟩

theorem saturatingAdd_source (oldStart source : ℕ) :
    saturatingAdd oldStart (saturatingAdd source 0) = saturatingAdd oldStart source := by
  simp only [saturatingAdd]
  omega

theorem windowCopyRows_eq (n k : ℕ) (last : Option (Option ℕ)) :
    windowCopyRows old oldStart source n k last =
      (copiedFrom old oldStart n ((last.join.map (saturatingAdd · 1)).getD
        (saturatingAdd oldStart (saturatingAdd source k)))).map positioned := by
  induction n generalizing k last with
  | zero => rfl
  | succ n ih =>
    have hstep : ∀ ln, (last.join.map (saturatingAdd · 1)).getD
        (saturatingAdd oldStart (saturatingAdd source k)) = ln →
        windowCopyRows old oldStart source (n + 1) k last = if ln < oldStart then [] else
          match old[ln - oldStart]? with
          | none => []
          | some slot => (some ln, slot) ::
              windowCopyRows old oldStart source n (k + 1) (some (some ln)) := by
      rintro ln rfl
      rw [windowCopyRows]
      cases last.join <;> rfl
    rw [hstep _ rfl, copiedFrom, slotAt]
    split
    · rfl
    · split
      case h_1 => rfl
      case h_2 =>
        rw [ih]
        rfl

theorem insertions_cons (op : CoreUpdateOp) (opRows : List (Option (List UInt8))) :
    insertions scopes ((op, opRows) :: parts) =
      (if op.op = .insert then numberedRows scopes op.lines opRows else []) ++
        insertions scopes parts := by
  rw [insertions, List.filter_cons]
  by_cases hop : op.op = .insert
  · rw [if_pos (decide_eq_true hop), if_pos hop, List.flatMap_cons, insertions]
  · rw [if_neg (by simpa using hop), if_neg hop, List.nil_append, insertions]

theorem insertedLines_cons (op : CoreUpdateOp) (ops : List CoreUpdateOp) :
    insertedLines (op :: ops) =
      (if op.op = .insert then op.lines else []) ++ insertedLines ops := by
  rw [insertedLines, List.filter_cons]
  by_cases hop : op.op = .insert
  · rw [if_pos (decide_eq_true hop), if_pos hop, List.flatMap_cons, insertedLines]
  · rw [if_neg (by simpa using hop), if_neg hop, List.nil_append, insertedLines]

/-- The line of the last row. -/
def lastLine (placed : List (ℕ × LineSlot)) : Option ℕ := placed.getLast?.map Prod.fst

theorem lastLine_append (placed rows : List (ℕ × LineSlot)) :
    lastLine (placed ++ rows) = (rows.getLast?.map Prod.fst).or (lastLine placed) := by
  rw [lastLine, List.getLast?_append, lastLine]
  cases rows.getLast? <;> rfl

theorem join_lastLine (placed : List (ℕ × LineSlot)) :
    ((placed.map positioned).getLast?.map Prod.fst).join = lastLine placed := by
  rw [List.getLast?_map, lastLine]
  cases placed.getLast? <;> rfl

/-- The loop over operations that insert numbered lines collects the rows as they are placed. -/
theorem windowLoop_eq {frameRows : BlobRows} {rows : List (Option ℕ × LineSlot)}
    (placed : List (ℕ × LineSlot))
    (hnumbered : ∀ line ∈ insertedLines ops, line.logicalLine.isSome)
    (h : windowLoop old oldStart scopes frameRows source (placed.map positioned) ops = .ok rows) :
    rows = (placed ++ arrivals old oldStart scopes source (lastLine placed)
        (ops.zip (handOut frameRows ops))).map positioned ∧
      (insertions scopes (ops.zip (handOut frameRows ops))).map Prod.fst =
        (insertedLines ops).filterMap (·.logicalLine) := by
  induction ops generalizing frameRows source placed with
  | nil =>
    cases h
    exact ⟨by rw [List.zip_nil_left, arrivals, List.append_nil], rfl⟩
  | cons op ops ih =>
    have hlen := length_takeOpRows op.blob frameRows op.lines
    rw [insertedLines_cons, List.forall_mem_append] at hnumbered
    rw [insertedLines_cons, handOut, List.zip_cons_cons, insertions_cons, arrivals,
      List.filterMap_append,
      ← List.append_assoc, ← lastLine_append, placedBy, sourceAfter]
    rw [windowLoop] at h
    cases hop : op.op with
    | insert =>
      rw [hop] at h hnumbered
      obtain ⟨inserted, hinserted, h⟩ := ok_of_bind h
      obtain ⟨rfl, hnumbers⟩ := windowInsertRows_eq hlen hnumbered.1 hinserted
      rw [← List.map_append] at h
      obtain ⟨hrows, hrest⟩ := ih _ hnumbered.2 h
      refine ⟨hrows, ?_⟩
      rw [if_pos rfl, if_pos rfl, List.map_append, hnumbers, hrest]
    | skip =>
      rw [hop] at h
      obtain ⟨hrows, hrest⟩ := ih _ hnumbered.2 h
      exact ⟨by simpa only [List.append_nil] using hrows, hrest⟩
    | copy | update =>
      rw [hop] at h
      dsimp only at h
      rw [windowCopyRows_eq, join_lastLine, saturatingAdd_source, ← List.map_append] at h
      obtain ⟨hrows, hrest⟩ := ih _ hnumbered.2 h
      exact ⟨hrows, hrest⟩
    | invalidate =>
      rw [hop] at h
      obtain ⟨hrows, hrest⟩ := ih _ hnumbered.2 h
      exact ⟨by simpa only [List.append_nil] using hrows, hrest⟩

theorem logicalRows_positioned (rows : List (ℕ × LineSlot)) :
    logicalRows (rows.map positioned) = some rows := by
  induction rows with
  | nil => rfl
  | cons row rows ih =>
    rw [List.map_cons, positioned, logicalRows, ih]
    rfl

/-! ## The window -/

/-- The window over some rows: it reaches from the least of their lines to the greatest, and a line
shows the first of its rows. -/
structure WindowOf (rows : List (ℕ × LineSlot)) (start end_ : ℕ) (cache : List LineSlot) :
    Prop where
  size : cache.length = end_ - start
  inside : ∀ row ∈ rows, start ≤ row.1 ∧ row.1 < end_
  first : ∃ row ∈ rows, row.1 = start
  last : ∃ row ∈ rows, row.1 + 1 = end_
  slot : ∀ ln, start ≤ ln → ln < end_ →
    cache[ln - start]? = some (((rows.find? (·.1 = ln)).map Prod.snd).getD .invalid)

theorem windowOf_unwrappedWindow (h : unwrappedWindow rows = some (start, end_, cache)) :
    WindowOf rows start end_ cache := by
  have hstrict := pairwise_dedupByKey (pairwise_sortByKey Prod.fst rows)
  have hfind : ∀ ln, (dedupByKey Prod.fst (sortByKey Prod.fst rows)).find? (·.1 = ln) =
      rows.find? (·.1 = ln) := fun ln ↦ by rw [find?_dedupByKey, find?_sortByKey]
  have hsub : ∀ row ∈ dedupByKey Prod.fst (sortByKey Prod.fst rows), row ∈ rows := fun row hrow ↦
    mem_sortByKey.mp ((dedupByKey_sublist _ _).subset hrow)
  simp only [unwrappedWindow] at h
  generalize dedupByKey Prod.fst (sortByKey Prod.fst rows) = window at h hstrict hfind hsub
  split at h
  case h_2 => cases h
  case h_1 first last hfirst hlast =>
    cases h
    have hfirst_mem := List.mem_of_head? hfirst
    have hlast_mem := List.mem_of_getLast? hlast
    have hbounds : ∀ row ∈ rows, first.1 ≤ row.1 ∧ row.1 < last.1 + 1 := fun row hrow ↦ by
      have hsome : (window.find? (·.1 = row.1)).isSome := by
        rw [hfind, List.find?_isSome]
        exact ⟨row, hrow, decide_eq_true rfl⟩
      obtain ⟨row', hrow'⟩ := Option.isSome_iff_exists.mp hsome
      have hfound := List.find?_some hrow'
      have hkey : row'.1 = row.1 := by simpa using hfound
      have hmem := List.mem_of_find?_eq_some hrow'
      exact hkey ▸ ⟨le_of_head? hstrict hfirst hmem,
        Nat.lt_succ_of_le (le_of_getLast? hstrict hlast hmem)⟩
    refine ⟨by rw [length_fillFrom, List.length_replicate], hbounds,
      ⟨first, hsub first hfirst_mem, rfl⟩, ⟨last, hsub last hlast_mem, rfl⟩,
        fun ln hstart hend ↦ ?_⟩
    have hlt : ln - first.1 < last.1 + 1 - first.1 := by omega
    rw [getElem?_fillFrom hstrict (fun row hrow ↦ le_of_head? hstrict hfirst hrow) hstart
      (by rwa [List.length_replicate]), hfind, List.getElem?_replicate, if_pos hlt]
    cases rows.find? (·.1 = ln) <;> rfl

/-- What is kept of the lines, if those of `numbers` are inserted. -/
structure Kept (numbers : List ℕ) (p : ℕ → Bool) : Prop where
  inserted : ∀ ln ∈ numbers, p ln = true ↔ ln < usizeMax
  near : ∀ lo ∈ numbers, ∀ hi ∈ numbers, (∀ ln ∈ numbers, lo ≤ ln ∧ ln ≤ hi) →
    ∀ ln, p ln = true → lo ≤ ln + windowOverscan ∧ ln ≤ hi + windowOverscan

theorem trimRows_eq (ops : List CoreUpdateOp) (rows : List (ℕ × LineSlot)) :
    ∃ p, Kept ((insertedLines ops).filterMap (·.logicalLine)) p ∧
      trimRows ops rows = rows.filter fun row ↦ p row.1 := by
  rw [trimRows]
  generalize (insertedLines ops).filterMap (·.logicalLine) = numbers
  cases hlo : numbers.min? with
  | none =>
    rw [List.min?_eq_none_iff] at hlo
    subst hlo
    exact ⟨fun _ ↦ true, ⟨nofun, nofun⟩, (List.filter_eq_self.mpr fun _ _ ↦ rfl).symm⟩
  | some lo =>
    have hne : numbers ≠ [] := by
      rintro rfl
      cases hlo
    obtain ⟨hi, hhi⟩ := Option.isSome_iff_exists.mp (List.isSome_max?_of_ne_nil hne)
    obtain ⟨hlo_mem, hlo_le⟩ := List.min?_eq_some_iff.mp hlo
    obtain ⟨hhi_mem, hle_hi⟩ := List.max?_eq_some_iff.mp hhi
    refine ⟨fun ln ↦ decide (lo - windowOverscan ≤ ln ∧
      ln < saturatingAdd (saturatingAdd hi 1) windowOverscan), ⟨fun ln hln ↦ ?_, ?_⟩, ?_⟩
    · have hge := hlo_le ln hln
      have hle := hle_hi ln hln
      refine decide_eq_true_iff.trans ?_
      simp only [saturatingAdd]
      omega
    · intro lo' hlo' hi' hhi' hbounds ln hln
      have hle := (hbounds lo hlo_mem).1
      have hge := (hbounds hi hhi_mem).2
      replace hln := of_decide_eq_true hln
      simp only [saturatingAdd] at hln
      omega
    · simp only [hhi]

theorem find?_filter_key {p : ℕ → Bool} {ln : ℕ} (hln : p ln = true) (rows : List (ℕ × LineSlot)) :
    (rows.filter fun row ↦ p row.1).find? (·.1 = ln) = rows.find? (·.1 = ln) := by
  rw [List.find?_filter]
  refine congrArg (List.find? · rows) (funext fun row ↦ ?_)
  by_cases hrow : row.1 = ln
  · simp [hrow, hln]
  · simp [hrow]

/-! ## What a window shows -/

/-- Every row that is placed has been inserted, or stood on its line before. -/
theorem mem_arrivals {row : ℕ × LineSlot}
    (hrow : row ∈ arrivals old oldStart scopes source last parts) :
    row ∈ insertions scopes parts ∨ slotAt old oldStart row.1 = some row.2 := by
  have hcopied : ∀ n ln, row ∈ copiedFrom old oldStart n ln →
      slotAt old oldStart row.1 = some row.2 := by
    intro n ln hrow
    induction n generalizing ln with
    | zero => cases hrow
    | succ n ih =>
      rw [copiedFrom] at hrow
      split at hrow
      case h_1 => cases hrow
      case h_2 slot hslot =>
        rcases List.mem_cons.mp hrow with rfl | hrow
        · exact hslot
        · exact ih _ hrow
  induction parts generalizing source last with
  | nil => cases hrow
  | cons part parts ih =>
    obtain ⟨op, opRows⟩ := part
    rw [arrivals] at hrow
    rw [insertions_cons]
    rcases List.mem_append.mp hrow with hrow | hrow
    · rw [placedBy] at hrow
      cases hop : op.op with
      | insert =>
        rw [hop] at hrow
        exact .inl (List.mem_append_left _ hrow)
      | skip => rw [hop] at hrow; cases hrow
      | invalidate => rw [hop] at hrow; cases hrow
      | copy => rw [hop] at hrow; exact .inr (hcopied _ _ hrow)
      | update => rw [hop] at hrow; exact .inr (hcopied _ _ hrow)
    · exact (ih hrow).imp_left (List.mem_append_right _)

theorem known_of_mem_insertions {row : ℕ × LineSlot} (hrow : row ∈ insertions scopes parts) :
    ∃ line, row.2 = .known line := by
  obtain ⟨p, -, hrow⟩ := List.mem_flatMap.mp hrow
  obtain ⟨q, -, hrow⟩ := List.mem_filterMap.mp hrow
  obtain ⟨ln, -, hrow⟩ := Option.bind_eq_some_iff.mp hrow
  obtain ⟨slot, hslot, rfl⟩ := Option.map_eq_some_iff.mp hrow
  cases hline : LineSlot.fromCoreLine q.1 scopes q.2 with
  | error e => rw [hline] at hslot; cases hslot
  | ok slot' =>
    rw [hline] at hslot
    cases hslot
    obtain ⟨text, -, h⟩ := ok_of_bind hline
    obtain ⟨spans, -, h⟩ := ok_of_bind h
    cases h
    exact ⟨_, rfl⟩

/-- The window shows what it should: the inserted rows on their lines, elsewhere only what stood
there before, and not much more than the inserted rows. -/
structure Faithful (old : List LineSlot) (oldStart : ℕ) (new : List (ℕ × LineSlot))
    (start end_ : ℕ) (cache : List LineSlot) : Prop where
  size : cache.length = end_ - start
  inserted : ∀ row ∈ new, start ≤ row.1 ∧ cache[row.1 - start]? = some row.2
  copied : ∀ ln line, start ≤ ln → cache[ln - start]? = some (.known line) →
    ln ∉ new.map Prod.fst → slotAt old oldStart ln = some (.known line)
  bounded : ∀ lo ∈ new.map Prod.fst, ∀ hi ∈ new.map Prod.fst,
    (∀ ln ∈ new.map Prod.fst, lo ≤ ln ∧ ln ≤ hi) → end_ - start ≤ (hi - lo + 1) + 1024

namespace WindowOf

variable {new : List (ℕ × LineSlot)} {p : ℕ → Bool}

/-- A row that is shown comes first on its line. -/
theorem find?_of_shown (h : WindowOf (rows.filter fun row ↦ p row.1) start end_ cache) {ln : ℕ}
    {line : CachedLine} (hstart : start ≤ ln) (hshown : cache[ln - start]? = some (.known line)) :
    p ln = true ∧ ln < end_ ∧ rows.find? (·.1 = ln) = some (ln, .known line) := by
  have hlt : ln - start < cache.length := (List.getElem?_eq_some_iff.mp hshown).1
  rw [h.size] at hlt
  have hend : ln < end_ := by omega
  rw [h.slot ln hstart hend, Option.some_inj] at hshown
  cases hfind : (rows.filter fun row ↦ p row.1).find? (·.1 = ln) with
  | none =>
    rw [hfind] at hshown
    cases hshown
  | some row =>
    rw [hfind] at hshown
    obtain ⟨ln', slot⟩ := row
    have hkey : ln' = ln := by simpa using List.find?_some hfind
    have hslot : slot = .known line := hshown
    subst hkey hslot
    have hp := (List.mem_filter.mp (List.mem_of_find?_eq_some hfind)).2
    exact ⟨hp, hend, find?_filter_key hp rows ▸ hfind⟩

/-- A row is shown if it comes first on its line and that is kept. -/
theorem shown_of_find? (h : WindowOf (rows.filter fun row ↦ p row.1) start end_ cache)
    {row : ℕ × LineSlot} (hp : p row.1 = true) (hfind : rows.find? (·.1 = row.1) = some row) :
    start ≤ row.1 ∧ cache[row.1 - start]? = some row.2 := by
  rw [← find?_filter_key hp] at hfind
  obtain ⟨hstart, hend⟩ := h.inside row (List.mem_of_find?_eq_some hfind)
  exact ⟨hstart, by rw [h.slot row.1 hstart hend, hfind]; rfl⟩

end WindowOf

/-- The window of some rows is faithful just if each inserted row comes first on its line. -/
theorem WindowOf.holds_window_iff {new : List (ℕ × LineSlot)}
    (h : WindowOf (trimRows ops rows) start end_ cache)
    (hnumbers : new.map Prod.fst = (insertedLines ops).filterMap (·.logicalLine))
    (hknown : ∀ row ∈ new, ∃ line, row.2 = .known line)
    (hrows : ∀ row ∈ rows, row ∈ new ∨ slotAt old oldStart row.1 = some row.2) :
    Faithful old oldStart new start end_ cache ↔
      ∀ row ∈ new, row.1 < usizeMax ∧ rows.find? (·.1 = row.1) = some row := by
  obtain ⟨p, hkept, htrim⟩ := trimRows_eq ops rows
  rw [htrim] at h
  rw [← hnumbers] at hkept
  constructor
  · intro hfaithful row hrow
    obtain ⟨hstart, hslot⟩ := hfaithful.inserted row hrow
    obtain ⟨line, hline⟩ := hknown row hrow
    rw [hline] at hslot
    obtain ⟨hp, -, hfind⟩ := h.find?_of_shown hstart hslot
    refine ⟨(hkept.inserted row.1 (List.mem_map_of_mem hrow)).mp hp, ?_⟩
    rw [hfind, ← hline]
  · intro hfirst
    refine ⟨h.size, fun row hrow ↦ ?_, fun ln line hstart hshown hln ↦ ?_, ?_⟩
    · obtain ⟨hlt, hfind⟩ := hfirst row hrow
      have hp := (hkept.inserted row.1 (List.mem_map_of_mem hrow)).mpr hlt
      exact h.shown_of_find? hp hfind
    · obtain ⟨-, -, hfind⟩ := h.find?_of_shown hstart hshown
      rcases hrows _ (List.mem_of_find?_eq_some hfind) with hnew | hold
      · exact absurd (List.mem_map_of_mem hnew) hln
      · exact hold
    · intro lo hlo hi hhi hbounds
      obtain ⟨first, hfirst, rfl⟩ := h.first
      obtain ⟨last, hlast, rfl⟩ := h.last
      have hnear := hkept.near lo hlo hi hhi hbounds
      have hlow := (hnear first.1 (List.mem_filter.mp hfirst).2).1
      have hhigh := (hnear last.1 (List.mem_filter.mp hlast).2).2
      have hle := (hbounds lo hlo).2
      have hoverscan : windowOverscan = 512 := rfl
      omega

/-- The window of an update whose inserted lines are all numbered. -/
theorem windowOf_vlfWindowFromOps (hnumbered : ∀ line ∈ insertedLines ops, line.logicalLine.isSome)
    (h : vlfWindowFromOps ops old oldStart scopes blob = .ok (some (start, end_, cache))) :
    WindowOf (trimRows ops (arrivals old oldStart scopes 0 none (opParts ops blob))) start end_
    cache ∧
      (insertions scopes (opParts ops blob)).map Prod.fst =
        (insertedLines ops).filterMap (·.logicalLine) := by
  rw [vlfWindowFromOps] at h
  split at h
  · cases h
  obtain ⟨frameRows, hframe, h⟩ := ok_of_bind h
  obtain ⟨rows, hloop, h⟩ := ok_of_bind h
  have hcarried : carriedRows blob = frameRows := by
    rw [carriedRows, hframe]
    rfl
  obtain ⟨hrows, hnumbers⟩ := windowLoop_eq [] hnumbered hloop
  rw [← hcarried] at hrows hnumbers
  subst hrows
  split at h
  · cases h
  · rw [logicalRows_positioned] at h
    exact ⟨windowOf_unwrappedWindow (Except.ok.inj h), hnumbers⟩

/-- **The window of an update shows every inserted row, and no row on another line**, just if no row
was placed on the line of an inserted row before it, and none is inserted on the last line that a
number can name. -/
theorem vlfWindowFromOps_faithful_iff
    (hnumbered : ∀ line ∈ insertedLines ops, line.logicalLine.isSome)
    (h : vlfWindowFromOps ops old oldStart scopes blob = .ok (some (start, end_, cache))) :
    Faithful old oldStart (insertions scopes (opParts ops blob)) start end_ cache ↔
      ∀ row ∈ insertions scopes (opParts ops blob), row.1 < usizeMax ∧
        (arrivals old oldStart scopes 0 none (opParts ops blob)).find? (·.1 = row.1)
          = some row := by
  obtain ⟨hwindow, hnumbers⟩ := windowOf_vlfWindowFromOps hnumbered h
  exact hwindow.holds_window_iff hnumbers (fun _ ↦ known_of_mem_insertions) fun _ ↦ mem_arrivals

def heldRow (text : List UInt8) (ln : ℕ) : LineSlot := .known ⟨text, [], [], some ln⟩

def copyOp : CoreUpdateOp := ⟨.copy, 1, [], false⟩

def insertFirstLine : CoreUpdateOp := ⟨.insert, 1, [⟨some [98], [], none, some 1⟩], false⟩

theorem vlfWindowFromOps_faithful_insert_copy :
    Faithful [heldRow [97] 1, heldRow [99] 2] 1 [(1, heldRow [98] 1)] 1 3
      [heldRow [98] 1, heldRow [99] 2] :=
  have hnumbered : ∀ line ∈ insertedLines [insertFirstLine, copyOp], line.logicalLine.isSome := by
    decide
  have hwindow : vlfWindowFromOps [insertFirstLine, copyOp] [heldRow [97] 1, heldRow [99] 2] 1 []
    none =
      .ok (some (1, 3, [heldRow [98] 1, heldRow [99] 2])) := rfl
  (vlfWindowFromOps_faithful_iff hnumbered hwindow).mpr (by decide)

/-- The line before the window is copied, and the first line of the window is inserted anew: the row
that is copied takes its line. -/
theorem copied_row_overrides : ¬ ∀ (ops : List CoreUpdateOp) (old : List LineSlot) (oldStart : ℕ)
    (scopes : List String) (blob : Option (List UInt8)) (start end_ : ℕ) (cache : List LineSlot),
    (∀ line ∈ insertedLines ops, line.logicalLine.isSome) →
    vlfWindowFromOps ops old oldStart scopes blob = .ok (some (start, end_, cache)) →
    Faithful old oldStart (insertions scopes (opParts ops blob)) start end_ cache := by
  intro h
  have hfaithful := h [copyOp, insertFirstLine] [heldRow [97] 1] 1 [] none 1 2 [heldRow [97] 1]
    (by decide) (by decide +kernel)
  have hinserted := hfaithful.inserted (1, heldRow [98] 1) (by decide)
  exact absurd hinserted.2 (by decide)

end EeEditor.Frontend
