import EeEditor.Frontend.FrameRows

/-!
# Updates that are rejected

A payload is rejected for its frame, for the lengths of its operations or for the spans of its
lines. For a loaded file that leaves the buffer as it was. For a very large file the line cache
stays, but the flags and counts of the update have already been set.
-/

namespace EeEditor.Frontend

/-! ## Spans -/

def triples : List ℕ → List (ℕ × ℕ × ℕ)
  | start :: end_ :: scopeId :: rest => (start, end_, scopeId) :: triples rest
  | _ => []

/-- The spans that are kept, clipped at the end of the line. -/
def clipped (lineLen : ℕ) (flat : List ℕ) : List (ℕ × ℕ) :=
  ((triples flat).map fun t ↦ (t.1, min t.2.1 lineLen)).filter fun t ↦ t.1 < t.2

/-- Spans that can be decoded: whole triples, each of them in the line and with a known scope, and
those that are kept one after the other. -/
structure SpansFit (flat : List ℕ) (scopes lineLen : ℕ) : Prop where
  whole : flat.length % 3 = 0
  each : ∀ t ∈ triples flat, t.1 ≤ t.2.1 ∧ t.1 ≤ lineLen + trailingLineEndingBytes ∧ t.2.2 < scopes
  apart : (clipped lineLen flat).IsChain fun a b ↦ a.2 ≤ b.1

variable {scopes : List String} {lineLen cursor : ℕ} {flat : List ℕ}

/-- A result that is an error is none. -/
theorem error_iff {α : Type} {e : String} {p : Prop} (hp : ¬ p) :
    (∃ a : α, (.error e : Except String α) = .ok a) ↔ p :=
  ⟨fun ⟨_, h⟩ ↦ (nomatch h), fun h ↦ absurd h hp⟩

theorem map_iff {α β : Type} (x : Except String α) (f : α → β) :
    (∃ b, x.map f = .ok b) ↔ ∃ a, x = .ok a := by
  cases x with
  | error e => exact ⟨fun ⟨_, h⟩ ↦ (nomatch h), fun ⟨_, h⟩ ↦ (nomatch h)⟩
  | ok a => exact ⟨fun _ ↦ ⟨a, rfl⟩, fun _ ↦ ⟨f a, rfl⟩⟩

theorem ok_of_map {α β : Type} {x : Except String α} {f : α → β} {b : β}
    (h : x.map f = .ok b) : ∃ a, x = .ok a ∧ f a = b := by
  cases x with
  | error e => cases h
  | ok a =>
    cases h
    exact ⟨a, rfl, rfl⟩

theorem ok_of_bind {α β : Type} {x : Except String α} {f : α → Except String β} {b : β}
    (h : x >>= f = .ok b) : ∃ a, x = .ok a ∧ f a = .ok b := by
  cases x with
  | error e => cases h
  | ok a => exact ⟨a, rfl, h⟩

theorem bind_iff {α β : Type} {x : Except String α} {f : α → Except String β} :
    (∃ b, x >>= f = .ok b) ↔ ∃ a, x = .ok a ∧ ∃ b, f a = .ok b := by
  constructor
  · rintro ⟨b, h⟩
    obtain ⟨a, hx, hf⟩ := ok_of_bind h
    exact ⟨a, hx, b, hf⟩
  · rintro ⟨a, rfl, b, hf⟩
    exact ⟨b, hf⟩

theorem clipped_cons (start end_ scopeId : ℕ) (rest : List ℕ) :
    clipped lineLen (start :: end_ :: scopeId :: rest) =
      if start < min end_ lineLen then (start, min end_ lineLen) :: clipped lineLen rest
      else clipped lineLen rest := by
  rw [clipped, triples, List.map_cons, List.filter_cons]
  simp only [decide_eq_true_eq]
  rfl

theorem isChain_start {a b c : ℕ} {l : List (ℕ × ℕ)} :
    (((a, c) :: l).IsChain fun a b ↦ a.2 ≤ b.1) ↔ ((b, c) :: l).IsChain fun a b ↦ a.2 ≤ b.1 := by
  cases l with
  | nil => exact ⟨fun _ ↦ .singleton _, fun _ ↦ .singleton _⟩
  | cons d l => rw [List.isChain_cons_cons, List.isChain_cons_cons]

theorem decodeTriples_iff :
    (∃ spans, decodeTriples scopes lineLen cursor flat = .ok spans) ↔
      (∀ t ∈ triples flat, t.1 ≤ t.2.1 ∧ t.1 ≤ lineLen + trailingLineEndingBytes ∧
        t.2.2 < scopes.length) ∧
      ((0, cursor) :: clipped lineLen flat).IsChain fun a b ↦ a.2 ≤ b.1 := by
  induction flat using triples.induct generalizing cursor with
  | case1 start end_ scopeId rest ih =>
    rw [decodeTriples, triples, List.forall_mem_cons, clipped_cons]
    by_cases hend : end_ < start
    · rw [if_pos hend]
      exact error_iff fun h ↦ absurd h.1.1.1 (Nat.not_le.mpr hend)
    rw [if_neg hend]
    by_cases hstart : lineLen + trailingLineEndingBytes < start
    · rw [if_pos hstart]
      exact error_iff fun h ↦ absurd h.1.1.2.1 (Nat.not_le.mpr hstart)
    rw [if_neg hstart]
    rcases Nat.lt_or_ge scopeId scopes.length with hscope | hscope
    · rw [List.getElem?_eq_getElem hscope]
      have hfirst : start ≤ end_ ∧ start ≤ lineLen + trailingLineEndingBytes ∧
          scopeId < scopes.length := ⟨Nat.le_of_not_lt hend, Nat.le_of_not_lt hstart, hscope⟩
      dsimp only
      by_cases hempty : min end_ lineLen ≤ start
      · rw [if_pos hempty, if_neg (Nat.not_lt.mpr hempty), ih]
        simp only [hfirst, and_self, true_and]
      · rw [if_neg hempty, if_pos (Nat.lt_of_not_le hempty), List.isChain_cons_cons]
        by_cases hcursor : start < cursor
        · rw [if_pos hcursor]
          exact error_iff fun h ↦ absurd h.2.1 (Nat.not_le.mpr hcursor)
        · rw [if_neg hcursor, map_iff, ih, isChain_start (b := start)]
          simp only [hfirst, Nat.le_of_not_lt hcursor, and_self, true_and]
    · rw [List.getElem?_eq_none hscope]
      exact error_iff fun h ↦ absurd h.1.1.2.2 (Nat.not_lt.mpr hscope)
  | case2 flat hflat =>
    have hnone : triples flat = [] := triples.eq_2 flat hflat
    rw [decodeTriples.eq_2 _ _ _ _ hflat, clipped, hnone]
    exact ⟨fun _ ↦ ⟨nofun, .singleton _⟩, fun _ ↦ ⟨[], rfl⟩⟩

theorem decodeSpans_iff :
    (∃ spans, decodeSpans flat scopes lineLen = .ok spans) ↔
    SpansFit flat scopes.length lineLen := by
  rw [decodeSpans]
  by_cases hwhole : flat.length % 3 = 0
  · rw [if_neg (not_not.mpr hwhole), decodeTriples_iff]
    constructor
    · rintro ⟨heach, hchain⟩
      exact ⟨hwhole, heach, hchain.of_cons⟩
    · rintro ⟨-, heach, hchain⟩
      refine ⟨heach, ?_⟩
      cases hclipped : clipped lineLen flat with
      | nil => exact .singleton _
      | cons d l => exact List.isChain_cons_cons.mpr ⟨Nat.zero_le _, hclipped ▸ hchain⟩
  · rw [if_pos hwhole]
    exact error_iff fun h ↦ hwhole h.whole

/-! ## Rows -/

/-- The spans of a line fit the text that it has of its own or from the frame. -/
def LineFits (scopes : List String) (line : CoreLine) (row : Option (List UInt8)) : Prop :=
  ∀ flat ∈ line.spans,
    SpansFit flat scopes.length (stripLineEnding ((line.text.or row).getD [])).length

/-- A slot with the text of its row, if the line has one. -/
def Shows (line : CoreLine) (row : Option (List UInt8)) (slot : LineSlot) : Prop :=
  ∃ cached, slot = .known cached ∧ ∀ text ∈ line.text.or row, cached.text = stripLineEnding text

/-- A row as it is handed out: in UTF-8, and only to a line without text. -/
def Proper (line : CoreLine) (row : Option (List UInt8)) : Prop :=
  ∀ bytes ∈ row, line.text = none ∧ isUtf8 bytes = true

variable {line : CoreLine} {row : Option (List UInt8)}

theorem Proper.rowText (h : Proper line row) (op : String) :
    rowText line.text row op = .ok (line.text.or row) := by
  cases htext : line.text with
  | some text =>
    cases row with
    | none => rfl
    | some bytes => exact absurd (h bytes rfl).1 (by rw [htext]; exact nofun)
  | none =>
    cases row with
    | none => rfl
    | some bytes =>
      rw [Frontend.rowText, if_pos (h bytes rfl).2]
      rfl

theorem length_strip (text : Option (List UInt8)) :
    (text.map fun text ↦ (stripLineEnding text).length).getD 0 =
      (stripLineEnding (text.getD [])).length := by
  cases text <;> rfl

theorem fromCoreLine_eq (h : Proper line row) :
    LineSlot.fromCoreLine line scopes row =
      (spansOr [] line.spans scopes (stripLineEnding ((line.text.or row).getD [])).length).map
        fun syntaxSpans ↦
          .known ⟨normalizeLineText (line.text.or row), line.cursor, syntaxSpans,
            line.logicalLine⟩ := by
  rw [LineSlot.fromCoreLine, h.rowText, ← length_strip]
  rfl

theorem fromCoreLine_iff (h : Proper line row) :
    (∃ slot, LineSlot.fromCoreLine line scopes row = .ok slot) ↔ LineFits scopes line row := by
  rw [fromCoreLine_eq h, map_iff, LineFits]
  cases line.spans with
  | none => exact ⟨fun _ ↦ nofun, fun _ ↦ ⟨[], rfl⟩⟩
  | some flat => simp only [spansOr, decodeSpans_iff, Option.mem_some_iff, forall_eq']

theorem shows_fromCoreLine (h : Proper line row) {slot : LineSlot}
    (hslot : LineSlot.fromCoreLine line scopes row = .ok slot) : Shows line row slot := by
  rw [fromCoreLine_eq h] at hslot
  obtain ⟨syntaxSpans, -, rfl⟩ := ok_of_map hslot
  refine ⟨_, rfl, fun text htext ↦ ?_⟩
  rw [Option.mem_def.mp htext]
  rfl

theorem shows_merge (h : Proper line row) {slot merged : LineSlot}
    (hmerged : slot.merge line scopes row = .ok merged) : Shows line row merged := by
  cases slot with
  | invalid =>
    rw [LineSlot.merge] at hmerged
    split at hmerged
    · cases hmerged
    · exact shows_fromCoreLine h hmerged
  | known cached =>
    have hstep : LineSlot.merge (.known cached) line scopes row =
        (spansOr cached.syntaxSpans line.spans scopes (((line.text.or row).map fun text ↦
          (stripLineEnding text).length).getD cached.text.length)).map fun syntaxSpans ↦
            .known ⟨((line.text.or row).map stripLineEnding).getD cached.text, line.cursor,
              syntaxSpans, line.logicalLine.or cached.logicalLine⟩ := by
      rw [LineSlot.merge, h.rowText]
      rfl
    rw [hstep] at hmerged
    obtain ⟨syntaxSpans, -, rfl⟩ := ok_of_map hmerged
    refine ⟨_, rfl, fun text htext ↦ ?_⟩
    rw [Option.mem_def.mp htext]
    rfl

variable {ops : List CoreUpdateOp} {blob : Option (List UInt8)} {lines : List CoreLine}
  {opRows : List (Option (List UInt8))} {handed : List (List (Option (List UInt8)))}
  {slots merged : List LineSlot}

/-- The rows of a frame in UTF-8 are handed out properly. -/
theorem proper_of_rows {b : Bool}
    (hrows : List.Forall₂ (fun line row ↦ row.isSome = line.wantsRow b) lines opRows)
    (hutf8 : ∀ bytes ∈ opRows.reduceOption, isUtf8 bytes = true) :
    List.Forall₂ Proper lines opRows := by
  induction hrows with
  | nil => exact .nil
  | @cons line row lines opRows hrow _ ih =>
    refine .cons (fun bytes hbytes ↦ ?_) (ih fun bytes hbytes ↦ hutf8 bytes ?_)
    · rw [Option.mem_def.mp hbytes, CoreLine.wantsRow] at hrow
      refine ⟨Option.isNone_iff_eq_none.mp ((Bool.and_eq_true _ _).mp hrow.symm).2, hutf8 bytes ?_⟩
      rw [List.reduceOption_mem_iff, Option.mem_def.mp hbytes]
      exact List.mem_cons_self
    · rw [List.reduceOption_mem_iff] at hbytes ⊢
      exact List.mem_cons_of_mem _ hbytes

theorem BlobFits.proper (h : BlobFits ops blob) : List.Forall₂
    (fun op opRows ↦ List.Forall₂ Proper op.lines opRows) ops
      (handOut ⟨frameRows ops blob, 0⟩ ops) := by
  have hutf8 : ∀ row ∈ (handOut ⟨frameRows ops blob, 0⟩ ops).flatten.reduceOption,
      isUtf8 row = true := fun row hrow ↦ h.utf8 (h.handed.once ▸ hrow)
  have hlines := h.handed.lines
  generalize handOut ⟨frameRows ops blob, 0⟩ ops = handed at hlines hutf8 ⊢
  clear h
  induction hlines with
  | nil => exact .nil
  | cons hrows _ ih =>
    rw [List.flatten_cons, List.reduceOption_append, List.forall_mem_append] at hutf8
    exact .cons (proper_of_rows hrows hutf8.1) (ih hutf8.2)

/-! ## Loaded files -/

/-- The rows of an operation show their texts. -/
def ShowsAll (lines : List CoreLine) (opRows : List (Option (List UInt8))) (slots : List LineSlot) :
    Prop :=
  List.Forall₂ (fun q slot ↦ Shows q.1 q.2 slot) (lines.zip opRows) slots

theorem shows_insertRows (hproper : List.Forall₂ Proper lines opRows)
    (h : insertRows scopes lines opRows = .ok slots) : ShowsAll lines opRows slots := by
  induction hproper generalizing slots with
  | nil =>
    cases h
    exact .nil
  | cons hrow _ ih =>
    obtain ⟨slot, hslot, h⟩ := ok_of_bind h
    obtain ⟨rest, hrest, h⟩ := ok_of_bind h
    cases h
    exact .cons (shows_fromCoreLine hrow hslot) (ih hrest)

theorem shows_mergeRows (hproper : List.Forall₂ Proper lines opRows)
    (hlen : slots.length = lines.length) (h : mergeRows scopes slots lines opRows = .ok merged) :
    ShowsAll lines opRows merged := by
  induction hproper generalizing slots merged with
  | nil =>
    rw [mergeRows.eq_def] at h
    cases slots <;> cases h <;> exact .nil
  | cons hrow _ ih =>
    cases slots with
    | nil => cases hlen
    | cons slot slots =>
      obtain ⟨first, hfirst, h⟩ := ok_of_bind h
      obtain ⟨rest, hrest, h⟩ := ok_of_bind h
      cases h
      exact .cons (shows_merge hrow hfirst) (ih (Nat.succ.inj hlen) hrest)

theorem checkedAdvance_ok {current amount len end_ : ℕ} {name : String}
    (h : checkedAdvance current amount len name = .ok end_) :
    end_ = current + amount ∧ current + amount ≤ len := by
  rw [checkedAdvance] at h
  split at h
  · cases h
  · split at h
    case isTrue => cases h
    case isFalse hle =>
      cases h
      exact ⟨rfl, Nat.le_of_not_lt hle⟩

/-- What an accepted operation adds shows the texts of its rows. -/
theorem shows_opSlots {previous : List LineSlot} {op : CoreUpdateOp} {sourceIndex next : ℕ}
    (hproper : List.Forall₂ Proper op.lines opRows)
    (h : opSlots previous scopes opRows sourceIndex op = .ok (slots, next))
    (hop : op.op = .insert ∨ op.op = .update) : ShowsAll op.lines opRows slots := by
  rcases hop with hop | hop
  · rw [opSlots, hop] at h
    dsimp only at h
    split at h
    · cases h
    · obtain ⟨rest, hrest, h⟩ := ok_of_bind h
      cases h
      exact shows_insertRows hproper hrest
  · rw [opSlots, hop] at h
    dsimp only at h
    split at h
    · cases h
    case isFalse hn =>
      obtain ⟨end_, hend, h⟩ := ok_of_bind h
      obtain ⟨rest, hrest, h⟩ := ok_of_bind h
      cases h
      obtain ⟨rfl, hle⟩ := checkedAdvance_ok hend
      refine shows_mergeRows hproper ?_ hrest
      rw [List.length_drop, List.length_take, not_not.mp hn]
      omega

/-- The cache of an accepted update is put together from the parts of its operations, and the rows
show the texts that they were handed: each row of the frame is handed out once, in order. -/
def Received (ops : List CoreUpdateOp) (blob : Option (List UInt8)) (cache : List LineSlot) :
    Prop :=
  (declaresBlob ops = true → ∃ frame, blob = some frame ∧
    decodeFrame frame = .ok (frameRows ops blob)) ∧
  ∃ handed parts, Handed ops handed (frameRows ops blob) ∧ cache = parts.flatten ∧
    List.Forall₂ (fun p part ↦ (p.1.op = .insert ∨ p.1.op = .update) →
      ShowsAll p.1.lines p.2 part) (ops.zip handed) parts

theorem ropeLoop_parts {previous : List LineSlot} {frameRows : BlobRows} {sourceIndex : ℕ}
    {cache : List LineSlot}
    (hproper : List.Forall₂ (fun op opRows ↦ List.Forall₂ Proper op.lines opRows) ops
      (handOut frameRows ops))
    (h : ropeLoop previous scopes frameRows sourceIndex ops = .ok cache) :
    ∃ parts, cache = parts.flatten ∧
      List.Forall₂ (fun p part ↦ (p.1.op = .insert ∨ p.1.op = .update) →
        ShowsAll p.1.lines p.2 part) (ops.zip (handOut frameRows ops)) parts := by
  induction ops generalizing frameRows sourceIndex cache with
  | nil =>
    cases h
    exact ⟨[], rfl, .nil⟩
  | cons op ops ih =>
    rw [handOut] at hproper ⊢
    obtain ⟨hfirst, hrest⟩ := List.forall₂_cons.mp hproper
    obtain ⟨⟨slots, next⟩, hslots, h⟩ := ok_of_bind h
    obtain ⟨rest, hloop, h⟩ := ok_of_bind h
    cases h
    obtain ⟨parts, rfl, hparts⟩ := ih hrest hloop
    exact ⟨slots :: parts, rfl, .cons (shows_opSlots hfirst hslots) hparts⟩

theorem received_ropeUpdate {previous cache : List LineSlot}
    (h : ropeUpdate ops previous scopes blob = .ok cache) : Received ops blob cache := by
  obtain ⟨frameRows, hvalid, h⟩ := ok_of_bind h
  obtain ⟨hfits, rfl⟩ := validateBlobOps_iff.mp hvalid
  obtain ⟨parts, hcache, hparts⟩ := ropeLoop_parts hfits.proper h
  refine ⟨fun hdeclares ↦ ?_, _, parts, hfits.handed, hcache, hparts⟩
  obtain ⟨frame, rows, rfl, hdecode, -⟩ := hfits hdeclares
  exact ⟨frame, rfl, frameRows_some hdeclares hdecode ▸ hdecode⟩

/-! ## Windows of very large files -/

/-- The window of an update can be made: its frame fits, and if it inserts lines, the frame that it
carries can be decoded and the spans of those lines fit. -/
def WindowFits (ops : List CoreUpdateOp) (scopes : List String) (blob : Option (List UInt8)) :
    Prop :=
  BlobFits ops blob ∧ (ops.any (·.op = .insert) = true →
    (∀ frame ∈ blob, ∃ rows, decodeFrame frame = .ok rows) ∧
      ∀ p ∈ ops.zip (handOut ⟨frameRows ops blob, 0⟩ ops), p.1.op = .insert →
        ∀ q ∈ p.1.lines.zip p.2, LineFits scopes q.1 q.2)

theorem windowInsertRows_iff (hproper : List.Forall₂ Proper lines opRows) :
    (∃ rows, windowInsertRows scopes lines opRows = .ok rows) ↔
      ∀ q ∈ lines.zip opRows, LineFits scopes q.1 q.2 := by
  induction hproper with
  | nil => exact ⟨fun _ ↦ nofun, fun _ ↦ ⟨[], rfl⟩⟩
  | @cons line row lines opRows hrow _ ih =>
    rw [List.zip_cons_cons, List.forall_mem_cons, ← ih, ← fromCoreLine_iff hrow, windowInsertRows,
      bind_iff]
    constructor
    · rintro ⟨slot, hslot, h⟩
      obtain ⟨rows, hrows, -⟩ := bind_iff.mp h
      exact ⟨⟨slot, hslot⟩, rows, hrows⟩
    · rintro ⟨⟨slot, hslot⟩, rows, hrows⟩
      exact ⟨slot, hslot, bind_iff.mpr ⟨rows, hrows, _, rfl⟩⟩

theorem windowLoop_iff {old : List LineSlot} {oldStart sourceIndex : ℕ} {frameRows : BlobRows}
    {rows : List (Option ℕ × LineSlot)}
    (hproper : List.Forall₂ (fun op opRows ↦ List.Forall₂ Proper op.lines opRows) ops
      (handOut frameRows ops)) :
    (∃ rows', windowLoop old oldStart scopes frameRows sourceIndex rows ops = .ok rows') ↔
      ∀ p ∈ ops.zip (handOut frameRows ops), p.1.op = .insert →
        ∀ q ∈ p.1.lines.zip p.2, LineFits scopes q.1 q.2 := by
  induction ops generalizing frameRows sourceIndex rows with
  | nil => exact ⟨fun _ ↦ nofun, fun _ ↦ ⟨rows, rfl⟩⟩
  | cons op ops ih =>
    rw [handOut] at hproper ⊢
    obtain ⟨hfirst, hrest⟩ := List.forall₂_cons.mp hproper
    rw [List.zip_cons_cons, List.forall_mem_cons, windowLoop]
    dsimp only
    cases hop : op.op with
    | insert =>
      rw [bind_iff]
      simp only [ih hrest, exists_and_right, windowInsertRows_iff hfirst, forall_const]
    | skip => simp only [ih hrest, reduceCtorEq, false_imp_iff, true_and]
    | copy => simp only [ih hrest, reduceCtorEq, false_imp_iff, true_and]
    | update => simp only [ih hrest, reduceCtorEq, false_imp_iff, true_and]
    | invalidate => simp only [ih hrest, reduceCtorEq, false_imp_iff, true_and]

theorem takeOpRows_false (r : BlobRows) (lines : List CoreLine) :
    takeOpRows false r lines = (lines.map fun _ ↦ none, r) := by
  induction lines with
  | nil => rfl
  | cons line lines ih =>
    rw [takeOpRows, if_neg Bool.false_ne_true]
    dsimp only
    rw [ih]
    rfl

/-- Operations that declare no frame get no rows. -/
theorem handOut_of_undeclared (hdeclares : declaresBlob ops = false) (r r' : BlobRows) :
    handOut r ops = handOut r' ops := by
  induction ops generalizing r r' with
  | nil => rfl
  | cons op ops ih =>
    rw [declaresBlob, List.any_cons, Bool.or_eq_false_iff] at hdeclares
    rw [handOut, handOut, hdeclares.1, takeOpRows_false, takeOpRows_false, ih hdeclares.2 r r']

/-- The rows are handed out alike, whether the frame is looked at or only if it is declared. -/
theorem handOut_decoded (hfits : BlobFits ops blob) {r : BlobRows}
    (hdecode : (blob.map BlobRows.decode).getD (.ok ⟨[], 0⟩) = .ok r) :
    handOut r ops = handOut ⟨frameRows ops blob, 0⟩ ops := by
  cases hdeclares : declaresBlob ops with
  | false => exact handOut_of_undeclared hdeclares _ _
  | true =>
    obtain ⟨frame, rows, rfl, hframe, -⟩ := hfits hdeclares
    obtain ⟨rows', hframe', rfl⟩ := ok_of_map hdecode
    rw [frameRows_some hdeclares hframe']

theorem decode_iff :
    (∃ r, (blob.map BlobRows.decode).getD (.ok ⟨[], 0⟩) = .ok r) ↔
      ∀ frame ∈ blob, ∃ rows, decodeFrame frame = .ok rows := by
  cases blob with
  | none => exact ⟨fun _ ↦ nofun, fun _ ↦ ⟨_, rfl⟩⟩
  | some frame =>
    rw [Option.map_some, Option.getD_some, BlobRows.decode, map_iff]
    simp only [Option.mem_some_iff, forall_eq']

/-- Once the rows are read, there is a window or there are no rows. -/
theorem exists_window (ops : List CoreUpdateOp) (rows : List (Option ℕ × LineSlot)) :
    ∃ window, (if rows = [] then .ok none
      else match logicalRows rows with
        | some rows => .ok (unwrappedWindow (trimRows ops rows))
        | none => .ok (some (wrappedWindow ops rows)) :
          Except String (Option (ℕ × ℕ × List LineSlot))) = .ok window := by
  split_ifs
  · exact ⟨none, rfl⟩
  · cases logicalRows rows <;> exact ⟨_, rfl⟩

theorem vlfWindowFromOps_iff (old : List LineSlot) (oldStart : ℕ) (hfits : BlobFits ops blob) :
    (∃ window, vlfWindowFromOps ops old oldStart scopes blob = .ok window) ↔
      (ops.any (·.op = .insert) = true →
        (∀ frame ∈ blob, ∃ rows, decodeFrame frame = .ok rows) ∧
          ∀ p ∈ ops.zip (handOut ⟨frameRows ops blob, 0⟩ ops), p.1.op = .insert →
            ∀ q ∈ p.1.lines.zip p.2, LineFits scopes q.1 q.2) := by
  rw [vlfWindowFromOps]
  cases hinsert : ops.any (·.op = .insert) with
  | false => exact ⟨fun _ ↦ nofun, fun _ ↦ ⟨none, rfl⟩⟩
  | true =>
    rw [if_neg (by decide), bind_iff, ← decode_iff]
    constructor
    · rintro ⟨r, hr, hwindow⟩ -
      obtain ⟨rows, hrows, -⟩ := bind_iff.mp hwindow
      have hhand := handOut_decoded hfits hr
      exact ⟨⟨r, hr⟩, hhand ▸ (windowLoop_iff (hhand ▸ hfits.proper)).mp ⟨rows, hrows⟩⟩
    · intro h
      obtain ⟨⟨r, hr⟩, hlines⟩ := h rfl
      have hhand := handOut_decoded hfits hr
      have hloop : ∃ rows, windowLoop old oldStart scopes r 0 [] ops = .ok rows :=
        (windowLoop_iff (hhand ▸ hfits.proper)).mpr (hhand ▸ hlines)
      obtain ⟨rows, hrows⟩ := hloop
      exact ⟨r, hr, bind_iff.mpr ⟨rows, hrows, exists_window ops rows⟩⟩

theorem replaceVlfWindow_iff (lineCache : List LineSlot) (texts : List (List UInt8))
    (windowStart : ℕ) :
    (∃ bounds, (replaceVlfWindow lineCache texts ops windowStart scopes blob).1 = .ok bounds) ↔
      WindowFits ops scopes blob := by
  rw [replaceVlfWindow, WindowFits]
  cases hvalid : validateBlobOps ops blob with
  | error e =>
    refine error_iff fun h ↦ ?_
    have := validateBlobOps_iff.mpr ⟨h.1, rfl⟩
    rw [hvalid] at this
    cases this
  | ok r =>
    obtain ⟨hfits, -⟩ := validateBlobOps_iff.mp hvalid
    rw [← vlfWindowFromOps_iff lineCache windowStart hfits]
    dsimp only
    cases hwindow : vlfWindowFromOps ops lineCache windowStart scopes blob with
    | error e => exact error_iff fun h ↦ by obtain ⟨-, _, h⟩ := h; cases h
    | ok window =>
      refine ⟨fun _ ↦ ⟨hfits, window, rfl⟩, fun _ ↦ ?_⟩
      cases window with
      | none => exact ⟨none, rfl⟩
      | some w => exact ⟨some (w.1, w.2.1), rfl⟩

/-- A window that is rejected is put back. -/
theorem replaceVlfWindow_error {lineCache : List LineSlot} {texts : List (List UInt8)}
    {windowStart : ℕ} (hfits : ¬ WindowFits ops scopes blob) :
    ∃ e, replaceVlfWindow lineCache texts ops windowStart scopes blob =
      (.error e, lineCache, texts) := by
  rw [← replaceVlfWindow_iff lineCache texts windowStart] at hfits
  rw [replaceVlfWindow] at hfits ⊢
  cases hvalid : validateBlobOps ops blob with
  | error e => exact ⟨e, rfl⟩
  | ok r =>
    rw [hvalid] at hfits
    dsimp only at hfits ⊢
    cases hwindow : vlfWindowFromOps ops lineCache windowStart scopes blob with
    | error e => exact ⟨e, rfl⟩
    | ok window =>
      rw [hwindow] at hfits
      cases window <;> exact absurd ⟨_, rfl⟩ hfits

/-! ## Buffers -/

namespace BufState

variable {A P : Type} {self : BufState A P} {update : CoreUpdate A P}

/-- The update says of the buffer what it already says itself. -/
def HasHeader (self : BufState A P) (update : CoreUpdate A P) : Prop :=
  self.pristine = update.pristine ∧ self.annotations = update.annotations ∧
    ∀ total ∈ update.vlfTotalLines, self.vlfApproxLineCount = total.count ∧
      self.vlfLineCountExact = total.exact_ ∧ self.vlfIndexProgress = total.indexProgress

/-- An update that is rejected changes nothing; if a loaded file accepts it, the rows have received
their texts. -/
def KeepsWhole (self : BufState A P) (update : CoreUpdate A P) : Prop :=
  (∀ e self', self.applyUpdate update = (.error e, self') → self' = self) ∧
    (self.isVlf = false → ∀ self', self.applyUpdate update = (.ok (), self') →
      Received update.ops update.blob self'.lineCache)

theorem lineCache_clampCursor (self : BufState A P) :
    self.clampCursor.lineCache = self.lineCache := by
  rw [clampCursor]
  split
  · dsimp only
    split <;> rfl
  · dsimp only
    split <;> rfl

theorem lineCache_syncCursorFromCache (self : BufState A P) :
    self.syncCursorFromCache.lineCache = self.lineCache := by
  rw [syncCursorFromCache]
  split
  · exact lineCache_clampCursor self
  · split
    · rw [lineCache_clampCursor]
    · exact lineCache_clampCursor self

theorem setHeader_eq_iff : self.setHeader update = self ↔ self.HasHeader update := by
  rw [setHeader, HasHeader]
  cases htotal : update.vlfTotalLines with
  | none =>
    constructor
    · intro h
      exact ⟨(congrArg pristine h).symm, (congrArg annotations h).symm, nofun⟩
    · rintro ⟨hpristine, hannotations, -⟩
      dsimp only
      rw [← hpristine, ← hannotations]
  | some total =>
    constructor
    · intro h
      refine ⟨(congrArg pristine h).symm, (congrArg annotations h).symm, fun total' htotal' ↦ ?_⟩
      obtain rfl := Option.some_inj.mp htotal'
      exact ⟨(congrArg vlfApproxLineCount h).symm, (congrArg vlfLineCountExact h).symm,
        (congrArg vlfIndexProgress h).symm⟩
    · rintro ⟨hpristine, hannotations, hcounts⟩
      obtain ⟨hcount, hexact, hprogress⟩ := hcounts total rfl
      dsimp only
      rw [← hpristine, ← hannotations, ← hcount, ← hexact, ← hprogress]

theorem keepsWhole_of_loaded (hvlf : self.isVlf = false) : self.KeepsWhole update := by
  cases hrope : ropeUpdate update.ops self.lineCache update.scopes update.blob with
  | error e =>
    have hstep : self.applyUpdate update = (.error e, self) := by
      rw [applyUpdate, hvlf, if_neg Bool.false_ne_true, hrope]
    refine ⟨fun e' self' h ↦ ?_, fun _ self' h ↦ ?_⟩
    · rw [hstep] at h
      exact (Prod.mk.inj h).2.symm
    · rw [hstep] at h
      cases (Prod.mk.inj h).1
  | ok cache =>
    have hstep : self.applyUpdate update = (.ok (), syncCursorFromCache { self with
        lineCache := cache
        lines := lineTextsForCache cache
        pristine := update.pristine
        annotations := update.annotations }) := by
      rw [applyUpdate, hvlf, if_neg Bool.false_ne_true, hrope]
    refine ⟨fun e' self' h ↦ ?_, fun _ self' h ↦ ?_⟩
    · rw [hstep] at h
      cases (Prod.mk.inj h).1
    · rw [hstep] at h
      rw [← (Prod.mk.inj h).2, lineCache_syncCursorFromCache]
      exact received_ropeUpdate hrope

variable (self) in
/-- An update of a very large file whose window does not fit leaves its header. -/
theorem applyVlfUpdateWindow_error (hfits : ¬ WindowFits update.ops update.scopes update.blob) :
    ∃ e, self.applyVlfUpdateWindow update = (.error e, self.setHeader update) := by
  have herror : ∀ lineCache texts windowStart, ∃ e, replaceVlfWindow lineCache texts update.ops
      windowStart update.scopes update.blob = (.error e, lineCache, texts) := fun _ _ _ ↦
    replaceVlfWindow_error hfits
  obtain ⟨e, he⟩ := herror (self.setHeader update).lineCache (self.setHeader update).lines
    (self.setHeader update).vlfCacheStartLine
  refine ⟨e, ?_⟩
  rw [applyVlfUpdateWindow]
  dsimp only
  rw [he]

variable (self) in
theorem applyVlfUpdateWindow_ok (hfits : WindowFits update.ops update.scopes update.blob) :
    (self.applyVlfUpdateWindow update).1 = .ok () := by
  rw [← replaceVlfWindow_iff (self.setHeader update).lineCache (self.setHeader update).lines
    (self.setHeader update).vlfCacheStartLine] at hfits
  obtain ⟨bounds, hbounds⟩ := hfits
  rw [applyVlfUpdateWindow]
  dsimp only
  rw [hbounds]
  cases bounds <;> rfl

theorem keepsWhole_iff : self.KeepsWhole update ↔
    (self.isVlf = true →
      WindowFits update.ops update.scopes update.blob ∨ self.HasHeader update) := by
  cases hvlf : self.isVlf with
  | false => exact ⟨fun _ ↦ nofun, fun _ ↦ keepsWhole_of_loaded hvlf⟩
  | true =>
    have hstep : self.applyUpdate update = self.applyVlfUpdateWindow update := by
      rw [applyUpdate, hvlf]
      rfl
    rw [KeepsWhole, hstep]
    simp only [hvlf, true_imp_iff, reduceCtorEq, false_imp_iff, and_true]
    constructor
    · intro h
      by_cases hfits : WindowFits update.ops update.scopes update.blob
      · exact .inl hfits
      · obtain ⟨e, he⟩ := self.applyVlfUpdateWindow_error hfits
        exact .inr (setHeader_eq_iff.mp (h e _ he))
    · intro h e self' he
      have hfits : ¬ WindowFits update.ops update.scopes update.blob := fun hfits ↦ by
        have hok := self.applyVlfUpdateWindow_ok hfits
        rw [he] at hok
        cases hok
      obtain ⟨e', he'⟩ := self.applyVlfUpdateWindow_error hfits
      rw [he] at he'
      exact (Prod.mk.inj he').2.trans (setHeader_eq_iff.mpr (h.resolve_left hfits))

/-- A window on one line of a pristine file. -/
def sampleWindow : BufState Unit Unit :=
  ⟨[.known ⟨[97], [], [], some 0⟩], [[97]], 0, 0, true, none, [], true, 0, 1, true, (), false, none⟩

/-- An update of a changed file, whose spans are no triples. -/
def malformedUpdate : CoreUpdate Unit Unit :=
  ⟨[⟨.insert, 1, [⟨some [98], [], some [0], some 0⟩], false⟩], false, [], none, [], none⟩

/-- An update that is rejected has taken away the flag that the file is pristine. -/
theorem rejected_update_changes : ¬ ∀ (self : BufState Unit Unit) (update : CoreUpdate Unit Unit),
    self.KeepsWhole update := by
  intro h
  have hrejected : sampleWindow.applyUpdate malformedUpdate =
      (.error s!"spans array is not [start, end, scope_id] triples: {1} entries",
        { sampleWindow with pristine := false }) := rfl
  cases congrArg pristine ((h sampleWindow malformedUpdate).1 _ _ hrejected)

end BufState

end EeEditor.Frontend
