import Mathlib.Data.List.ReduceOption
import EeEditor.Frontend.LineCache

/-!
# The rows of a text frame

The operations of a payload want a row of the frame for each line that has no text of its own, if
their flag is set. A payload is valid if the frame holds just as many rows and all of them are
UTF-8; then the appliers hand out the same rows again, each one once and in order.
-/

namespace EeEditor.Frontend

/-- The line takes a row of the frame. -/
def CoreLine.wantsRow (blob : Bool) (line : CoreLine) : Bool := blob && line.text.isNone

/-- The number of rows that some operations want. -/
def wanted (ops : List CoreUpdateOp) : ℕ :=
  (ops.map fun op ↦ op.lines.countP (CoreLine.wantsRow op.blob)).sum

/-- The rows that `take_op_rows` gives to the operations one after the other. -/
def handOut : BlobRows → List CoreUpdateOp → List (List (Option (List UInt8)))
  | _, [] => []
  | rows, op :: ops =>
    (takeOpRows op.blob rows op.lines).1 :: handOut (takeOpRows op.blob rows op.lines).2 ops

/-- The frame that an update declares holds what its operations want. -/
def BlobFits (ops : List CoreUpdateOp) (blob : Option (List UInt8)) : Prop :=
  declaresBlob ops = true → ∃ frame rows, blob = some frame ∧ decodeFrame frame = .ok rows ∧
    wanted ops = rows.length ∧ ∀ row ∈ rows, isUtf8 row = true

/-- The rows of the frame that the operations declare. -/
def frameRows (ops : List CoreUpdateOp) (blob : Option (List UInt8)) : List (List UInt8) :=
  match declaresBlob ops, blob with
  | true, some frame => (decodeFrame frame).toOption.getD []
  | _, _ => []

/-- The rows are those of the frame, each one once: a line gets one if it wants one. -/
structure Handed (ops : List CoreUpdateOp) (handed : List (List (Option (List UInt8))))
    (rows : List (List UInt8)) : Prop where
  lines : List.Forall₂ (fun op opRows ↦
    List.Forall₂ (fun line row ↦ row.isSome = line.wantsRow op.blob) op.lines opRows) ops handed
  once : handed.flatten.reduceOption = rows

variable {rows : List (List UInt8)} {i : ℕ} {lines : List CoreLine} {ops : List CoreUpdateOp}
  {blob : Option (List UInt8)} {frame : List UInt8}

theorem frameRows_of_undeclared (hdeclares : declaresBlob ops = false) :
    frameRows ops blob = [] := by
  simp only [frameRows, hdeclares]

theorem frameRows_some (hdeclares : declaresBlob ops = true)
    (hdecode : decodeFrame frame = .ok rows) : frameRows ops (some frame) = rows := by
  simp only [frameRows, hdeclares, hdecode]
  rfl

theorem wanted_cons (op : CoreUpdateOp) (ops : List CoreUpdateOp) :
    wanted (op :: ops) = op.lines.countP (CoreLine.wantsRow op.blob) + wanted ops := by
  rw [wanted, List.map_cons, List.sum_cons, wanted]

/-! ## What is valid -/

theorem take_true (hi : i < rows.length) :
    BlobRows.take ⟨rows, i⟩ true = .ok (some rows[i], ⟨rows, i + 1⟩) := by
  rw [BlobRows.take, if_neg (by decide), List.getElem?_eq_getElem hi]

theorem take_true_of_le (hi : rows.length ≤ i) :
    BlobRows.take ⟨rows, i⟩ true =
      .error s!"text frame has {rows.length} rows but the payload references more" := by
  rw [BlobRows.take, if_neg (by decide), List.getElem?_eq_none hi]

theorem validateLines_iff (hi : i ≤ rows.length) {r : BlobRows} :
    validateLines ⟨rows, i⟩ lines = .ok r ↔
      i + lines.countP (CoreLine.wantsRow true) ≤ rows.length ∧
        (∀ row ∈ (rows.drop i).take (lines.countP (CoreLine.wantsRow true)), isUtf8 row = true) ∧
        r = ⟨rows, i + lines.countP (CoreLine.wantsRow true)⟩ := by
  induction lines generalizing i with
  | nil =>
    constructor
    · rintro ⟨⟩
      exact ⟨hi, by simp, rfl⟩
    · rintro ⟨-, -, rfl⟩
      rfl
  | cons line lines ih =>
    cases htext : line.text with
    | some text =>
      have hwants : line.wantsRow true = false := by rw [CoreLine.wantsRow, htext]; rfl
      have hstep : validateLines ⟨rows, i⟩ (line :: lines) = validateLines ⟨rows, i⟩ lines := by
        simp [validateLines, htext, BlobRows.take, bind, Except.bind]
      rw [hstep, List.countP_cons_of_neg (by simp [hwants]), ih hi]
    | none =>
      have hwants : line.wantsRow true = true := by rw [CoreLine.wantsRow, htext]; rfl
      rw [List.countP_cons_of_pos (by simp [hwants])]
      rcases Nat.lt_or_ge i rows.length with hlt | hge
      · have hstep : validateLines ⟨rows, i⟩ (line :: lines) =
            if isUtf8 rows[i] then validateLines ⟨rows, i + 1⟩ lines
            else .error s!"text frame row is not UTF-8: {utf8Error rows[i]}" := by
          simp [validateLines, htext, take_true hlt, bind, Except.bind]
        rw [hstep, List.drop_eq_getElem_cons hlt, List.take_succ_cons, List.forall_mem_cons]
        split
        case isTrue hutf8 =>
          have hnext : i + 1 + lines.countP (CoreLine.wantsRow true) =
              i + (lines.countP (CoreLine.wantsRow true) + 1) := by omega
          rw [ih (i := i + 1) hlt, hnext]
          simp only [hutf8, true_and]
        case isFalse hutf8 => simp [hutf8]
      · have hstep : validateLines ⟨rows, i⟩ (line :: lines) =
            .error s!"text frame has {rows.length} rows but the payload references more" := by
          simp [validateLines, htext, take_true_of_le hge, bind, Except.bind]
        rw [hstep]
        constructor
        · intro h
          cases h
        · rintro ⟨hle, -⟩
          omega

theorem validateOps_iff (hi : i ≤ rows.length) {r : BlobRows} :
    validateOps ⟨rows, i⟩ ops = .ok r ↔
      i + wanted ops ≤ rows.length ∧
        (∀ row ∈ (rows.drop i).take (wanted ops), isUtf8 row = true) ∧
        r = ⟨rows, i + wanted ops⟩ := by
  induction ops generalizing i with
  | nil =>
    constructor
    · rintro ⟨⟩
      exact ⟨hi, by simp [wanted], rfl⟩
    · rintro ⟨-, -, rfl⟩
      rfl
  | cons op ops ih =>
    have hwanted := wanted_cons op ops
    cases hblob : op.blob with
    | false =>
      have hnone : op.lines.countP (CoreLine.wantsRow false) = 0 :=
        List.countP_eq_zero.mpr fun line _ ↦ by simp [CoreLine.wantsRow]
      have hstep : validateOps ⟨rows, i⟩ (op :: ops) = validateOps ⟨rows, i⟩ ops := by
        simp [validateOps, hblob, bind, Except.bind]
      rw [hstep, ih hi, hwanted, hblob, hnone, Nat.zero_add]
    | true =>
      have hsplit : (rows.drop i).take (op.lines.countP (CoreLine.wantsRow true) + wanted ops) =
          (rows.drop i).take (op.lines.countP (CoreLine.wantsRow true)) ++
            (rows.drop (i + op.lines.countP (CoreLine.wantsRow true))).take (wanted ops) := by
        rw [List.take_add, List.drop_drop]
      rw [hwanted, hblob, hsplit, ← Nat.add_assoc]
      simp only [List.forall_mem_append]
      cases hvalid : validateLines ⟨rows, i⟩ op.lines with
      | error e =>
        have hstep : validateOps ⟨rows, i⟩ (op :: ops) = .error e := by
          simp [validateOps, hblob, hvalid, bind, Except.bind]
        rw [hstep]
        constructor
        · intro h
          cases h
        · rintro ⟨hle, ⟨hutf8, -⟩, -⟩
          have := (validateLines_iff hi).mpr ⟨by omega, hutf8, rfl⟩
          rw [hvalid] at this
          cases this
      | ok r' =>
        obtain ⟨hle, hutf8, rfl⟩ := (validateLines_iff hi).mp hvalid
        have hstep : validateOps ⟨rows, i⟩ (op :: ops) =
            validateOps ⟨rows, i + op.lines.countP (CoreLine.wantsRow true)⟩ ops := by
          simp [validateOps, hblob, hvalid, bind, Except.bind]
        rw [hstep, ih hle]
        constructor
        · rintro ⟨hrest, hutf8', rfl⟩
          exact ⟨hrest, ⟨hutf8, hutf8'⟩, rfl⟩
        · rintro ⟨hrest, ⟨-, hutf8'⟩, rfl⟩
          exact ⟨hrest, hutf8', rfl⟩

theorem validateBlobOps_some (hdeclares : declaresBlob ops = true)
    (hdecode : decodeFrame frame = .ok rows) {r : BlobRows} :
    validateBlobOps ops (some frame) = .ok r ↔
      wanted ops = rows.length ∧ (∀ row ∈ rows, isUtf8 row = true) ∧ r = ⟨rows, 0⟩ := by
  have hstep : validateBlobOps ops (some frame) = (validateOps ⟨rows, 0⟩ ops).bind fun rows ↦
      if rows.next ≠ rows.rows.length then
        .error s!"text frame has {rows.rows.length} rows but the payload consumed {rows.next}"
      else .ok { rows with next := 0 } := by
    simp [validateBlobOps, hdeclares, BlobRows.decode, hdecode, Except.map, bind, Except.bind]
  have hiff : ∀ {r}, validateOps ⟨rows, 0⟩ ops = .ok r ↔ wanted ops ≤ rows.length ∧
      (∀ row ∈ rows.take (wanted ops), isUtf8 row = true) ∧ r = ⟨rows, wanted ops⟩ := by
    intro r
    have hvalid := @validateOps_iff rows 0 ops (Nat.zero_le rows.length) r
    rwa [List.drop_zero, Nat.zero_add] at hvalid
  rw [hstep]
  cases hvalid : validateOps ⟨rows, 0⟩ ops with
  | error e =>
    constructor
    · intro h
      cases h
    · rintro ⟨hcount, hutf8, -⟩
      have := hiff.mpr ⟨hcount.le, fun row hrow ↦ hutf8 row (List.mem_of_mem_take hrow), rfl⟩
      rw [hvalid] at this
      cases this
  | ok r' =>
    obtain ⟨hle, hutf8, rfl⟩ := hiff.mp hvalid
    change (if wanted ops ≠ rows.length then _ else Except.ok (BlobRows.mk rows 0)) = .ok r ↔ _
    by_cases hcount : wanted ops = rows.length
    · rw [hcount, List.take_length] at hutf8
      rw [if_neg (not_not.mpr hcount), Except.ok.injEq]
      exact ⟨fun h ↦ ⟨hcount, hutf8, h.symm⟩, fun h ↦ h.2.2.symm⟩
    · rw [if_pos hcount]
      exact ⟨nofun, fun h ↦ absurd h.1 hcount⟩

/-- A payload is accepted if its frame fits; no row of that has been handed out then. -/
theorem validateBlobOps_iff {r : BlobRows} : validateBlobOps ops blob = .ok r ↔
    BlobFits ops blob ∧ r = ⟨frameRows ops blob, 0⟩ := by
  cases hdeclares : declaresBlob ops with
  | false =>
    have hstep : validateBlobOps ops blob = .ok ⟨[], 0⟩ := by simp [validateBlobOps, hdeclares]
    rw [hstep, BlobFits, frameRows_of_undeclared hdeclares]
    simp only [hdeclares, Bool.false_eq_true, false_imp_iff, true_and, Except.ok.injEq]
    exact eq_comm
  | true =>
    cases blob with
    | none =>
      have hstep : validateBlobOps ops none =
          .error "update declares a text frame but none was carried" := by
        simp [validateBlobOps, hdeclares]
      rw [hstep, BlobFits]
      simp [hdeclares]
    | some frame =>
      cases hdecode : decodeFrame frame with
      | error e =>
        have hstep : validateBlobOps ops (some frame) = .error e := by
          simp [validateBlobOps, hdeclares, BlobRows.decode, hdecode, Except.map, bind, Except.bind]
        rw [hstep, BlobFits]
        simp [hdeclares, hdecode]
      | ok rows =>
        rw [validateBlobOps_some hdeclares hdecode, BlobFits, frameRows_some hdeclares hdecode]
        simp [hdeclares, hdecode, and_assoc]

/-! ## What is handed out -/

theorem takeOpRows_spec (rows : List (List UInt8)) (b : Bool) (lines : List CoreLine)
    (hle : i + lines.countP (CoreLine.wantsRow b) ≤ rows.length) :
    ∃ opRows, takeOpRows b ⟨rows, i⟩ lines
    = (opRows, ⟨rows, i + lines.countP (CoreLine.wantsRow b)⟩) ∧
      List.Forall₂ (fun line row ↦ row.isSome = line.wantsRow b) lines opRows ∧
      opRows.reduceOption = (rows.drop i).take (lines.countP (CoreLine.wantsRow b)) := by
  induction lines generalizing i with
  | nil => exact ⟨[], rfl, .nil, by rw [List.countP_nil, List.take_zero]; rfl⟩
  | cons line lines ih =>
    cases hwants : line.wantsRow b with
    | false =>
      rw [List.countP_cons_of_neg (by simp [hwants])] at hle ⊢
      obtain ⟨opRows, hrows, hlines, honce⟩ := ih hle
      refine ⟨none :: opRows, ?_, .cons hwants.symm hlines, ?_⟩
      · have htake : (if b = true then BlobRows.take ⟨rows, i⟩ line.text.isNone
            else .ok (none, ⟨rows, i⟩)) = .ok (none, ⟨rows, i⟩) := by
          cases b with
          | false => rfl
          | true =>
            rw [CoreLine.wantsRow, Bool.true_and] at hwants
            rw [if_pos rfl, hwants]
            rfl
        rw [takeOpRows, htake]
        dsimp only
        rw [hrows]
      · rw [List.reduceOption_cons_of_none, honce]
    | true =>
      rw [List.countP_cons_of_pos (by simp [hwants])] at hle ⊢
      have hlt : i < rows.length := by omega
      obtain ⟨opRows, hrows, hlines, honce⟩ := ih (i := i + 1) (by omega)
      refine ⟨some rows[i] :: opRows, ?_, .cons hwants.symm hlines, ?_⟩
      · rw [CoreLine.wantsRow, Bool.and_eq_true] at hwants
        rw [takeOpRows, if_pos hwants.1, hwants.2, take_true hlt]
        dsimp only
        rw [hrows, Nat.add_right_comm, Nat.add_assoc]
      · rw [List.reduceOption_cons_of_some, honce, List.drop_eq_getElem_cons hlt,
          List.take_succ_cons]

theorem handOut_spec (rows : List (List UInt8)) (ops : List CoreUpdateOp)
    (hle : i + wanted ops ≤ rows.length) :
    Handed ops (handOut ⟨rows, i⟩ ops) ((rows.drop i).take (wanted ops)) := by
  induction ops generalizing i with
  | nil => exact ⟨.nil, by rw [wanted, List.map_nil, List.sum_nil, List.take_zero]; rfl⟩
  | cons op ops ih =>
    rw [wanted_cons] at hle ⊢
    obtain ⟨opRows, hrows, hlines, honce⟩ :=
      takeOpRows_spec (i := i) rows op.blob op.lines (by omega)
    have hrest := ih (i := i + op.lines.countP (CoreLine.wantsRow op.blob)) (by omega)
    rw [handOut, hrows]
    refine ⟨.cons hlines hrest.lines, ?_⟩
    rw [List.flatten_cons, List.reduceOption_append, honce, hrest.once, List.take_add,
      List.drop_drop]

theorem wanted_of_undeclared (hdeclares : declaresBlob ops = false) : wanted ops = 0 := by
  induction ops with
  | nil => rfl
  | cons op ops ih =>
    rw [declaresBlob, List.any_cons, Bool.or_eq_false_iff] at hdeclares
    have hnone : op.lines.countP (CoreLine.wantsRow false) = 0 :=
      List.countP_eq_zero.mpr fun line _ ↦ by simp [CoreLine.wantsRow]
    rw [wanted_cons, ih hdeclares.2, hdeclares.1, hnone]

/-- Of a frame that fits, each row is handed out once. -/
theorem BlobFits.handed (h : BlobFits ops blob) :
    Handed ops (handOut ⟨frameRows ops blob, 0⟩ ops) (frameRows ops blob) := by
  have hcount : wanted ops = (frameRows ops blob).length := by
    cases hdeclares : declaresBlob ops with
    | false =>
      rw [wanted_of_undeclared hdeclares, frameRows_of_undeclared hdeclares, List.length_nil]
    | true =>
      obtain ⟨frame, rows, rfl, hdecode, hcount, -⟩ := h hdeclares
      rw [frameRows_some hdeclares hdecode, hcount]
  have hhanded := handOut_spec (i := 0) (frameRows ops blob) ops (by omega)
  rwa [List.drop_zero, hcount, List.take_length] at hhanded

theorem BlobFits.utf8 (h : BlobFits ops blob) {row : List UInt8} (hrow : row ∈ frameRows ops blob) :
    isUtf8 row = true := by
  cases hdeclares : declaresBlob ops with
  | false =>
    rw [frameRows_of_undeclared hdeclares] at hrow
    cases hrow
  | true =>
    obtain ⟨frame, rows, rfl, hdecode, -, hutf8⟩ := h hdeclares
    rw [frameRows_some hdeclares hdecode] at hrow
    exact hutf8 row hrow

end EeEditor.Frontend
