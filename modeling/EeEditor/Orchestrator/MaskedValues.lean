import EeEditor.Orchestrator.Redaction

/-!
# What a redaction tells of a value

Two texts that differ in the value of a sensitive assignment are redacted alike when the sign is
masked or within a value that is masked, and the values are not quoted: a quote ends a value, so
that what is quoted is left in the text.
-/

namespace EeEditor.Orchestrator

variable {text rest before name value segment out s : List Char} {c e : Char}
  {parts : List (List Char)}

/-! ## Assignments -/

inductive Quoting where
  | plain
  | double
  | single
deriving DecidableEq

def Quoting.mark : Quoting → List Char
  | plain => []
  | double => ['"']
  | single => ['\'']

def Quoting.quote (self : Quoting) (run : List Char) : List Char := self.mark ++ run ++ self.mark

/-- Without whitespace, commas and quotes. -/
def IsRun (run : List Char) : Prop :=
  run ≠ [] ∧ ∀ c ∈ run, isWhitespace c = false ∧ c ≠ ',' ∧ c ≠ '"' ∧ c ≠ '\''

/-- What follows the value. -/
def EndsAssignment (s : List Char) : Prop := ∀ c ∈ s.head?, isAsciiWhitespace c = true ∨ c = ','

/-- `p + k + '=' + v + s`. -/
def assignment (p k v s : List Char) : List Char := p ++ k ++ ['='] ++ (v ++ s)

/-- The redacted text does not depend on what the runs of the two values are. -/
def HidesValue (p k s : List Char) (quoting quoting' : Quoting) : Prop :=
  ∀ v w, IsRun v → IsRun w →
    redact (String.ofList (assignment p k (quoting.quote v) s)) =
      redact (String.ofList (assignment p k (quoting'.quote w) s))

/-- A text that ends where the scan is within a value that is masked: no part follows the value. -/
def EndsInValue (text : List Char) : Prop := ∃ parts, Unmasked text (parts ++ [[]])

/-! ## The scan behind a prefix -/

theorem Unmasked.eq_of_nil (h : Unmasked [] parts) : parts = [[]] := by
  generalize hnil : [] = text at h
  induction h with
  | plain text _ => rw [← hnil]
  | assignment name value rest parts _ _ _ _ _ _ =>
    exact absurd hnil.symm (by simp)

/-- What the scan has written of a prefix does not depend on what follows, and it goes on with the
last part or within a value. -/
theorem Unmasked.scan (h : Unmasked text parts) : ∃ out init last, parts = init ++ [last] ∧
    last <:+ text ∧
    (last ≠ [] → ∀ rest,
      redactAssignments (text ++ rest) = out ++ redactAssignmentsFrom false last rest) ∧
    (last = [] → text ≠ [] → ∀ rest,
      redactAssignments (text ++ rest) = out ++ redactAssignmentsFrom true [] rest) := by
  induction h with
  | plain text hplain =>
    exact ⟨[], [], text, rfl, List.suffix_rfl,
      fun _ rest ↦ redactAssignmentsFrom_append [] text rest hplain, fun h hne ↦ absurd h hne⟩
  | assignment name value rest parts hname hsensitive hvalue hend hrest ih =>
    by_cases hnil : rest = []
    · subst hnil
      rw [hrest.eq_of_nil]
      refine ⟨name ++ '=' :: redacted, [name], [], rfl, List.nil_suffix, fun h ↦ absurd rfl h,
        fun _ _ after ↦ ?_⟩
      have hscan := redactAssignmentsFrom_append [] name ('=' :: (value ++ after)) hname
      rw [List.append_nil, List.append_assoc, List.cons_append, redactAssignments, hscan,
        List.nil_append, redactAssignmentsFrom_sensitive hsensitive,
        redactAssignmentsFrom_skip hvalue, List.append_assoc, List.cons_append]
    · obtain ⟨out, init, last, rfl, hsuffix, hlast, hvalue'⟩ := ih
      have hscan : ∀ after, redactAssignments (name ++ '=' :: (value ++ rest) ++ after) =
          name ++ '=' :: redacted ++ redactAssignments (rest ++ after) := by
        intro after
        have hend' : Ends (!endsValue ·) (rest ++ after) := by
          obtain ⟨c, rest, rfl⟩ := List.exists_cons_of_ne_nil hnil
          exact ends_cons.mpr (ends_cons.mp hend)
        rw [List.append_assoc, List.cons_append, List.append_assoc value,
          redactAssignments_assignment hname hsensitive hvalue hend', List.append_assoc,
          List.cons_append]
      refine ⟨name ++ '=' :: redacted ++ out, name :: init, last, rfl, ?_, fun hne after ↦ ?_,
        fun heq hne after ↦ ?_⟩
      · refine hsuffix.trans ((List.suffix_append value rest).trans ?_)
        exact (List.suffix_cons '=' _).trans (List.suffix_append name _)
      · rw [hscan, hlast hne]
        simp only [List.append_assoc]
      · rw [hscan, hvalue' heq hnil]
        simp only [List.append_assoc]

/-- Two segments that make the same names sensitive are gone on with alike. -/
theorem redactAssignmentsFrom_twin (text : List Char) {segment segment' : List Char}
    (h : ∀ name rest, text = name ++ rest →
      isSensitiveKey (segment ++ name) = isSensitiveKey (segment' ++ name)) :
    ∃ out, redactAssignmentsFrom false segment text = segment ++ out ∧
      redactAssignmentsFrom false segment' text = segment' ++ out ∧
      (Ends (!endsValue ·) text → Ends (!endsValue ·) out) := by
  induction text generalizing segment segment' with
  | nil => exact ⟨[], (List.append_nil _).symm, (List.append_nil _).symm, id⟩
  | cons c text ih =>
    have hhere := h [] (c :: text) rfl
    rw [List.append_nil, List.append_nil] at hhere
    by_cases hsign : (decide (c = '=') && isSensitiveKey (trim segment)) = true
    · obtain ⟨rfl, hsensitive⟩ : c = '=' ∧ isSensitiveKey segment = true := by
        rwa [isSensitiveKey_trim, Bool.and_eq_true, decide_eq_true_eq] at hsign
      refine ⟨'=' :: (redacted ++ redactAssignmentsFrom true [] text),
        redactAssignmentsFrom_sensitive hsensitive text,
        redactAssignmentsFrom_sensitive (hhere ▸ hsensitive) text, fun hend ↦ ?_⟩
      exact absurd (ends_cons.mp hend) (by decide)
    · have hsign' : ¬ (decide (c = '=') && isSensitiveKey (trim segment')) = true := by
        rwa [isSensitiveKey_trim, ← hhere, ← isSensitiveKey_trim]
      have hnext : ∀ name rest, text = name ++ rest →
          isSensitiveKey (segment ++ [c] ++ name) = isSensitiveKey (segment' ++ [c] ++ name) := by
        intro name rest hsplit
        rw [List.append_assoc, List.append_assoc, List.singleton_append]
        exact h (c :: name) rest (by rw [hsplit, List.cons_append])
      obtain ⟨out, hout, hout', -⟩ := ih hnext
      refine ⟨c :: out, ?_, ?_, fun hend ↦ ends_cons.mpr (ends_cons.mp hend)⟩
      · rw [redactAssignmentsFrom, Bool.false_and, if_neg Bool.false_ne_true, if_neg hsign, hout,
          List.append_assoc, List.singleton_append]
      · rw [redactAssignmentsFrom, Bool.false_and, if_neg Bool.false_ne_true, if_neg hsign', hout',
          List.append_assoc, List.singleton_append]

/-! ## What leaks -/

theorem endsValue_of_isRun {run : List Char} (h : IsRun run) : ∀ c ∈ run, endsValue c = false := by
  intro c hc
  obtain ⟨hblank, hcomma, hdouble, hsingle⟩ := h.2 c hc
  have hascii : isAsciiWhitespace c = false := by
    rw [Bool.eq_false_iff] at hblank ⊢
    refine fun hc ↦ hblank ?_
    simp [isAsciiWhitespace, isWhitespace, eq_iff_toNat c] at hc ⊢
    omega
  rw [endsValue, hascii, decide_eq_false hcomma, decide_eq_false hdouble, decide_eq_false hsingle]
  rfl

theorem EndsAssignment.endsValue (h : EndsAssignment s) : Ends (!endsValue ·) s := by
  intro c hc
  rcases h c hc with hc | rfl
  · simp [Orchestrator.endsValue, hc]
  · decide

/-- A letter between characters that end a token stays, and what follows is the same for both. -/
theorem redact_letter (he : isJwtChar e = false) (hs : Ends (!endsValue ·) s)
    (out segment : List Char)
    {mark : List Char} (hmark : mark = [] ∨ ∃ m, mark = [m] ∧ endsValue m = true) :
    redactValues (out ++ redactAssignmentsFrom false (segment ++ e :: 'a' :: mark) s) ≠
      redactValues (out ++ redactAssignmentsFrom false (segment ++ e :: 'b' :: mark) s) := by
  have hends : ∀ {text : List Char}, Ends (!endsValue ·) text →
    Ends isTokenChar (mark ++ text) := by
    intro text htext
    have hchars : Ends isTokenChar text := fun c hc ↦
      isTokenChar_of_isJwtChar (isJwtChar_of_endsValue (by simpa using htext c hc))
    rcases hmark with rfl | ⟨m, rfl, hm⟩
    · exact hchars
    · exact ends_cons.mpr (isTokenChar_of_isJwtChar (isJwtChar_of_endsValue hm))
  have hname : ∀ d : Char, isSensitiveKey [d] = false → ∀ name rest, s = name ++ rest →
      isSensitiveKey (segment ++ e :: d :: mark ++ name) =
        (isSensitiveKey segment || isSensitiveKey (mark ++ name)) := by
    rintro d hd name rest rfl
    have hpref : Ends (!endsValue ·) name := by
      cases name with
      | nil => exact ends_nil
      | cons c name => exact ends_cons.mpr (ends_cons.mp hs)
    have hletter := isSensitiveKey_append_of_ends (hends hpref) [d]
    rw [hd, Bool.false_or, List.singleton_append] at hletter
    rw [List.append_assoc, List.cons_append, List.cons_append,
      isSensitiveKey_append_cons (isTokenChar_of_isJwtChar he), hletter]
  obtain ⟨rest, ha, hb, hrest⟩ := redactAssignmentsFrom_twin s fun name rest hsplit ↦
    (hname 'a' (by decide) name rest hsplit).trans (hname 'b' (by decide) name rest hsplit).symm
  have hvalues : ∀ d : Char, isTokenChar d = true → startsJwt [d] = false →
    isSecretLike [d] = false →
      redactValues (out ++ (segment ++ e :: d :: mark ++ rest)) =
        redactValues (out ++ segment) ++ e :: d :: redactValues (mark ++ rest) := by
    intro d hd hjwt hsecret
    have htoken := redactValues_token (List.cons_ne_nil d []) (by simpa using hd) hjwt
      (hends (hrest hs))
    rw [maskToken, hsecret, if_neg Bool.false_ne_true, List.singleton_append,
      List.singleton_append] at htoken
    rw [List.append_assoc segment, ← List.append_assoc out, List.cons_append, List.cons_append,
      redactValues_append_cons he, htoken]
  rw [ha, hb, hvalues 'a' (by decide) (by decide) (by decide),
    hvalues 'b' (by decide) (by decide) (by decide)]
  intro heq
  have htail := List.append_cancel_left heq
  obtain ⟨-, hletter⟩ := List.cons_eq_cons.mp htail
  exact absurd (List.cons_eq_cons.mp hletter).1 (by decide)

theorem Quoting.mark_eq (quoting : Quoting) :
    quoting.mark = [] ∨ ∃ m, quoting.mark = [m] ∧ endsValue m = true := by
  cases quoting with
  | plain => exact .inl rfl
  | double => exact .inr ⟨'"', rfl, by decide⟩
  | single => exact .inr ⟨'\'', rfl, by decide⟩

theorem Quoting.mark_ne_nil {quoting : Quoting} (h : quoting ≠ .plain) : quoting.mark ≠ [] := by
  cases quoting with
  | plain => exact absurd rfl h
  | double | single => exact List.cons_ne_nil _ _

theorem isRun_a : IsRun ['a'] := ⟨List.cons_ne_nil _ _, by simp [isWhitespace]⟩

theorem isRun_b : IsRun ['b'] := ⟨List.cons_ne_nil _ _, by simp [isWhitespace]⟩

theorem redactAssignmentsFrom_word (hword : '=' ∉ name) (segment rest : List Char) :
    redactAssignmentsFrom false segment (name ++ rest) =
      redactAssignmentsFrom false (segment ++ name) rest := by
  refine redactAssignmentsFrom_append segment name rest ?_
  rintro before after rfl
  exact absurd (List.mem_append_right _ List.mem_cons_self) hword

/-- A letter is left behind a character that ends tokens, the sign or the opening quote. -/
theorem exists_leak (p k s : List Char) (quoting : Quoting)
    (h : ¬ (quoting = .plain ∧ EndsInValue (p ++ k ++ ['=']))) :
    ∃ out segment e, isJwtChar e = false ∧ ∀ d : Char, d ≠ '=' →
      redactAssignments (assignment p k (quoting.quote [d]) s) =
        out ++ redactAssignmentsFrom false (segment ++ e :: d :: quoting.mark) s := by
  obtain ⟨parts, hparts⟩ := exists_unmasked (p ++ k ++ ['='])
  obtain ⟨out, init, last, rfl, hsuffix, hlast, hvalue⟩ := hparts.scan
  by_cases hnil : last = []
  · subst hnil
    -- the sign is masked, so that the value is quoted and its first quote ends what is masked
    have hquoted : quoting ≠ .plain := fun hplain ↦ h ⟨hplain, init, hparts⟩
    obtain ⟨m, hm, hend⟩ := quoting.mark_eq.resolve_left (Quoting.mark_ne_nil hquoted)
    refine ⟨out, [], m, isJwtChar_of_endsValue hend, fun d hd ↦ ?_⟩
    have hm' : m ≠ '=' := by
      rintro rfl
      exact absurd hend (by decide)
    have hskip := redactAssignmentsFrom_value (List.forall_mem_nil _)
      (show Ends (!endsValue ·) (m :: d :: m :: s) from ends_cons.mpr (by simp [hend]))
    have hword := redactAssignmentsFrom_word
      (show '=' ∉ [m, d, m] by simp [hm'.symm, hd.symm]) [] s
    rw [assignment, hvalue rfl (by simp), Quoting.quote, hm]
    exact congrArg (out ++ ·) (hskip.trans hword)
  · obtain ⟨segment, rfl⟩ : ∃ segment, last = segment ++ ['='] := by
      rcases List.suffix_concat_iff.mp hsuffix with heq | ⟨segment, heq, -⟩
      · exact absurd heq hnil
      · exact ⟨segment, heq⟩
    rcases quoting.mark_eq with hm | ⟨m, hm, hend⟩
    · refine ⟨out, segment, '=', by decide, fun d hd ↦ ?_⟩
      rw [assignment, hlast hnil, Quoting.quote, hm,
        redactAssignmentsFrom_word (by simpa using hd.symm)]
      simp
    · refine ⟨out, segment ++ ['='], m, isJwtChar_of_endsValue hend, fun d hd ↦ ?_⟩
      have hm' : m ≠ '=' := by
        rintro rfl
        exact absurd hend (by decide)
      rw [assignment, hlast hnil, Quoting.quote, hm,
        redactAssignmentsFrom_word (by simp [hm'.symm, hd.symm])]
      simp

theorem eq_of_redact_eq {text text' : List Char}
    (h : redact (String.ofList text) = redact (String.ofList text')) :
    redactChars text = redactChars text' := by
  have hlist := congrArg String.toList h
  rwa [toList_redact, toList_redact, String.toList_ofList, String.toList_ofList] at hlist

theorem not_leaks {p k : List Char} (hs : EndsAssignment s) (quoting : Quoting)
    (h : redactChars (assignment p k (quoting.quote ['a']) s) =
      redactChars (assignment p k (quoting.quote ['b']) s)) :
    quoting = .plain ∧ EndsInValue (p ++ k ++ ['=']) := by
  by_contra hleak
  obtain ⟨out, segment, e, he, hout⟩ := exists_leak p k s quoting hleak
  rw [redactChars, redactChars, hout 'a' (by decide), hout 'b' (by decide)] at h
  exact redact_letter he hs.endsValue out segment quoting.mark_eq h

/-- The value is hidden exactly when both values are plain and the sign is masked or within a value
that is masked. -/
theorem hidesValue_iff (p k : List Char) (hs : EndsAssignment s) (quoting quoting' : Quoting) :
    HidesValue p k s quoting quoting' ↔
      quoting = .plain ∧ quoting' = .plain ∧ EndsInValue (p ++ k ++ ['=']) := by
  constructor
  · intro h
    obtain ⟨hplain, hmasked⟩ := not_leaks hs quoting
      (eq_of_redact_eq ((h _ _ isRun_a isRun_a).trans (h _ _ isRun_b isRun_a).symm))
    obtain ⟨hplain', -⟩ := not_leaks hs quoting'
      (eq_of_redact_eq ((h _ _ isRun_a isRun_a).symm.trans (h _ _ isRun_a isRun_b)))
    exact ⟨hplain, hplain', hmasked⟩
  · rintro ⟨rfl, rfl, parts, hparts⟩ v w hv hw
    obtain ⟨out, init, last, heq, -, -, hvalue⟩ := hparts.scan
    obtain rfl : last = [] := by
      have hlast := congrArg List.getLast? heq
      simpa using hlast.symm
    have hscan : ∀ run, IsRun run → redactAssignments (assignment p k (Quoting.plain.quote run) s) =
        out ++ redactAssignments s := by
      intro run hrun
      rw [assignment, hvalue rfl (by simp), Quoting.quote, Quoting.mark, List.nil_append,
        List.append_nil, redactAssignmentsFrom_value (endsValue_of_isRun hrun) hs.endsValue]
    rw [← String.toList_inj, toList_redact, toList_redact, String.toList_ofList,
      String.toList_ofList, redactChars, redactChars, hscan v hv, hscan w hw]

/-- A value without quotes behind a name at the beginning of the text. -/
theorem hidesValue_token : EndsAssignment " rest".toList ∧
    (HidesValue [] "token".toList " rest".toList .plain .plain ↔
      Quoting.plain = .plain ∧ Quoting.plain = .plain ∧
        EndsInValue ([] ++ "token".toList ++ ['='])) :=
  have hs : EndsAssignment " rest".toList := by
    intro c hc
    obtain rfl : ' ' = c := Option.some.inj hc
    exact .inl rfl
  ⟨hs, hidesValue_iff [] "token".toList hs .plain .plain⟩

/-- The first quote ends the value that is masked, and what is quoted stays. -/
theorem quoted_token_leaks : ¬ ∀ (p k s : List Char) (quoting quoting' : Quoting),
    isSensitiveKey k = true → EndsAssignment s → HidesValue p k s quoting quoting' := by
  intro h
  have hsame := h [] "token".toList [] .double .double (by decide) nofun ['a'] ['b']
    isRun_a isRun_b
  revert hsame
  decide +kernel

end EeEditor.Orchestrator
