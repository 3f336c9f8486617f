import EeEditor.Orchestrator.Redaction

/-!
# What a redaction leaves

Redacting twice is redacting once, and what is replaced are tokens that look like secrets, spans
that look like a JWT and values of sensitive assignments. A token that looks like a secret is left
where it stands in a span that begins like a JWT and is too short or has no dot: the scan takes the
whole span and none of its tokens.
-/

namespace EeEditor.Orchestrator

variable {text rest word token span before out name : List Char} {c : Char}
  {parts : List (List Char)}

/-! ## Secrets -/

/-- No longest run of token characters looks like a secret. -/
def NoSecret (text : List Char) : Prop :=
  ∀ token ∈ text.splitOnP (!isTokenChar ·), isSecretLike token = false

theorem noSecret_append_cons (hc : isTokenChar c = false) (text rest : List Char) :
    NoSecret (text ++ c :: rest) ↔ NoSecret text ∧ NoSecret rest := by
  rw [NoSecret, List.splitOnP_append_cons _ _ (by simp [hc]), NoSecret, NoSecret]
  exact List.forall_mem_append

theorem noSecret_token (h : ∀ c ∈ token, isTokenChar c = true) :
    NoSecret token ↔ isSecretLike token = false := by
  rw [NoSecret, List.splitOnP_eq_singleton fun c hc ↦ by simp [h c hc]]
  exact List.forall_mem_singleton

theorem noSecret_nil : NoSecret [] := (noSecret_token (by simp)).mpr (by decide)

theorem noSecret_cons (hc : isTokenChar c = false) (rest : List Char) :
    NoSecret (c :: rest) ↔ NoSecret rest := by
  rw [← List.nil_append (c :: rest), noSecret_append_cons hc]
  exact and_iff_right noSecret_nil

theorem noSecret_append (hrest : Ends isTokenChar rest) (text : List Char) :
    NoSecret (text ++ rest) ↔ NoSecret text ∧ NoSecret rest := by
  cases rest with
  | nil => rw [List.append_nil, and_iff_left noSecret_nil]
  | cons c rest =>
    have hc := ends_cons.mp hrest
    rw [noSecret_append_cons hc, noSecret_cons hc]

theorem noSecret_redacted : NoSecret redacted := by
  rw [NoSecret]
  decide

theorem noSecret_maskToken (h : ∀ c ∈ token, isTokenChar c = true) :
    NoSecret (maskToken token) := by
  rw [maskToken]
  split
  · exact noSecret_redacted
  · rename_i hsecret
    exact (noSecret_token h).mpr (Bool.eq_false_iff.mpr hsecret)

/-! ## Spans -/

/-- From its first token that begins like a JWT on the run is replaced, or no token there looks like
a secret. -/
def CleanRun (run : List Char) : Prop :=
  let span := (run.splitOn '.').dropWhile (!startsJwt ·)
  isJwt (['.'].intercalate span) = true ∨ ∀ token ∈ span, isSecretLike token = false

/-- The longest runs of token characters and dots are clean. -/
def CleanRuns (text : List Char) : Prop := ∀ run ∈ text.splitOnP (!isJwtChar ·), CleanRun run

theorem not_mem_dot (h : ∀ c ∈ token, isTokenChar c = true) : '.' ∉ token := by
  intro hdot
  have hchar := h '.' hdot
  revert hchar
  decide

/-- The scan goes on behind a token that does not begin like a JWT. -/
theorem cleanRun_token (h : ∀ c ∈ token, isTokenChar c = true) (hjwt : startsJwt token = false)
    (run : List Char) : CleanRun (token ++ '.' :: run) ↔ CleanRun run := by
  rw [CleanRun, List.splitOn_append_cons_self_of_not_mem (not_mem_dot h),
    List.dropWhile_cons_of_pos (by simp [hjwt]), CleanRun]

theorem cleanRun_of_token (h : ∀ c ∈ token, isTokenChar c = true) (hjwt : startsJwt token = false) :
    CleanRun token := by
  rw [CleanRun, List.splitOn_eq_singleton (not_mem_dot h),
    List.dropWhile_cons_of_pos (by simp [hjwt])]
  exact .inr nofun

theorem splitOnP_congr {p q : Char → Bool} (h : ∀ c ∈ text, p c = q c) :
    text.splitOnP p = text.splitOnP q := by
  induction text with
  | nil => rw [List.splitOnP_nil, List.splitOnP_nil]
  | cons c text ih =>
    rw [List.splitOnP_cons_eq_if_modifyHead, List.splitOnP_cons_eq_if_modifyHead,
      h c List.mem_cons_self, ih fun c hc ↦ h c (List.mem_cons_of_mem _ hc)]

theorem splitOnP_append {p : Char → Bool} (h : ∀ c ∈ word, p c = false) (rest : List Char) :
    (word ++ rest).splitOnP p = (rest.splitOnP p).modifyHead (word ++ ·) := by
  induction word with
  | nil =>
    obtain ⟨first, others, heq⟩ := List.exists_cons_of_ne_nil (List.splitOnP_ne_nil p rest)
    rw [List.nil_append, heq]
    rfl
  | cons c word ih =>
    obtain ⟨first, others, heq⟩ := List.exists_cons_of_ne_nil (List.splitOnP_ne_nil p rest)
    rw [List.cons_append, List.splitOnP_cons_eq_if_modifyHead, h c List.mem_cons_self,
      if_neg Bool.false_ne_true, ih fun c hc ↦ h c (List.mem_cons_of_mem _ hc), heq]
    rfl

/-- The first token of a span begins like the span. -/
theorem dropWhile_splitOn (h : startsJwt span = true) :
    (span.splitOn '.').dropWhile (!startsJwt ·) = span.splitOn '.' := by
  obtain ⟨rest, rfl⟩ := List.isPrefixOf_iff_prefix.mp h
  obtain ⟨first, others, heq⟩ := List.exists_cons_of_ne_nil (List.splitOn_ne_nil '.' rest)
  have hsplit : ("eyJ".toList ++ rest).splitOn '.' = ("eyJ".toList ++ first) :: others := by
    rw [List.splitOn_eq_splitOnP, splitOnP_append (by simp), ← List.splitOn_eq_splitOnP, heq]
    rfl
  have hfirst : startsJwt ("eyJ".toList ++ first) = true :=
    List.isPrefixOf_iff_prefix.mpr (List.prefix_append _ _)
  rw [hsplit, List.dropWhile_cons_of_neg (by rw [hfirst]; exact Bool.false_ne_true)]

theorem cleanRun_span (h : startsJwt span = true) (hspan : ∀ c ∈ span, isJwtChar c = true) :
    CleanRun span ↔ NoSecret (maskJwt span) := by
  rw [CleanRun, dropWhile_splitOn h, List.intercalate_splitOn, maskJwt]
  cases isJwt span with
  | true => exact iff_of_true (.inl rfl) noSecret_redacted
  | false =>
    have hsplit : span.splitOnP (!isTokenChar ·) = span.splitOn '.' := by
      rw [List.splitOn_eq_splitOnP]
      refine splitOnP_congr fun c hc ↦ ?_
      have hchar := hspan c hc
      rw [isJwtChar, Bool.or_eq_true, decide_eq_true_eq] at hchar
      rcases hchar with hchar | rfl
      · rw [hchar]
        symm
        rw [Bool.not_true, beq_eq_false_iff_ne]
        rintro rfl
        revert hchar
        decide
      · decide
    rw [if_neg Bool.false_ne_true, NoSecret, hsplit]
    exact or_iff_right Bool.false_ne_true

theorem cleanRuns_append_cons (hc : isJwtChar c = false) (text rest : List Char) :
    CleanRuns (text ++ c :: rest) ↔ CleanRuns text ∧ CleanRuns rest := by
  rw [CleanRuns, List.splitOnP_append_cons _ _ (by simp [hc]), CleanRuns, CleanRuns]
  exact List.forall_mem_append

theorem cleanRuns_run (h : ∀ c ∈ word, isJwtChar c = true) : CleanRuns word ↔ CleanRun word := by
  rw [CleanRuns, List.splitOnP_eq_singleton fun c hc ↦ by simp [h c hc]]
  exact List.forall_mem_singleton

theorem cleanRuns_nil : CleanRuns [] :=
  (cleanRuns_run (by simp)).mpr (cleanRun_of_token (by simp) (by decide))

theorem cleanRuns_token_cons (h : ∀ c ∈ token, isTokenChar c = true)
    (hjwt : startsJwt token = false) (hc : isTokenChar c = false) (rest : List Char) :
    CleanRuns (token ++ c :: rest) ↔ CleanRuns rest := by
  have hchars : ∀ c ∈ token, isJwtChar c = true := fun c hc ↦ isJwtChar_of_isTokenChar (h c hc)
  cases hdot : isJwtChar c with
  | false =>
    rw [cleanRuns_append_cons hdot]
    exact and_iff_right ((cleanRuns_run hchars).mpr (cleanRun_of_token h hjwt))
  | true =>
    obtain rfl : c = '.' := by
      rw [isJwtChar, hc, Bool.false_or, decide_eq_true_eq] at hdot
      exact hdot
    obtain ⟨run, runs, heq⟩ := List.exists_cons_of_ne_nil
      (List.splitOnP_ne_nil (!isJwtChar ·) rest)
    have hlong : (token ++ '.' :: rest).splitOnP (!isJwtChar ·)
      = (token ++ '.' :: run) :: runs := by
      rw [splitOnP_append (fun c hc ↦ by simp [hchars c hc]),
        List.splitOnP_cons_eq_if_modifyHead, if_neg (by decide), heq]
      rfl
    rw [CleanRuns, CleanRuns, heq, hlong, List.forall_mem_cons, List.forall_mem_cons,
      cleanRun_token h hjwt]

theorem cleanRuns_other (hc : isTokenChar c = false) (rest : List Char) :
    CleanRuns (c :: rest) ↔ CleanRuns rest :=
  cleanRuns_token_cons (List.forall_mem_nil _) (by decide) hc rest

theorem cleanRuns_token (h : ∀ c ∈ token, isTokenChar c = true) (hjwt : startsJwt token = false)
    (hrest : Ends isTokenChar rest) : CleanRuns (token ++ rest) ↔ CleanRuns rest := by
  cases rest with
  | nil =>
    have hchars : ∀ c ∈ token, isJwtChar c = true := fun c hc ↦ isJwtChar_of_isTokenChar (h c hc)
    rw [List.append_nil, cleanRuns_run hchars]
    exact iff_of_true (cleanRun_of_token h hjwt) cleanRuns_nil
  | cons c rest =>
    have hc := ends_cons.mp hrest
    rw [cleanRuns_token_cons h hjwt hc, cleanRuns_other hc]

theorem cleanRuns_span (h : startsJwt span = true) (hspan : ∀ c ∈ span, isJwtChar c = true)
    (hrest : Ends isJwtChar rest) :
    CleanRuns (span ++ rest) ↔ NoSecret (maskJwt span) ∧ CleanRuns rest := by
  rw [← cleanRun_span h hspan, ← cleanRuns_run hspan]
  cases rest with
  | nil => rw [List.append_nil, and_iff_left cleanRuns_nil]
  | cons c rest =>
    have hc := ends_cons.mp hrest
    rw [cleanRuns_append_cons hc, cleanRuns_other (isTokenChar_of_isJwtChar hc)]

/-- By induction on the pieces of the scan. -/
theorem noSecret_redactValues (text : List Char) :
    NoSecret (redactValues text) ↔ CleanRuns text := by
  induction text using values_induction with
  | nil =>
    exact iff_of_true noSecret_nil cleanRuns_nil
  | other c rest hc ih => rw [redactValues_other hc, noSecret_cons hc, ih, cleanRuns_other hc]
  | token token rest hne htoken hjwt hend ih =>
    rw [redactValues_token hne htoken hjwt hend, noSecret_append hend.redactValues, ih,
      cleanRuns_token htoken hjwt hend]
    exact and_iff_right (noSecret_maskToken htoken)
  | jwt span rest hjwt hspan hend ih =>
    rw [redactValues_jwt hjwt hspan hend, noSecret_append hend.of_isJwtChar.redactValues, ih,
      cleanRuns_span hjwt hspan hend]

theorem noSecret_redactChars (h : Unmasked text parts) :
    NoSecret (redactChars text) ↔ ∀ part ∈ parts, CleanRuns part := by
  induction h with
  | plain text hplain =>
    rw [redactChars_plain hplain, noSecret_redactValues]
    exact List.forall_mem_singleton.symm
  | assignment name value rest parts hname hsensitive hvalue hend hrest ih =>
    have hclose : NoSecret (redacted ++ redactChars rest) ↔ NoSecret (redactChars rest) := by
      change NoSecret ([] ++ '[' :: ("redacted".toList ++ ']' :: redactChars rest)) ↔ _
      rw [List.nil_append, noSecret_cons (by decide), noSecret_append_cons (by decide)]
      exact and_iff_right ((noSecret_token (List.all_eq_true.mp (by decide))).mpr (by decide))
    rw [redactChars_assignment hname hsensitive hvalue hend, noSecret_append_cons (by decide),
      hclose, noSecret_redactValues, ih, List.forall_mem_cons]

/-! ## Redacting twice -/

theorem maskToken_eq (htoken : token ≠ []) (h : ∀ c ∈ token, isTokenChar c = true)
    (hjwt : startsJwt token = false) (hrest : Ends isTokenChar rest) :
    redactValues (maskToken token ++ rest) = maskToken token ++ redactValues rest := by
  cases hsecret : isSecretLike token with
  | true => rw [maskToken, if_pos hsecret, redactValues_redacted]
  | false =>
    have hkeep : maskToken token = token := by rw [maskToken, hsecret]; rfl
    rw [hkeep, redactValues_token htoken h hjwt hrest, hkeep]

theorem maskJwt_eq (hjwt : startsJwt span = true) (h : ∀ c ∈ span, isJwtChar c = true)
    (hrest : Ends isJwtChar rest) :
    redactValues (maskJwt span ++ rest) = maskJwt span ++ redactValues rest := by
  cases hmask : isJwt span with
  | true => rw [maskJwt, if_pos hmask, redactValues_redacted]
  | false =>
    have hkeep : maskJwt span = span := by rw [maskJwt, hmask]; rfl
    rw [hkeep, redactValues_jwt hjwt h hrest, hkeep]

theorem redactValues_idem (text : List Char) :
    redactValues (redactValues text) = redactValues text := by
  induction text using values_induction with
  | nil => rfl
  | other c rest hc ih => rw [redactValues_other hc, redactValues_other hc, ih]
  | token token rest hne htoken hjwt hend ih =>
    rw [redactValues_token hne htoken hjwt hend, maskToken_eq hne htoken hjwt hend.redactValues, ih]
  | jwt span rest hjwt hspan hend ih =>
    have hend' : Ends isJwtChar (redactValues rest) := by
      cases rest with
      | nil => exact ends_nil
      | cons c rest =>
        rw [redactValues_other (isTokenChar_of_isJwtChar (ends_cons.mp hend))]
        exact ends_cons.mpr (ends_cons.mp hend)
    rw [redactValues_jwt hjwt hspan hend, maskJwt_eq hjwt hspan hend', ih]

/-- The scan for values does not make a name sensitive. -/
theorem isSensitiveKey_redactValues (h : isSensitiveKey (redactValues text) = true) :
    isSensitiveKey text = true := by
  induction text using values_induction with
  | nil => exact h
  | other c rest hc ih =>
    rw [redactValues_other hc, ← List.nil_append (c :: _), isSensitiveKey_append_cons hc,
      isSensitiveKey_nil, Bool.false_or] at h
    rw [← List.singleton_append]
    exact isSensitiveKey_append (.inr (ih h))
  | token token rest hne htoken hjwt hend ih =>
    rw [redactValues_token hne htoken hjwt hend, isSensitiveKey_append_of_ends hend.redactValues,
      Bool.or_eq_true] at h
    refine isSensitiveKey_append (h.imp (fun hmask ↦ ?_) ih)
    rw [maskToken] at hmask
    split at hmask
    · rw [isSensitiveKey_redacted] at hmask
      cases hmask
    · exact hmask
  | jwt span rest hjwt hspan hend ih =>
    rw [redactValues_jwt hjwt hspan hend,
      isSensitiveKey_append_of_ends hend.of_isJwtChar.redactValues, Bool.or_eq_true] at h
    refine isSensitiveKey_append (h.imp (fun hmask ↦ ?_) ih)
    rw [maskJwt] at hmask
    split at hmask
    · rw [isSensitiveKey_redacted] at hmask
      cases hmask
    · exact hmask

theorem mem_redactValues (h : c ∈ redactValues text) : c ∈ redacted ∨ c ∈ text := by
  induction text using values_induction with
  | nil => exact .inr h
  | other d rest hd ih =>
    rw [redactValues_other hd] at h
    rcases List.mem_cons.mp h with rfl | h
    · exact .inr List.mem_cons_self
    · exact (ih h).imp_right (List.mem_cons_of_mem d)
  | token token rest hne htoken hjwt hend ih =>
    rw [redactValues_token hne htoken hjwt hend, maskToken] at h
    rcases List.mem_append.mp h with h | h
    · split at h
      · exact .inl h
      · exact .inr (List.mem_append_left _ h)
    · exact (ih h).imp_right (List.mem_append_right _)
  | jwt span rest hjwt hspan hend ih =>
    rw [redactValues_jwt hjwt hspan hend, maskJwt] at h
    rcases List.mem_append.mp h with h | h
    · split at h
      · exact .inl h
      · exact .inr (List.mem_append_left _ h)
    · exact (ih h).imp_right (List.mem_append_right _)

/-- The name before the last sign contains those before the others. -/
theorem noAssignment_append_cons (hname : isSensitiveKey name = false) (hrest : '=' ∉ rest) :
    NoAssignment (name ++ '=' :: rest) := by
  intro name' rest' hsplit
  by_contra hsensitive
  rw [Bool.not_eq_false] at hsensitive
  rcases List.append_eq_append_iff.mp hsplit with ⟨more, rfl, hmore⟩ | ⟨more, rfl, -⟩
  · cases more with
    | nil =>
      rw [List.append_nil, hname] at hsensitive
      cases hsensitive
    | cons d more =>
      obtain ⟨-, rfl⟩ := List.cons_eq_cons.mp hmore
      exact hrest (List.mem_append_right _ List.mem_cons_self)
  · rw [isSensitiveKey_append (.inl hsensitive)] at hname
    cases hname

theorem exists_last_of_mem (h : c ∈ text) :
    ∃ before after, text = before ++ c :: after ∧ c ∉ after := by
  induction text with
  | nil => cases h
  | cons d text ih =>
    by_cases hmem : c ∈ text
    · obtain ⟨before, after, rfl, hafter⟩ := ih hmem
      exact ⟨d :: before, after, rfl, hafter⟩
    · obtain rfl : c = d := (List.mem_cons.mp h).resolve_right hmem
      exact ⟨[], text, rfl, hmem⟩

theorem NoAssignment.redactValues (h : NoAssignment text) :
    NoAssignment (redactValues text) := by
  have hredacted : '=' ∉ redacted := by decide
  by_cases hmem : '=' ∈ text
  · obtain ⟨before, after, rfl, hafter⟩ := exists_last_of_mem hmem
    have hbefore := h before after rfl
    rw [redactValues_append_cons (by decide)]
    refine noAssignment_append_cons ?_ fun hout ↦ (mem_redactValues hout).elim hredacted hafter
    rw [Bool.eq_false_iff] at hbefore ⊢
    exact fun hsensitive ↦ hbefore (isSensitiveKey_redactValues hsensitive)
  · intro name rest hsplit
    have hout : '=' ∈ Orchestrator.redactValues text := by
      rw [hsplit]
      exact List.mem_append_right _ List.mem_cons_self
    exact absurd hout fun hout ↦ (mem_redactValues hout).elim hredacted hmem

/-- A text whose values are all replaced. -/
inductive Marked : List Char → Prop
  | plain (text : List Char) (hplain : NoAssignment text) : Marked text
  | assignment (name rest : List Char) (hname : NoAssignment name)
      (hend : Ends (!endsValue ·) rest) (hrest : Marked rest) :
      Marked (name ++ '=' :: (redacted ++ rest))

theorem marked_redactChars (h : Unmasked text parts) : Marked (redactChars text) := by
  induction h with
  | plain text hplain =>
    rw [redactChars_plain hplain]
    exact .plain _ hplain.redactValues
  | assignment name value rest parts hname hsensitive hvalue hend hrest ih =>
    rw [redactChars_assignment hname hsensitive hvalue hend]
    exact .assignment _ _ hname.redactValues (ends_redactValues hend.redactAssignments) ih

/-- What was read and is kept does not decide whether a later name is sensitive. -/
theorem Marked.redactAssignmentsFrom (h : Marked text) {segment : List Char}
    (hsegment : ∀ name, isSensitiveKey (segment ++ name) = isSensitiveKey name) :
    redactAssignmentsFrom false segment text = segment ++ text := by
  induction h generalizing segment with
  | plain text hplain =>
    have hscan := redactAssignmentsFrom_append segment text [] fun name after hsplit ↦
      (hsegment name).trans (hplain name after hsplit)
    rwa [List.append_nil] at hscan
  | assignment name rest hname hend hrest ih =>
    have hnil : Orchestrator.redactAssignmentsFrom false [] rest = rest := ih fun _ ↦ rfl
    rw [redactAssignmentsFrom_append segment name _ fun name' after hsplit ↦
      (hsegment name').trans (hname name' after hsplit)]
    cases hsensitive : isSensitiveKey (segment ++ name) with
    | true =>
      have hall : redacted.all (!endsValue ·) = true := by decide
      have hvalue : ∀ c ∈ redacted, endsValue c = false := fun c hc ↦
        Bool.not_eq_true' _ ▸ List.all_eq_true.mp hall c hc
      rw [redactAssignmentsFrom_sensitive hsensitive, redactAssignmentsFrom_value hvalue hend,
        redactAssignments, hnil, List.append_assoc]
    | false =>
      have hsign : '=' ∉ redacted := by decide
      have hmarker := redactAssignmentsFrom_append (segment ++ name) ('=' :: redacted) rest
      rw [List.cons_append] at hmarker
      rw [hmarker, ih]
      · simp only [List.append_assoc, List.cons_append]
      · intro name'
        have hclosed : isSensitiveKey (segment ++ name ++ '=' :: "[redacted".toList) = false := by
          rw [isSensitiveKey_append_cons (by decide), hsensitive, Bool.false_or]
          decide
        change isSensitiveKey (segment ++ name ++ ('=' :: ("[redacted".toList ++ [']'])) ++
          name') = _
        rw [← List.cons_append, ← List.append_assoc, List.append_assoc, List.singleton_append,
          isSensitiveKey_append_cons (by decide), hclosed, Bool.false_or]
      · intro name' after hsplit
        cases name' with
        | nil => rwa [List.append_nil]
        | cons d name' =>
          obtain ⟨-, hrest⟩ := List.cons_eq_cons.mp hsplit
          exact absurd (hrest ▸ List.mem_append_right _ List.mem_cons_self) hsign

theorem redactChars_idem (text : List Char) :
    redactChars (redactChars text) = redactChars text := by
  obtain ⟨parts, hparts⟩ := exists_unmasked text
  have hstable : redactAssignments (redactChars text) = redactChars text :=
    (marked_redactChars hparts).redactAssignmentsFrom fun _ ↦ rfl
  calc redactChars (redactChars text)
      = redactValues (redactChars text) := by rw [redactChars, hstable]
    _ = redactChars text := by rw [redactChars, redactValues_idem]

/-! ## What is replaced -/

/-- The output is the text in its order, with nothing replaced but tokens that look like secrets,
spans that look like a JWT and values of sensitive assignments. `before` is the text that was
read. -/
inductive Redacts : (before text out : List Char) → Prop
  | nil (before : List Char) : Redacts before [] []
  | keep (before : List Char) (c : Char) (text out : List Char)
      (h : Redacts (before ++ [c]) text out) : Redacts before (c :: text) (c :: out)
  | token (before token text out : List Char) (hsecret : isSecretLike token = true)
      (htoken : ∀ c ∈ token, isTokenChar c = true) (hend : Ends isTokenChar text)
      (h : Redacts (before ++ token) text out) : Redacts before (token ++ text) (redacted ++ out)
  | jwt (before span text out : List Char) (hstarts : startsJwt span = true)
      (hjwt : isJwt span = true) (hspan : ∀ c ∈ span, isJwtChar c = true)
      (hend : Ends isJwtChar text) (h : Redacts (before ++ span) text out) :
      Redacts before (span ++ text) (redacted ++ out)
  | value (before name value text out : List Char) (hsensitive : isSensitiveKey name = true)
      (hvalue : ∀ c ∈ value, endsValue c = false) (hend : Ends (!endsValue ·) text)
      (h : Redacts (before ++ name ++ '=' :: value) text out) :
      Redacts (before ++ name ++ ['=']) (value ++ text) (redacted ++ out)

theorem Redacts.append_left (word : List Char) (h : Redacts (before ++ word) text out) :
    Redacts before (word ++ text) (word ++ out) := by
  induction word generalizing before with
  | nil => rwa [List.append_nil] at h
  | cons c word ih => exact .keep _ _ _ _ (ih (by rwa [List.append_assoc, List.singleton_append]))

theorem redacts_redactValues (text : List Char) (hend : Ends isJwtChar rest)
    (h : Redacts (before ++ text) rest out) :
    Redacts before (text ++ rest) (redactValues text ++ out) := by
  induction text using values_induction generalizing before with
  | nil => rwa [List.append_nil] at h
  | other c text hc ih =>
    rw [redactValues_other hc]
    exact .keep _ _ _ _ (ih (by rwa [List.append_assoc, List.singleton_append]))
  | token token text hne htoken hjwt hends ih =>
    have hrest : Redacts (before ++ token) (text ++ rest) (redactValues text ++ out) :=
      ih (by rwa [List.append_assoc])
    rw [redactValues_token hne htoken hjwt hends, List.append_assoc, List.append_assoc, maskToken]
    split
    · rename_i hsecret
      exact .token _ _ _ _ hsecret htoken (ends_append hends hend.of_isJwtChar) hrest
    · exact hrest.append_left token
  | jwt span text hjwt hspan hends ih =>
    have hrest : Redacts (before ++ span) (text ++ rest) (redactValues text ++ out) :=
      ih (by rwa [List.append_assoc])
    rw [redactValues_jwt hjwt hspan hends, List.append_assoc, List.append_assoc, maskJwt]
    split
    · rename_i hmask
      exact .jwt _ _ _ _ hjwt hmask hspan (ends_append hends hend) hrest
    · exact hrest.append_left span

theorem redacts_redactChars (h : Unmasked text parts) (before : List Char) :
    Redacts before text (redactChars text) := by
  induction h generalizing before with
  | plain text hplain =>
    have hall := redacts_redactValues text (ends_nil (p := isJwtChar)) (.nil (before ++ text))
    rwa [List.append_nil, List.append_nil, ← redactChars_plain hplain] at hall
  | assignment name value rest parts hname hsensitive hvalue hend hrest ih =>
    rw [redactChars_assignment hname hsensitive hvalue hend]
    exact redacts_redactValues name (ends_cons.mpr (by decide))
      (.keep _ _ _ _ (.value _ _ _ _ _ hsensitive hvalue hend (ih _)))

end EeEditor.Orchestrator
