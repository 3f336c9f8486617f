import Mathlib
import EeEditor.Orchestrator.Text
import EeEditor.Sequence.Utf8

/-!
# How the two scans of a redaction cut a text

The scan for values cuts a text into tokens, spans that begin like a JWT and single characters. The
scan for assignments cuts it into the values of sensitive assignments and the parts between them.
Each scan has one equation for each kind of piece and an induction over the pieces.
-/

namespace EeEditor.Orchestrator

variable {text rest word token span : List Char} {c : Char} {p : Char → Bool}

/-! ## Characters -/

/-- A text that does not go on with such a character. -/
@[grind =] def Ends (p : Char → Bool) (rest : List Char) : Prop := ∀ c ∈ rest.head?, p c = false

theorem ends_nil : Ends p [] := nofun

theorem ends_cons : Ends p (c :: rest) ↔ p c = false := by simp [Ends]

theorem ends_dropWhile (p : Char → Bool) (text : List Char) : Ends p (text.dropWhile p) := by
  intro c hc
  have hhead := List.head?_dropWhile_not p text
  rw [Option.mem_def.mp hc] at hhead
  simpa using hhead

theorem takeWhile_append_of_ends (hword : ∀ c ∈ word, p c = true) (hrest : Ends p rest) :
    (word ++ rest).takeWhile p = word := by
  rw [List.takeWhile_append_of_pos hword]
  cases rest with
  | nil => rw [List.takeWhile_nil, List.append_nil]
  | cons c rest =>
    rw [List.takeWhile_cons_of_neg (by simpa using ends_cons.mp hrest), List.append_nil]

theorem dropWhile_append_of_ends (hword : ∀ c ∈ word, p c = true) (hrest : Ends p rest) :
    (word ++ rest).dropWhile p = rest := by
  rw [List.dropWhile_append_of_pos hword]
  cases rest with
  | nil => rfl
  | cons c rest => rw [List.dropWhile_cons_of_neg (by simpa using ends_cons.mp hrest)]

theorem isJwtChar_of_isTokenChar (h : isTokenChar c = true) : isJwtChar c = true := by
  rw [isJwtChar, h, Bool.true_or]

theorem isTokenChar_of_isJwtChar (h : isJwtChar c = false) : isTokenChar c = false :=
  (Bool.or_eq_false_iff.mp h).1

theorem eq_iff_toNat (c d : Char) : c = d ↔ c.toNat = d.toNat :=
  ⟨congrArg _, fun h ↦ Char.ext (UInt32.toNat_inj.mp h)⟩

theorem isTokenChar_iff : isTokenChar c = true ↔ (48 ≤ c.toNat ∧ c.toNat ≤ 57) ∨
    (65 ≤ c.toNat ∧ c.toNat ≤ 90) ∨ (97 ≤ c.toNat ∧ c.toNat ≤ 122) ∨ c.toNat = 95 ∨
    c.toNat = 45 := by
  simp only [isTokenChar, Char.isAlphanum, Char.isAlpha, Char.isUpper, Char.isLower, Char.isDigit,
    UInt32.le_iff_toNat_le, Bool.or_eq_true, Bool.and_eq_true, decide_eq_true_eq, ge_iff_le,
    eq_iff_toNat c]
  change ((((65 ≤ c.toNat ∧ c.toNat ≤ 90) ∨ 97 ≤ c.toNat ∧ c.toNat ≤ 122) ∨
    48 ≤ c.toNat ∧ c.toNat ≤ 57) ∨ c.toNat = 95) ∨ c.toNat = 45 ↔ _
  omega

theorem isTokenChar_toLower (c : Char) : isTokenChar c.toLower = isTokenChar c := by
  rw [Bool.eq_iff_iff, isTokenChar_iff, isTokenChar_iff, toNat_toLower]
  split <;> omega

theorem isTokenChar_of_isWhitespace (h : isWhitespace c = true) : isTokenChar c = false := by
  rw [Bool.eq_false_iff, Ne, isTokenChar_iff]
  simp only [isWhitespace, Bool.or_eq_true, Bool.and_eq_true, decide_eq_true_eq] at h
  omega

theorem isJwtChar_of_endsValue (h : endsValue c = true) : isJwtChar c = false := by
  rw [Bool.eq_false_iff, Ne, isJwtChar, Bool.or_eq_true, isTokenChar_iff]
  simp [endsValue, isAsciiWhitespace, eq_iff_toNat c] at h ⊢
  omega

/-! ## The scan for values -/

@[grind =] def startsJwt (text : List Char) : Bool := "eyJ".toList.isPrefixOf text

@[grind =]
def maskToken (token : List Char) : List Char := if isSecretLike token then redacted else token

@[grind =] def maskJwt (span : List Char) : List Char := if isJwt span then redacted else span

theorem isPrefixOf_takeWhile {pre : List Char} (hpre : ∀ c ∈ pre, p c = true) (text : List Char) :
    pre.isPrefixOf (text.takeWhile p) = pre.isPrefixOf text := by
  induction pre generalizing text with
  | nil => rw [List.isPrefixOf_nil_left, List.isPrefixOf_nil_left]
  | cons first pre ih =>
    cases text with
    | nil => rfl
    | cons c text =>
      cases hc : p c with
      | true =>
        rw [List.takeWhile_cons_of_pos hc, List.isPrefixOf_cons_cons, List.isPrefixOf_cons_cons,
          ih fun c hc ↦ hpre c (List.mem_cons_of_mem _ hc)]
      | false =>
        have hne : first ≠ c := by
          rintro rfl
          rw [hpre first List.mem_cons_self] at hc
          cases hc
        rw [List.takeWhile_cons_of_neg (by simp [hc]), List.isPrefixOf_cons_cons,
          beq_false_of_ne hne, Bool.false_and]
        rfl

theorem startsJwt_append (hword : ∀ c ∈ word, isTokenChar c = true)
    (hrest : Ends isTokenChar rest) :
    startsJwt (word ++ rest) = startsJwt word := by
  have htake := takeWhile_append_of_ends hword hrest
  rw [startsJwt, startsJwt, ← isPrefixOf_takeWhile (p := isTokenChar)
    (List.all_eq_true.mp (by decide)) (word ++ rest),
    htake]

theorem eq_of_startsJwt (h : startsJwt (c :: text) = true) : c = 'e' := by
  change ('e' :: "yJ".toList).isPrefixOf (c :: text) = true at h
  rw [List.isPrefixOf_cons_cons, Bool.and_eq_true, beq_iff_eq] at h
  exact h.1.symm

theorem isTokenChar_of_startsJwt (h : startsJwt (c :: text) = true) : isTokenChar c = true := by
  rw [eq_of_startsJwt h]
  decide

theorem isJwtChar_of_startsJwt (h : startsJwt (c :: text) = true) : isJwtChar c = true :=
  isJwtChar_of_isTokenChar (isTokenChar_of_startsJwt h)

theorem length_dropWhile_lt (hc : p c = true) (text : List Char) :
    ((c :: text).dropWhile p).length ≤ text.length := by
  rw [List.dropWhile_cons_of_pos hc]
  exact List.length_dropWhile_le p text

theorem redactValuesFrom_eq {fuel : ℕ} (h : text.length ≤ fuel) :
    redactValuesFrom fuel text = redactValues text := by
  rw [redactValues]
  induction hn : text.length using Nat.strong_induction_on generalizing text fuel with
  | _ n ih =>
    subst hn
    cases text with
    | nil => cases fuel <;> rfl
    | cons c text =>
      obtain ⟨fuel, rfl⟩ := Nat.exists_eq_add_of_le' (Nat.one_le_of_lt h)
      have hfuel : text.length ≤ fuel := Nat.le_of_succ_le_succ h
      have hstep : ∀ rest : List Char, rest.length ≤ text.length →
          redactValuesFrom fuel rest = redactValuesFrom text.length rest := by
        intro rest hrest
        have hlt : rest.length < (c :: text).length := Nat.lt_succ_of_le hrest
        exact (ih _ hlt (hrest.trans hfuel) rfl).trans (ih _ hlt hrest rfl).symm
      rw [List.length_cons, redactValuesFrom, redactValuesFrom, hstep text le_rfl]
      split
      · rename_i hjwt
        rw [hstep _ (length_dropWhile_lt (isJwtChar_of_startsJwt hjwt) text)]
      · split
        · rename_i htoken
          rw [hstep _ (length_dropWhile_lt htoken text)]
        · rfl

theorem redactValues_nil : redactValues [] = [] := rfl

theorem redactValues_other (hc : isTokenChar c = false) (rest : List Char) :
    redactValues (c :: rest) = c :: redactValues rest := by
  have hjwt : ¬ "eyJ".toList.isPrefixOf (c :: rest) = true := fun h ↦ by
    rw [isTokenChar_of_startsJwt h] at hc
    cases hc
  rw [redactValues, List.length_cons, redactValuesFrom, if_neg hjwt, if_neg (by simp [hc]),
    redactValues]

theorem redactValues_token (hne : token ≠ []) (htoken : ∀ c ∈ token, isTokenChar c = true)
    (hjwt : startsJwt token = false) (hrest : Ends isTokenChar rest) :
    redactValues (token ++ rest) = maskToken token ++ redactValues rest := by
  have htake := takeWhile_append_of_ends htoken hrest
  have hdrop := dropWhile_append_of_ends htoken hrest
  have hstarts := startsJwt_append htoken hrest
  obtain ⟨c, token, rfl⟩ := List.exists_cons_of_ne_nil hne
  have hc := htoken c List.mem_cons_self
  rw [List.cons_append] at htake hdrop hstarts ⊢
  have hpre : ¬ "eyJ".toList.isPrefixOf (c :: (token ++ rest)) = true := by
    rw [← startsJwt, hstarts, hjwt]
    exact Bool.false_ne_true
  rw [redactValues, List.length_cons, redactValuesFrom, if_neg hpre, if_pos hc, htake, hdrop,
    maskToken, redactValuesFrom_eq (by simp)]

theorem redactValues_jwt (hjwt : startsJwt span = true) (hspan : ∀ c ∈ span, isJwtChar c = true)
    (hrest : Ends isJwtChar rest) :
    redactValues (span ++ rest) = maskJwt span ++ redactValues rest := by
  have htake := takeWhile_append_of_ends hspan hrest
  have hdrop := dropWhile_append_of_ends hspan hrest
  have hpre : startsJwt (span ++ rest) = true := by
    rw [startsJwt, List.isPrefixOf_iff_prefix] at hjwt ⊢
    exact hjwt.trans (List.prefix_append span rest)
  cases span with
  | nil => cases hjwt
  | cons c span =>
    rw [List.cons_append] at htake hdrop hpre ⊢
    rw [startsJwt] at hpre
    rw [redactValues, List.length_cons, redactValuesFrom, if_pos hpre, htake, hdrop, maskJwt,
      redactValuesFrom_eq (by simp)]

/-- The pieces that the scan for values cuts a text into. -/
theorem values_induction {motive : List Char → Prop} (nil : motive [])
    (other : ∀ c rest, isTokenChar c = false → motive rest → motive (c :: rest))
    (token : ∀ token rest, token ≠ [] → (∀ c ∈ token, isTokenChar c = true) →
      startsJwt token = false → Ends isTokenChar rest → motive rest → motive (token ++ rest))
    (jwt : ∀ span rest, startsJwt span = true → (∀ c ∈ span, isJwtChar c = true) →
      Ends isJwtChar rest → motive rest → motive (span ++ rest))
    (text : List Char) : motive text := by
  induction hn : text.length using Nat.strong_induction_on generalizing text with
  | _ n ih =>
    subst hn
    cases text with
    | nil => exact nil
    | cons c text =>
      have hshorter : ∀ {p : Char → Bool}, p c = true →
          motive ((c :: text).dropWhile p) := fun {p} hc ↦
        ih _ (Nat.lt_succ_of_le (length_dropWhile_lt hc text)) _ rfl
      cases hc : isTokenChar c with
      | false => exact other c text hc (ih _ (Nat.lt_succ_self _) _ rfl)
      | true =>
        cases hjwt : startsJwt (c :: text) with
        | true =>
          have hstarts : startsJwt ((c :: text).takeWhile isJwtChar) = true :=
            (isPrefixOf_takeWhile (List.all_eq_true.mp (by decide)) _).trans hjwt
          have hrest := jwt _ _ hstarts (fun _ ↦ List.mem_takeWhile_imp)
            (ends_dropWhile isJwtChar (c :: text)) (hshorter (isJwtChar_of_isTokenChar hc))
          rwa [List.takeWhile_append_dropWhile] at hrest
        | false =>
          have hstarts : startsJwt ((c :: text).takeWhile isTokenChar) = false :=
            (isPrefixOf_takeWhile (List.all_eq_true.mp (by decide)) _).trans hjwt
          have hne : (c :: text).takeWhile isTokenChar ≠ [] := by
            rw [List.takeWhile_cons_of_pos hc]
            exact List.cons_ne_nil _ _
          have hrest := token _ _ hne (fun _ ↦ List.mem_takeWhile_imp) hstarts
            (ends_dropWhile isTokenChar (c :: text)) (hshorter hc)
          rwa [List.takeWhile_append_dropWhile] at hrest

/-- What follows a token or a span begins with the same character after the scan. -/
theorem Ends.redactValues (h : Ends isTokenChar rest) :
    Ends isTokenChar (redactValues rest) := by
  cases rest with
  | nil => exact ends_nil
  | cons c rest =>
    have hc := ends_cons.mp h
    rw [redactValues_other hc]
    exact ends_cons.mpr hc

theorem Ends.of_isJwtChar (h : Ends isJwtChar rest) : Ends isTokenChar rest :=
  fun c hc ↦ isTokenChar_of_isJwtChar (h c hc)

theorem ends_append (h : Ends p text) (hrest : Ends p rest) : Ends p (text ++ rest) := by
  cases text with
  | nil => exact hrest
  | cons d text => exact ends_cons.mpr (ends_cons.mp h)

theorem ends_append_cons (hc : p c = false) (h : Ends p text) (rest : List Char) :
    Ends p (text ++ c :: rest) := ends_append h (ends_cons.mpr hc)

/-- No piece goes on behind a character that no span contains. -/
theorem redactValues_append_cons (hc : isJwtChar c = false) (text rest : List Char) :
    redactValues (text ++ c :: rest) = redactValues text ++ c :: redactValues rest := by
  have hc' := isTokenChar_of_isJwtChar hc
  induction text using values_induction with
  | nil => exact redactValues_other hc' rest
  | other d text hd ih =>
    rw [List.cons_append, redactValues_other hd, redactValues_other hd, ih, List.cons_append]
  | token token text hne htoken hjwt hend ih =>
    rw [List.append_assoc, redactValues_token hne htoken hjwt (ends_append_cons hc' hend rest),
      redactValues_token hne htoken hjwt hend, ih, List.append_assoc]
  | jwt span text hjwt hspan hend ih =>
    rw [List.append_assoc, redactValues_jwt hjwt hspan (ends_append_cons hc hend rest),
      redactValues_jwt hjwt hspan hend, ih, List.append_assoc]

/-- The marker is no token and no span, and ends those around it. -/
theorem redactValues_redacted (rest : List Char) :
    redactValues (redacted ++ rest) = redacted ++ redactValues rest := by
  have hopen : isJwtChar '[' = false := by decide
  have hclose : isJwtChar ']' = false := by decide
  change redactValues ([] ++ '[' :: ("redacted".toList ++ ']' :: rest)) = _
  rw [redactValues_append_cons hopen, redactValues_append_cons hclose,
    show redactValues "redacted".toList = "redacted".toList by decide]
  rfl

/-! ## Sensitive names -/

theorem infix_append_cons_iff {marker before after : List Char} (hc : c ∉ marker) :
    marker <:+: before ++ c :: after ↔ marker <:+: before ∨ marker <:+: after := by
  have hpref : ∀ {part : List Char}, c ∉ part → part <+: c :: after → part = [] := by
    intro part hpart hpre
    cases part with
    | nil => rfl
    | cons d part =>
      obtain rfl := (List.cons_prefix_cons.mp hpre).1
      exact absurd List.mem_cons_self hpart
  constructor
  · intro h
    rcases List.infix_append_iff.mp h with h | h | ⟨left, right, rfl, hleft, hright⟩
    · exact .inl h
    · rcases List.infix_cons_iff.mp h with h | h
      · rw [hpref hc h]
        exact .inl (List.nil_infix)
      · exact .inr h
    · obtain rfl := hpref (fun h ↦ hc (List.mem_append_right _ h)) hright
      rw [List.append_nil]
      exact .inl hleft.isInfix
  · rintro (h | h)
    · exact h.trans (List.prefix_append _ _).isInfix
    · exact (h.trans (List.suffix_cons c after).isInfix).trans (List.suffix_append _ _).isInfix

theorem isSensitiveKey_iff {key : List Char} : isSensitiveKey key = true ↔
    ∃ marker ∈ sensitiveKeyMarkers, marker.toList <:+: key.map Char.toLower := by
  simp only [isSensitiveKey, List.any_eq_true, List.mem_tails, List.isPrefixOf_iff_prefix]
  refine exists_congr fun marker ↦ and_congr_right fun _ ↦ ?_
  rw [List.infix_iff_prefix_suffix]
  exact exists_congr fun _ ↦ and_comm

theorem isTokenChar_of_mem_marker {marker : String} (h : marker ∈ sensitiveKeyMarkers) :
    ∀ c ∈ marker.toList, isTokenChar c = true := by
  have hall : ∀ marker ∈ sensitiveKeyMarkers, marker.toList.all isTokenChar = true := by decide
  exact List.all_eq_true.mp (hall marker h)

/-- No marker of a sensitive name contains such a character. -/
theorem isSensitiveKey_append_cons (hc : isTokenChar c = false) (before after : List Char) :
    isSensitiveKey (before ++ c :: after) = (isSensitiveKey before || isSensitiveKey after) := by
  rw [Bool.eq_iff_iff, Bool.or_eq_true]
  simp only [isSensitiveKey_iff, List.map_append, List.map_cons]
  rw [← exists_or]
  refine exists_congr fun marker ↦ ?_
  rw [← and_or_left]
  refine and_congr_right fun hmarker ↦ infix_append_cons_iff fun hmem ↦ ?_
  have hchar := isTokenChar_of_mem_marker hmarker _ hmem
  rw [isTokenChar_toLower, hc] at hchar
  cases hchar

theorem isSensitiveKey_nil : isSensitiveKey [] = false := by decide

theorem isSensitiveKey_append_of_ends (hrest : Ends isTokenChar rest) (text : List Char) :
    isSensitiveKey (text ++ rest) = (isSensitiveKey text || isSensitiveKey rest) := by
  cases rest with
  | nil => rw [List.append_nil, isSensitiveKey_nil, Bool.or_false]
  | cons c rest =>
    have hc := ends_cons.mp hrest
    have hcons := isSensitiveKey_append_cons hc [] rest
    rw [List.nil_append, isSensitiveKey_nil, Bool.false_or] at hcons
    rw [isSensitiveKey_append_cons hc, hcons]

theorem isSensitiveKey_dropWhile (text : List Char) :
    isSensitiveKey (text.dropWhile isWhitespace) = isSensitiveKey text := by
  induction text with
  | nil => rfl
  | cons c text ih =>
    cases hc : isWhitespace c with
    | false => rw [List.dropWhile_cons_of_neg (by simp [hc])]
    | true =>
      have hcons := isSensitiveKey_append_cons (isTokenChar_of_isWhitespace hc) [] text
      rw [List.nil_append, isSensitiveKey_nil, Bool.false_or] at hcons
      rw [List.dropWhile_cons_of_pos hc, ih, hcons]

theorem isSensitiveKey_rdropWhile (text : List Char) :
    isSensitiveKey (text.reverse.dropWhile isWhitespace).reverse = isSensitiveKey text := by
  induction text using List.reverseRecOn with
  | nil => rfl
  | append_singleton text c ih =>
    rw [List.reverse_concat]
    cases hc : isWhitespace c with
    | false =>
      rw [List.dropWhile_cons_of_neg (by simp [hc]), List.reverse_cons, List.reverse_reverse]
    | true =>
      rw [List.dropWhile_cons_of_pos hc, ih,
        isSensitiveKey_append_cons (isTokenChar_of_isWhitespace hc) text [], isSensitiveKey_nil,
        Bool.or_false]

/-- The blanks around a name do not make it sensitive. -/
theorem isSensitiveKey_trim (text : List Char) :
    isSensitiveKey (trim text) = isSensitiveKey text := by
  rw [trim, isSensitiveKey_rdropWhile, isSensitiveKey_dropWhile]

theorem isSensitiveKey_redacted : isSensitiveKey redacted = false := by decide

/-- What a sensitive name begins with or ends with is part of the name. -/
theorem isSensitiveKey_append {before after : List Char}
    (h : isSensitiveKey before = true ∨ isSensitiveKey after = true) :
    isSensitiveKey (before ++ after) = true := by
  simp only [isSensitiveKey_iff, List.map_append] at h ⊢
  rcases h with ⟨marker, hmarker, hinfix⟩ | ⟨marker, hmarker, hinfix⟩
  · exact ⟨marker, hmarker, List.infix_append_of_infix_left hinfix⟩
  · exact ⟨marker, hmarker, List.infix_append_of_infix_right hinfix⟩

/-! ## The scan for assignments -/

variable {name value segment : List Char} {parts : List (List Char)}

/-- No sign of the text assigns to a sensitive name. -/
def NoAssignment (text : List Char) : Prop :=
  ∀ name rest, text = name ++ '=' :: rest → isSensitiveKey name = false

/-- The parts of a text outside the values of its sensitive assignments. -/
inductive Unmasked : List Char → List (List Char) → Prop
  | plain (text : List Char) (hplain : NoAssignment text) : Unmasked text [text]
  | assignment (name value rest : List Char) (parts : List (List Char)) (hname : NoAssignment name)
      (hsensitive : isSensitiveKey name = true) (hvalue : ∀ c ∈ value, endsValue c = false)
      (hend : Ends (!endsValue ·) rest) (hrest : Unmasked rest parts) :
      Unmasked (name ++ '=' :: (value ++ rest)) (name :: parts)

theorem exists_assignment (h : ¬ NoAssignment text) : ∃ name rest, text = name ++ '=' :: rest ∧
    NoAssignment name ∧ isSensitiveKey name = true := by
  obtain ⟨name, rest, rfl, hname⟩ : ∃ name rest, text = name ++ '=' :: rest ∧
      isSensitiveKey name = true := by
    simpa [NoAssignment] using h
  clear h
  induction hn : name.length using Nat.strong_induction_on generalizing name rest with
  | _ n ih =>
    by_cases hplain : NoAssignment name
    · exact ⟨name, rest, rfl, hplain, hname⟩
    · obtain ⟨name', rest', rfl, hname'⟩ : ∃ name' rest', name = name' ++ '=' :: rest' ∧
          isSensitiveKey name' = true := by
        simpa [NoAssignment] using hplain
      have hlt : name'.length < n := by
        rw [← hn, List.length_append, List.length_cons]
        omega
      rw [List.append_assoc, List.cons_append]
      exact ih _ hlt name' (rest' ++ '=' :: rest) hname' rfl

theorem exists_unmasked (text : List Char) : ∃ parts, Unmasked text parts := by
  induction hn : text.length using Nat.strong_induction_on generalizing text with
  | _ n ih =>
    by_cases hplain : NoAssignment text
    · exact ⟨[text], .plain text hplain⟩
    · obtain ⟨name, rest, rfl, hname, hsensitive⟩ := exists_assignment hplain
      have hle := List.length_dropWhile_le (!endsValue ·) rest
      rw [List.length_append, List.length_cons] at hn
      obtain ⟨parts, hparts⟩ := ih _ (by omega) (rest.dropWhile (!endsValue ·)) rfl
      have hvalue : ∀ c ∈ rest.takeWhile (!endsValue ·), endsValue c = false := fun c hc ↦ by
        simpa using List.mem_takeWhile_imp hc
      have hassign := Unmasked.assignment name _ _ parts hname hsensitive hvalue
        (ends_dropWhile _ _) hparts
      rw [List.takeWhile_append_dropWhile] at hassign
      exact ⟨_, hassign⟩

/-- The scan goes on through a text none of whose signs assigns to a sensitive name. -/
theorem redactAssignmentsFrom_append (segment text rest : List Char)
    (h : ∀ name after, text = name ++ '=' :: after → isSensitiveKey (segment ++ name) = false) :
    redactAssignmentsFrom false segment (text ++ rest) =
      redactAssignmentsFrom false (segment ++ text) rest := by
  induction text generalizing segment with
  | nil => rw [List.nil_append, List.append_nil]
  | cons c text ih =>
    have hhere : ¬ (decide (c = '=') && isSensitiveKey (trim segment)) = true := by
      rw [isSensitiveKey_trim, Bool.and_eq_true, decide_eq_true_eq]
      rintro ⟨rfl, hsensitive⟩
      have hnot := h [] text rfl
      rw [List.append_nil, hsensitive] at hnot
      cases hnot
    rw [List.cons_append, redactAssignmentsFrom, Bool.false_and, if_neg Bool.false_ne_true,
      if_neg hhere, ih, List.append_assoc, List.singleton_append]
    intro name after hsplit
    rw [List.append_assoc, List.singleton_append]
    exact h (c :: name) after (by rw [hsplit, List.cons_append])

theorem redactAssignmentsFrom_sensitive (h : isSensitiveKey segment = true) (text : List Char) :
    redactAssignmentsFrom false segment ('=' :: text) =
      segment ++ '=' :: (redacted ++ redactAssignmentsFrom true [] text) := by
  rw [redactAssignmentsFrom, Bool.false_and, if_neg Bool.false_ne_true, isSensitiveKey_trim, h,
    if_pos (by simp), List.append_assoc, List.cons_append]

theorem redactAssignmentsFrom_skip (hvalue : ∀ c ∈ value, endsValue c = false) (rest : List Char) :
    redactAssignmentsFrom true [] (value ++ rest) = redactAssignmentsFrom true [] rest := by
  induction value with
  | nil => rfl
  | cons c value ih =>
    rw [List.cons_append, redactAssignmentsFrom, hvalue c List.mem_cons_self, if_pos (by simp),
      ih fun c hc ↦ hvalue c (List.mem_cons_of_mem _ hc)]

theorem redactAssignmentsFrom_value (hvalue : ∀ c ∈ value, endsValue c = false)
    (hend : Ends (!endsValue ·) rest) :
    redactAssignmentsFrom true [] (value ++ rest) = redactAssignments rest := by
  rw [redactAssignmentsFrom_skip hvalue]
  cases rest with
  | nil => rfl
  | cons c rest =>
    have hc : endsValue c = true := by simpa using ends_cons.mp hend
    rw [redactAssignments, redactAssignmentsFrom, redactAssignmentsFrom, hc, Bool.not_true,
      Bool.and_false, Bool.and_false]

theorem redactAssignments_plain (h : NoAssignment text) : redactAssignments text = text := by
  have hscan := redactAssignmentsFrom_append [] text [] h
  rw [List.append_nil] at hscan
  rw [redactAssignments, hscan, redactAssignmentsFrom, List.nil_append]

theorem redactAssignments_assignment (hname : NoAssignment name)
    (hsensitive : isSensitiveKey name = true) (hvalue : ∀ c ∈ value, endsValue c = false)
    (hend : Ends (!endsValue ·) rest) :
    redactAssignments (name ++ '=' :: (value ++ rest)) =
      name ++ '=' :: (redacted ++ redactAssignments rest) := by
  have hscan := redactAssignmentsFrom_append [] name ('=' :: (value ++ rest)) hname
  rw [List.nil_append] at hscan
  rw [redactAssignments, hscan, redactAssignmentsFrom_sensitive hsensitive,
    redactAssignmentsFrom_value hvalue hend]

/-- The segment that is read is part of the output. -/
theorem prefix_redactAssignmentsFrom (segment text : List Char) :
    segment <+: redactAssignmentsFrom false segment text := by
  induction text generalizing segment with
  | nil => exact List.prefix_rfl
  | cons c text ih =>
    rw [redactAssignmentsFrom, Bool.false_and, if_neg Bool.false_ne_true]
    split
    · rw [List.append_assoc]
      exact List.prefix_append _ _
    · exact (List.prefix_append segment [c]).trans (ih _)

theorem Ends.redactAssignments (h : Ends (!endsValue ·) rest) :
    Ends (!endsValue ·) (redactAssignments rest) := by
  cases rest with
  | nil => exact h
  | cons c rest =>
    have hc : endsValue c = true := by simpa using ends_cons.mp h
    have hne : c ≠ '=' := by
      rintro rfl
      revert hc
      decide
    obtain ⟨out, hout⟩ := prefix_redactAssignmentsFrom [c] rest
    rw [Orchestrator.redactAssignments, redactAssignmentsFrom, Bool.false_and,
      if_neg Bool.false_ne_true, if_neg (by simp [hne]), List.nil_append, ← hout]
    exact ends_cons.mpr (ends_cons.mp h)

/-- A value ends before a character that is no part of a token, and a scan for values keeps it. -/
theorem ends_redactValues (h : Ends (!endsValue ·) rest) :
    Ends (!endsValue ·) (redactValues rest) := by
  cases rest with
  | nil => exact h
  | cons c rest =>
    have hc : endsValue c = true := by simpa using ends_cons.mp h
    rw [redactValues_other (isTokenChar_of_isJwtChar (isJwtChar_of_endsValue hc))]
    exact ends_cons.mpr (ends_cons.mp h)

/-! ## Both scans -/

@[grind =] def redactChars (text : List Char) : List Char := redactValues (redactAssignments text)

theorem toList_redact (text : String) : (redact text).toList = redactChars text.toList :=
  String.toList_ofList

theorem redactChars_plain (h : NoAssignment text) : redactChars text = redactValues text := by
  rw [redactChars, redactAssignments_plain h]

theorem redactChars_assignment (hname : NoAssignment name)
    (hsensitive : isSensitiveKey name = true) (hvalue : ∀ c ∈ value, endsValue c = false)
    (hend : Ends (!endsValue ·) rest) :
    redactChars (name ++ '=' :: (value ++ rest)) =
      redactValues name ++ '=' :: (redacted ++ redactChars rest) := by
  rw [redactChars, redactAssignments_assignment hname hsensitive hvalue hend,
    redactValues_append_cons (by decide), redactValues_redacted, redactChars]

end EeEditor.Orchestrator
