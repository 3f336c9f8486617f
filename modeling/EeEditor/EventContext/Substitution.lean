import Mathlib.Data.List.Sort
import EeEditor.EventContext.LineText
import EeEditor.Rope.LineEdits
import EeEditor.Sequence.Replacing

/-!
# Substituting in lines

`compute_line_replacements` and `apply_line_replacements` of `event_context/helpers.rs`, over the
characters of a text. The pattern is escaped before it is given to the `regex` crate, the
replacement is not: it is a template.
-/

namespace EeEditor.EventContext.Substitution

/-! ## The engine -/

/-- What is used of the `regex` crate. -/
structure RegexEngine where
  Regex : Type
  escape : List Char → List Char
  build : (pattern : List Char) → (caseInsensitive : Bool) → Except String Regex
  replace : Regex → (haystack replacement : List Char) → List Char
  replaceAll : Regex → (haystack replacement : List Char) → List Char

/-- The pieces of a template. A reference has its text behind the `$`, and whether it is to the
group of the whole match. -/
inductive TemplatePiece
  | text (c : Char)
  | dollar
  | group (source : List Char) (whole : Bool)
  deriving DecidableEq

def isCapLetter (c : Char) : Bool := c.isAlphanum || c = '_'

/-- The name in the reference that a `$` begins, and the length of its text behind the `$`. -/
def capRef : List Char → Option (List Char × ℕ)
  | '{' :: rest =>
    let name := rest.takeWhile (· ≠ '}')
    if name.length < rest.length then some (name, name.length + 2) else none
  | rest =>
    let name := rest.takeWhile isCapLetter
    if name.isEmpty then none else some (name, name.length)

/-- The name is a number, and that number is zero. -/
def isZero (name : List Char) : Bool :=
  let digits := match name with
    | '+' :: digits => digits
    | digits => digits
  !digits.isEmpty && digits.all (· = '0')

/-- How a replacement is read: `$$` is a dollar, `$name` and `${name}` are references, and any other
`$` is itself. -/
def pieces : List Char → List TemplatePiece
  | [] => []
  | '$' :: '$' :: rest => .dollar :: pieces rest
  | '$' :: rest =>
    match capRef rest with
    | some (name, length) => .group (rest.take length) (isZero name) :: pieces (rest.drop length)
    | none => .text '$' :: pieces rest
  | c :: rest => .text c :: pieces rest
termination_by template => template.length
decreasing_by
  all_goals simp only [List.length_cons, List.length_drop]
  all_goals omega

/-- The text of a piece in the template. -/
def TemplatePiece.source : TemplatePiece → List Char
  | text c => [c]
  | dollar => ['$', '$']
  | group source _ => '$' :: source

/-- What a piece stands for, in a match that has no groups but the whole. -/
def TemplatePiece.value (whole : List Char) : TemplatePiece → List Char
  | text c => [c]
  | dollar => ['$']
  | group _ true => whole
  | group _ false => []

def expand (whole template : List Char) : List Char :=
  (pieces template).flatMap (·.value whole)

/-- An escaped pattern is a literal, and replacements are templates. -/
structure RegexEngine.Documented (engine : RegexEngine) : Prop where
  replace : ∀ pattern regex, pattern ≠ [] → engine.build (engine.escape pattern) false = .ok regex →
    ∀ haystack replacement, engine.replace regex haystack replacement =
      replaceFirst pattern (expand pattern replacement) haystack
  replaceAll : ∀ pattern regex, pattern ≠ [] →
    engine.build (engine.escape pattern) false = .ok regex →
      ∀ haystack replacement, engine.replaceAll regex haystack replacement =
        replaceEvery pattern (expand pattern replacement) 0 haystack

/-! ## The code -/

structure LineReplacement where
  line : ℕ
  text : List Char
  deriving DecidableEq

/-- `Err` has the code and the message of the `RemoteError`. -/
def computeLineReplacements (engine : RegexEngine) (text : List Char) (startLine endLine : ℕ)
    (pattern replacement : List Char) (global caseSensitive : Bool) :
    Except (ℕ × String) (List LineReplacement) :=
  match engine.build (engine.escape pattern) (!caseSensitive) with
  | .error err => .error (400, "substitute: bad pattern: " ++ err)
  | .ok regex =>
    let startLine := min startLine (totalLines text - 1)
    let endLine := min endLine (totalLines text - 1)
    if startLine > endLine then .ok []
    else .ok ((List.range' startLine (endLine + 1 - startLine)).filterMap fun line ↦
      let current := lineText text line
      let next :=
        if global then engine.replaceAll regex current replacement
        else engine.replace regex current replacement
      if current ≠ next then some ⟨line, next⟩ else none)

def replaceLine (text : List Char) (builder : DeltaBuilder Char) (replacement : LineReplacement) :
    Option (DeltaBuilder Char) :=
  let interval := lineContentInterval text replacement.line
  builder.replace interval.1 interval.2 replacement.text

/-- `none` is a panic of the builder. -/
def applyLineReplacements (text : List Char) (replacements : List LineReplacement) :
    Option (Delta Char) :=
  let sorted := replacements.mergeSort fun a b ↦ a.line ≤ b.line
  (sorted.foldlM (replaceLine text) (.new text.length)).map DeltaBuilder.build

/-! ## What substituting is for -/

/-- The first occurrence is replaced, or all of them. -/
def substituted (pattern new : List Char) (global : Bool) (content : List Char) : List Char :=
  if global then replaceEvery pattern new 0 content else replaceFirst pattern new content

/-- The text with the pattern replaced in the contents of some lines. -/
def substitutedText (text : List Char) (selected : ℕ → Prop) [DecidablePred selected]
    (pattern new : List Char) (global : Bool) : List Char :=
  ['\n'].intercalate ((text.splitOn '\n').mapIdx fun n line ↦
    if selected n then
      substituted pattern new global (content (n + 1 < totalLines text) line) ++
        carriageReturn (n + 1 < totalLines text) line
    else line)

/-- What is computed puts the replacement, as it is, into the lines of the range. -/
def SubstitutesLiterally (engine : RegexEngine) (text : List Char) (startLine endLine : ℕ)
    (pattern replacement : List Char) (global : Bool) : Prop :=
  ∀ replacements, computeLineReplacements engine text startLine endLine pattern replacement global
    true = .ok replacements →
      ∃ delta, applyLineReplacements text replacements = some delta ∧ delta.apply text =
        some (substitutedText text (fun n ↦ startLine ≤ n ∧ n ≤ endLine) pattern replacement global)

/-- A template that spells itself: it has no `$$` and no reference, or has a reference to the whole
match and still comes out as it is. -/
def Verbatim (pattern replacement : List Char) : Prop :=
  (∀ piece ∈ pieces replacement, ∃ c, piece = .text c) ∨
    (∃ source, .group source true ∈ pieces replacement) ∧ expand pattern replacement = replacement

/-- Where the pattern occurs, the replacement is no more than a text. Behind the last line the last
one is taken, and it must stay the same. -/
structure Fits (text : List Char) (startLine endLine : ℕ) (pattern replacement : List Char) :
    Prop where
  verbatim : ∀ n line, startLine ≤ n → n ≤ endLine → (text.splitOn '\n')[n]? = some line →
    pattern <:+: content (n + 1 < totalLines text) line → Verbatim pattern replacement
  past : totalLines text ≤ startLine → totalLines text ≤ endLine + 1 →
    ∀ line, (text.splitOn '\n').getLast? = some line → pattern <:+: line →
      expand pattern replacement = pattern

/-! ## Templates -/

section

variable {pattern replacement : List Char}

theorem flatMap_source (template : List Char) :
    (pieces template).flatMap (·.source) = template := by
  induction template using pieces.induct with
  | case1 => rw [pieces]; rfl
  | case2 rest ih => rw [pieces, List.flatMap_cons, ih]; rfl
  | case3 rest hrest name length href ih =>
    rw [pieces.eq_3 _ hrest, href]
    dsimp only
    rw [List.flatMap_cons, ih, TemplatePiece.source, List.cons_append, List.take_append_drop]
  | case4 rest hrest href ih =>
    rw [pieces.eq_3 _ hrest, href]
    dsimp only
    rw [List.flatMap_cons, ih]
    rfl
  | case5 c rest hdollar hc ih =>
    rw [pieces.eq_4 _ _ hdollar hc, List.flatMap_cons, ih]
    rfl

variable (pattern) in
/-- A piece that is not text stands for less, unless it is a reference to the whole match. -/
theorem TemplatePiece.length_value {piece : TemplatePiece}
    (hwhole : ∀ source, piece ≠ group source true) :
    (piece.value pattern).length ≤ piece.source.length ∧
      ((piece.value pattern).length = piece.source.length → ∃ c, piece = text c) := by
  cases piece with
  | text c => exact ⟨Nat.le_refl _, fun _ ↦ ⟨c, rfl⟩⟩
  | dollar => exact ⟨Nat.le_succ 1, fun h ↦ absurd h (Nat.succ_ne_self 1).symm⟩
  | group source whole =>
    cases whole with
    | true => exact absurd rfl (hwhole source)
    | false => exact ⟨Nat.zero_le _, fun h ↦ absurd h.symm (Nat.succ_ne_zero _)⟩

variable (pattern) in
theorem length_value_le {ps : List TemplatePiece} (hwhole : ∀ source, .group source true ∉ ps) :
    (ps.flatMap (·.value pattern)).length ≤ (ps.flatMap (·.source)).length ∧
      ((ps.flatMap (·.value pattern)).length = (ps.flatMap (·.source)).length →
        ∀ piece ∈ ps, ∃ c, piece = .text c) := by
  induction ps with
  | nil => exact ⟨Nat.le_refl _, fun _ ↦ nofun⟩
  | cons piece ps ih =>
    obtain ⟨hle, heq⟩ := ih fun source hmem ↦ hwhole source (List.mem_cons_of_mem _ hmem)
    have hpiece := TemplatePiece.length_value pattern fun source heq ↦
      hwhole source (heq ▸ List.mem_cons_self)
    rw [List.flatMap_cons, List.flatMap_cons, List.length_append, List.length_append]
    refine ⟨Nat.add_le_add hpiece.1 hle, fun hsame ↦ List.forall_mem_cons.mpr ⟨?_, ?_⟩⟩
    · exact hpiece.2 (by omega)
    · exact heq (by omega)

theorem expand_of_text (h : ∀ piece ∈ pieces replacement, ∃ c, piece = .text c) :
    expand pattern replacement = replacement := by
  have hvalue : ∀ piece ∈ pieces replacement, piece.value pattern = piece.source := by
    intro piece hpiece
    obtain ⟨c, rfl⟩ := h piece hpiece
    rfl
  rw [expand, List.flatMap_congr hvalue, flatMap_source]

theorem expand_eq_iff :
    expand pattern replacement = replacement ↔ Verbatim pattern replacement := by
  constructor
  · intro h
    by_cases hwhole : ∃ source, .group source true ∈ pieces replacement
    · exact .inr ⟨hwhole, h⟩
    · refine .inl ((length_value_le pattern (not_exists.mp hwhole)).2 ?_)
      rw [flatMap_source, ← expand, h]
  · rintro (htext | ⟨-, h⟩)
    · exact expand_of_text htext
    · exact h

end

/-! ## Substituting -/

section

variable {pattern replacement : List Char}

theorem hasGap_substituted (hpattern : pattern ≠ []) (global : Bool) (text : List Char) :
    HasGap (pattern <:+: text) fun new ↦ substituted pattern new global text := by
  cases global with
  | false => exact hasGap_replaceFirst hpattern text
  | true => exact hasGap_replaceEvery hpattern text

theorem substituted_self (hpattern : pattern ≠ []) (global : Bool) (text : List Char) :
    substituted pattern pattern global text = text := by
  cases global with
  | false => exact replaceFirst_self pattern text
  | true => exact replaceEvery_self hpattern text

/-- The text shows what the occurrences were replaced by. -/
theorem hasGap_substitutedText (hpattern : pattern ≠ []) (text : List Char) (selected : ℕ → Prop)
    [DecidablePred selected] (global : Bool) :
    HasGap (∃ n line, (text.splitOn '\n')[n]? = some line ∧ selected n ∧
        pattern <:+: content (n + 1 < totalLines text) line)
      fun new ↦ substitutedText text selected pattern new global := by
  refine hasGap_intercalate '\n' _ fun n line _ ↦ ?_
  by_cases hselected : selected n
  · simp only [if_pos hselected]
    exact ((hasGap_substituted hpattern global _).append (hasGap_const _)).congr
      ((or_iff_left id).trans (and_iff_right hselected).symm)
  · simp only [if_neg hselected]
    exact (hasGap_const line).congr (iff_of_false id fun h ↦ hselected h.1)

theorem substitutedText_eq_self {text : List Char} {selected : ℕ → Prop} [DecidablePred selected]
    {new : List Char} {global : Bool}
    (h : ∀ n line, (text.splitOn '\n')[n]? = some line → selected n →
      substituted pattern new global (content (n + 1 < totalLines text) line) =
        content (n + 1 < totalLines text) line) :
    substitutedText text selected pattern new global = text := by
  have hlines : (text.splitOn '\n').mapIdx (fun n line ↦
      if selected n then
        substituted pattern new global (content (n + 1 < totalLines text) line) ++
          carriageReturn (n + 1 < totalLines text) line
      else line) = text.splitOn '\n' := by
    refine List.ext_getElem? fun n ↦ ?_
    rw [List.getElem?_mapIdx]
    cases hline : (text.splitOn '\n')[n]? with
    | none => rfl
    | some line =>
      rw [Option.map_some]
      split_ifs with hselected
      · rw [h n line hline hselected, content_append]
      · rfl
  rw [substitutedText, hlines]
  exact List.intercalate_splitOn '\n'

variable {engine : RegexEngine} {text : List Char} {startLine endLine : ℕ} {global : Bool}

/-- The lines that are visited. -/
def visited (text : List Char) (startLine endLine : ℕ) : List ℕ :=
  let startLine := min startLine (totalLines text - 1)
  List.range' startLine (min endLine (totalLines text - 1) + 1 - startLine)

theorem mem_visited {n : ℕ} : n ∈ visited text startLine endLine ↔
    min startLine (totalLines text - 1) ≤ n ∧ n ≤ min endLine (totalLines text - 1) := by
  rw [visited, List.mem_range'_1]
  omega

theorem lt_of_mem_visited {n : ℕ} (h : n ∈ visited text startLine endLine) :
    n < totalLines text := by
  have hpos : 0 < totalLines text := Nat.succ_pos _
  have hle := (mem_visited.mp h).2
  omega

/-- The edit of a line. -/
def lineEdit (text : List Char) (ns : List ℕ) (pattern new : List Char) (global : Bool) (n : ℕ)
    (line : List Char) : Option (Splice Char) :=
  let current := content (n + 1 < totalLines text) line
  let next := substituted pattern new global current
  if n ∈ ns ∧ current ≠ next then some ⟨0, current.length, next⟩ else none

theorem editedLine_lineEdit (ns : List ℕ) (new : List Char) (n : ℕ) (line : List Char) :
    editedLine line (lineEdit text ns pattern new global n line) =
      if n ∈ ns then
        substituted pattern new global (content (n + 1 < totalLines text) line) ++
          carriageReturn (n + 1 < totalLines text) line
      else line := by
  rw [lineEdit]
  by_cases hn : n ∈ ns
  · rw [if_pos hn]
    split_ifs with hchanged
    · rw [editedLine, List.take_zero, List.nil_append, drop_content]
    · rw [← of_not_not (not_and.mp hchanged hn), content_append]
      rfl
  · rw [if_neg hn, if_neg fun h ↦ hn h.1]
    rfl

def lineReplacement (text pattern new : List Char) (global : Bool) (n : ℕ) :
    Option LineReplacement :=
  let current := lineText text n
  let next := substituted pattern new global current
  if current ≠ next then some ⟨n, next⟩ else none

/-- The turn of a line in the application of the replacements. -/
def substituteLine (text pattern new : List Char) (global : Bool) (builder : DeltaBuilder Char)
    (n : ℕ) : Option (DeltaBuilder Char) :=
  match lineReplacement text pattern new global n with
  | some replacement => replaceLine text builder replacement
  | none => some builder

theorem substitute_editsLines (text pattern new : List Char) (global : Bool) (ns : List ℕ) :
    EditsLines '\n' text (fun n ↦ n ∈ ns ∧ n < totalLines text)
      (lineEdit text ns pattern new global) (substituteLine text pattern new global) where
  line := by
    intro n line builder hn h
    rw [substituteLine, lineReplacement, lineEdit, lineText_eq h]
    by_cases hchanged : content (n + 1 < totalLines text) line =
        substituted pattern new global (content (n + 1 < totalLines text) line)
    · rw [if_neg (not_not.mpr hchanged), if_neg fun hboth ↦ hboth.2 hchanged]
      rfl
    · rw [if_pos hchanged, if_pos ⟨hn.1, hchanged⟩]
      dsimp only
      rw [replaceLine, lineContentInterval_eq h]
      rfl
  past := by
    intro n builder hn h
    rw [List.getElem?_eq_none_iff, length_splitOn_eq] at h
    exact absurd hn.2 (Nat.not_lt.mpr h)
  within := by
    intro n line splice hsplice
    rw [lineEdit] at hsplice
    split_ifs at hsplice
    · obtain rfl := Option.some.inj hsplice
      exact ⟨Nat.zero_le _, content_length_le _ line⟩
    · cases hsplice

/-- The replacements are computed line by line. -/
theorem computeLineReplacements_eq (hengine : engine.Documented) (hpattern : pattern ≠ [])
    {regex : engine.Regex} (hregex : engine.build (engine.escape pattern) false = .ok regex) :
    computeLineReplacements engine text startLine endLine pattern replacement global true =
      .ok ((visited text startLine endLine).filterMap
        (lineReplacement text pattern (expand pattern replacement) global)) := by
  rw [computeLineReplacements, Bool.not_true, hregex]
  dsimp only
  by_cases hempty : min startLine (totalLines text - 1) > min endLine (totalLines text - 1)
  · have hvisited : visited text startLine endLine = [] := by
      rw [visited, Nat.sub_eq_zero_of_le hempty]
      rfl
    rw [if_pos hempty, hvisited]
    rfl
  · rw [if_neg hempty]
    refine congrArg _ (List.filterMap_congr fun n _ ↦ ?_)
    have hnext : (if global then engine.replaceAll regex (lineText text n) replacement
        else engine.replace regex (lineText text n) replacement) =
          substituted pattern (expand pattern replacement) global (lineText text n) := by
      rw [hengine.replaceAll pattern regex hpattern hregex,
        hengine.replace pattern regex hpattern hregex]
      rfl
    rw [hnext]
    rfl

/-- They are sorted already, and applied line by line. -/
theorem applyLineReplacements_eq (new : List Char) : applyLineReplacements text
    ((visited text startLine endLine).filterMap (lineReplacement text pattern new global)) =
      ((visited text startLine endLine).foldlM (substituteLine text pattern new global)
        (.new text.length)).map DeltaBuilder.build := by
  have hsorted : ((visited text startLine endLine).filterMap
      (lineReplacement text pattern new global)).Pairwise fun a b ↦ a.line ≤ b.line := by
    rw [List.pairwise_filterMap]
    refine (List.pairwise_lt_range' ..).imp fun {n m} hlt a ha b hb ↦ ?_
    rw [lineReplacement] at ha hb
    split_ifs at ha hb
    obtain rfl := Option.some.inj ha
    obtain rfl := Option.some.inj hb
    exact hlt.le
  rw [applyLineReplacements, List.mergeSort_of_pairwise (by simpa using hsorted),
    List.foldlM_filterMap]
  congr 2
  funext builder n
  rw [substituteLine]
  cases lineReplacement text pattern new global n <;> rfl

variable (text startLine endLine replacement global) in
/-- What is done to a text: the replacement is put in as the template that it is. -/
theorem exists_substituted (hengine : engine.Documented) (hpattern : pattern ≠ [])
    {regex : engine.Regex} (hregex : engine.build (engine.escape pattern) false = .ok regex) :
    ∃ replacements delta, computeLineReplacements engine text startLine endLine pattern replacement
        global true = .ok replacements ∧
      applyLineReplacements text replacements = some delta ∧
      delta.apply text = some (substitutedText text (· ∈ visited text startLine endLine) pattern
        (expand pattern replacement) global) := by
  have hsorted : (visited text startLine endLine).Pairwise (· < ·) := List.pairwise_lt_range' ..
  obtain ⟨builder, hrun, hreaches⟩ := foldlM_lines
    (substitute_editsLines text pattern (expand pattern replacement) global
      (visited text startLine endLine)) hsorted
    (fun n hn ↦ ⟨hn, lt_of_mem_visited hn⟩) fun n line hn ↦ if_neg fun h ↦ hn h.1
  refine ⟨_, builder.build, computeLineReplacements_eq hengine hpattern hregex, ?_, ?_⟩
  · rw [applyLineReplacements_eq, hrun]
    rfl
  · simp only [editedLine_lineEdit] at hreaches
    exact hreaches.build

/-- **The substitution is literal exactly when the replacement is no template where the pattern
occurs.** -/
theorem substitutesLiterally_iff (hengine : engine.Documented) (hpattern : pattern ≠ []) :
    SubstitutesLiterally engine text startLine endLine pattern replacement global ↔
      ∀ regex, engine.build (engine.escape pattern) false = .ok regex →
        Fits text startLine endLine pattern replacement := by
  cases hbuild : engine.build (engine.escape pattern) false with
  | error err =>
    refine iff_of_true (fun replacements hcompute ↦ ?_) fun regex hregex ↦ ?_
    · rw [computeLineReplacements, Bool.not_true, hbuild] at hcompute
      cases hcompute
    · cases hregex
  | ok regex =>
    obtain ⟨replacements, delta, hcompute, happly, hdelta⟩ := exists_substituted replacement text
      startLine endLine global hengine hpattern hbuild
    have hresult : SubstitutesLiterally engine text startLine endLine pattern replacement global ↔
        substitutedText text (· ∈ visited text startLine endLine) pattern
            (expand pattern replacement) global =
          substitutedText text (fun n ↦ startLine ≤ n ∧ n ≤ endLine) pattern replacement
            global := by
      constructor
      · intro h
        obtain ⟨delta', happly', hdelta'⟩ := h replacements hcompute
        obtain rfl := Option.some.inj (happly.symm.trans happly')
        exact Option.some.inj (hdelta.symm.trans hdelta')
      · intro heq replacements' hcompute'
        obtain rfl := Except.ok.inj (hcompute.symm.trans hcompute')
        exact ⟨delta, happly, heq ▸ hdelta⟩
    have hgap := hasGap_substitutedText hpattern text (· ∈ visited text startLine endLine) global
    have hbuilds : (∀ r, Except.ok regex = Except.ok (ε := String) r →
        Fits text startLine endLine pattern replacement) ↔
          Fits text startLine endLine pattern replacement :=
      ⟨fun h ↦ h regex rfl, fun h _ _ ↦ h⟩
    rw [hresult, hbuilds]
    have hpos : 0 < totalLines text := Nat.succ_pos _
    have hlt {n : ℕ} {line : List Char} (hline : (text.splitOn '\n')[n]? = some line) :
        n < totalLines text := by
      rw [← length_splitOn_eq]
      exact (List.getElem?_eq_some_iff.mp hline).1
    rcases Nat.lt_or_ge startLine (totalLines text) with hstart | hpast
    · have hsame : substitutedText text (fun n ↦ startLine ≤ n ∧ n ≤ endLine) pattern replacement
          global = substitutedText text (· ∈ visited text startLine endLine) pattern replacement
            global := by
        refine congrArg _ (List.mapIdx_eq_mapIdx_iff.mpr fun n hn ↦ ?_)
        rw [length_splitOn_eq] at hn
        refine if_congr (Iff.trans ?_ mem_visited.symm) rfl rfl
        omega
      rw [hsame, hgap.eq_iff, expand_eq_iff]
      constructor
      · intro h
        refine ⟨fun n line hn hend hline hoccurs ↦ h ⟨n, line, hline, ?_, hoccurs⟩, by omega⟩
        have hn := hlt hline
        exact mem_visited.mpr (by omega)
      · rintro h ⟨n, line, hline, hn, hoccurs⟩
        have hn := mem_visited.mp hn
        exact h.verbatim n line (by omega) (by omega) hline hoccurs
    · have hnone : substitutedText text (fun n ↦ startLine ≤ n ∧ n ≤ endLine) pattern replacement
          global = text := substitutedText_eq_self fun n line hline hn ↦ by
        have hn' := hlt hline
        omega
      have hself : substitutedText text (· ∈ visited text startLine endLine) pattern pattern
          global = text := substitutedText_eq_self fun n line _ _ ↦ substituted_self hpattern _ _
      have hwhole : substitutedText text (· ∈ visited text startLine endLine) pattern
          (expand pattern replacement) global = text ↔ _ :=
        (Eq.congr_right hself).symm.trans hgap.eq_iff
      rw [hnone, hwhole]
      have hlast {n : ℕ} (line : List Char) : (text.splitOn '\n')[n]? = some line ∧
          n ∈ visited text startLine endLine ↔ n = totalLines text - 1 ∧
            totalLines text ≤ endLine + 1 ∧ (text.splitOn '\n').getLast? = some line := by
        rw [List.getLast?_eq_getElem?, length_splitOn_eq, mem_visited]
        constructor
        · rintro ⟨hline, hn⟩
          have hn' := hlt hline
          obtain rfl : n = totalLines text - 1 := by omega
          exact ⟨rfl, by omega, hline⟩
        · rintro ⟨rfl, hend, hline⟩
          exact ⟨hline, by omega⟩
      have hcontent {n : ℕ} (hn : n = totalLines text - 1) (line : List Char) :
          content (n + 1 < totalLines text) line = line :=
        if_neg fun h ↦ by
          have hmore := of_decide_eq_true h.1
          omega
      constructor
      · intro h
        refine ⟨fun n line hn _ hline ↦ ?_, fun _ hend line hline hoccurs ↦ ?_⟩
        · have hn' := hlt hline
          omega
        · obtain ⟨hget, hmem⟩ := (hlast line).mpr ⟨rfl, hend, hline⟩
          exact h ⟨_, line, hget, hmem, by rwa [hcontent rfl]⟩
      · rintro h ⟨n, line, hget, hmem, hoccurs⟩
        obtain ⟨hn, hend, hline⟩ := (hlast line).mp ⟨hget, hmem⟩
        rw [hcontent hn] at hoccurs
        exact h.past hpast hend line hline hoccurs

end

/-- An engine for literals: the escapes are taken away again. -/
def literalEngine : RegexEngine where
  Regex := List Char
  escape pattern := pattern.flatMap fun c ↦
    if c ∈ "\\.+*?()|[]\x7b\x7d^$#&-~".toList then ['\\', c] else [c]
  build pattern _ := .ok (unescape pattern)
  replace regex haystack replacement := replaceFirst regex (expand regex replacement) haystack
  replaceAll regex haystack replacement := replaceEvery regex (expand regex replacement) 0 haystack
where
  unescape : List Char → List Char
    | '\\' :: c :: rest => c :: unescape rest
    | c :: rest => c :: unescape rest
    | [] => []

theorem literalEngine_unescape (pattern : List Char) :
    literalEngine.unescape (literalEngine.escape pattern) = pattern := by
  induction pattern with
  | nil => rfl
  | cons c pattern ih =>
    rw [literalEngine] at ih ⊢
    dsimp only at ih ⊢
    rw [List.flatMap_cons]
    split_ifs with hmeta
    · rw [List.cons_append, List.singleton_append, literalEngine.unescape, ih]
    · have hc : c ≠ '\\' := by
        rintro rfl
        exact hmeta (by decide)
      rw [List.singleton_append, literalEngine.unescape, ih]
      rintro _ _ rfl
      exact absurd rfl hc

theorem literalEngine_documented : literalEngine.Documented where
  replace := by
    intro pattern regex _ hregex haystack replacement
    obtain rfl := (literalEngine_unescape pattern).symm.trans (Except.ok.inj hregex)
    rfl
  replaceAll := by
    intro pattern regex _ hregex haystack replacement
    obtain rfl := (literalEngine_unescape pattern).symm.trans (Except.ok.inj hregex)
    rfl

/-- Metacharacters in the pattern are no matter. -/
theorem substitutesLiterally_metacharacters : SubstitutesLiterally literalEngine
    ['a', '.', '*', '\r', '\n', '.', '*', '.', '*'] 0 7 ['.', '*'] ['(', '\\', '1', ')', '$']
      true :=
  (substitutesLiterally_iff literalEngine_documented (by decide)).mpr fun _ _ ↦
    ⟨fun _ _ _ _ _ _ ↦ .inl (by simp [pieces, capRef]), by decide⟩

/-- The amount `$5` is read as a group that does not exist. -/
theorem dollar_dropped : ¬ SubstitutesLiterally literalEngine ['c', 'o', 's', 't'] 0 0
    ['c', 'o', 's', 't'] ['$', '5'] false := by
  intro h
  have hpattern : ['c', 'o', 's', 't'] ≠ [] := List.cons_ne_nil _ _
  obtain ⟨replacements, delta, hcompute, happly, hdelta⟩ := exists_substituted ['$', '5']
    ['c', 'o', 's', 't'] 0 0 false literalEngine_documented hpattern rfl
  obtain ⟨delta', happly', hdelta'⟩ := h replacements hcompute
  obtain rfl := Option.some.inj (happly.symm.trans happly')
  have hexpand : expand ['c', 'o', 's', 't'] ['$', '5'] = [] := by
    simp [expand, pieces, capRef, isCapLetter, isZero, TemplatePiece.value]
  rw [hexpand] at hdelta
  exact absurd (hdelta.symm.trans hdelta') (by decide +kernel)

end EeEditor.EventContext.Substitution
