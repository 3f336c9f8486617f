import EeEditor.Safeguards.Inspect
import EeEditor.Sequence.Lines

/-!
# The places of targets

A target of a deletion without wildcards stands for a place, the names on the way there from the
root. What `is_catastrophic_target` says of the target is what it says of the place: it tells a few
places by themselves, so that a directory above them is told only if it is one of them as well.
-/

namespace EeEditor.Safeguards

open EeEditor.Orchestrator (Component)

/-! ## Places -/

/-- The names from the root to a place. -/
abbrev Place := List Token

/-- A dot stays, two dots go up, but not above the root, and a name goes down. -/
def walkStep (place : Place) (segment : Token) : Place :=
  if segment = [] ∨ segment = ['.'] then place
  else if segment = ['.', '.'] then place.dropLast
  else place ++ [segment]

def walk (segments : List Token) : Place := segments.foldl walkStep []

def segments (text : Token) : List Token := text.splitOn '/'

/-- A text that begins at the root. -/
abbrev AbsoluteText := {text : Token // text.head? = some '/'}

def AbsoluteText.place (text : AbsoluteText) : Place := walk (segments text.val)

/-- The place of a target that is taken from a directory. -/
def placeFrom (cwd : AbsoluteText) (target : Token) : Place :=
  if target.head? = some '/' then walk (segments target)
  else walk (segments cwd.val ++ segments target)

/-- A target that is taken by its letters: it is neither a wildcard nor the home directory. -/
structure Literal (target : Token) : Prop where
  ne_wildcard : target ≠ ['*'] ∧ target ≠ ['?'] ∧ target ≠ "{*,.*}".toList
  no_suffix : ¬ "/*".toList <:+ target ∧ ¬ "/?".toList <:+ target
  no_tilde : target.head? ≠ some '~'

theorem Literal.of_notMem {target : Token} (hstar : '*' ∉ target) (hmark : '?' ∉ target)
    (htilde : target.head? ≠ some '~') : Literal target := by
  refine ⟨⟨?_, ?_, ?_⟩, ⟨fun h ↦ ?_, fun h ↦ ?_⟩, htilde⟩
  · rintro rfl
    exact hstar (by decide)
  · rintro rfl
    exact hmark (by decide)
  · rintro rfl
    exact hstar (by decide)
  · exact hstar (h.subset (by decide))
  · exact hmark (h.subset (by decide))

/-! ## Paths and places -/

/-- The components of the path to a place. -/
def pathTo (place : Place) : Path := .rootDir :: place.map fun name ↦ .normal (.ofList name)

section

variable {place place' : Place} {text target : Token}

theorem pathTo_inj : pathTo place = pathTo place' ↔ place = place' := by
  refine ⟨fun h ↦ ?_, congrArg _⟩
  refine List.map_injective_iff.mpr (fun name name' heq ↦ ?_) (List.cons.inj h).2
  exact String.ofList_injective (Component.normal.inj heq)

theorem pathTo_concat (place : Place) (name : Token) :
    pathTo (place ++ [name]) = pathTo place ++ [.normal (.ofList name)] := by
  rw [pathTo, List.map_append]
  rfl

theorem parent_pathTo (place : Place) :
    (pathTo place).parent = if place = [] then none else some (pathTo place.dropLast) := by
  obtain rfl | ⟨above, name, rfl⟩ := List.eq_nil_or_concat' place
  · rfl
  · rw [if_neg (List.append_ne_nil_of_right_ne_nil _ (List.cons_ne_nil _ _)),
      List.dropLast_concat, pathTo_concat, Path.parent, List.getLast?_concat]
    exact congrArg some List.dropLast_concat

theorem pop_pathTo (place : Place) : (pathTo place).pop = pathTo place.dropLast := by
  rw [Path.pop, parent_pathTo]
  obtain rfl | hplace := eq_or_ne place []
  · rfl
  · rw [if_neg hplace, Option.getD_some]

theorem join_normal (path : Path) (name : String) :
    path.join [.normal name] = path ++ [.normal name] := if_neg (by simp [Path.isAbsolute])

/-- A round of `lexical_normalize`. -/
def normalizeStep (normalized : Path) : Component → Path
  | .curDir => normalized
  | .parentDir => normalized.pop
  | .rootDir => normalized.join [.rootDir]
  | .normal name => normalized.join [.normal name]

theorem lexicalNormalize_eq (path : Path) :
    lexicalNormalize path = path.foldl normalizeStep [] := rfl

/-- The component of a segment that is neither empty nor a dot. -/
def component (segment : Token) : Component :=
  if segment = ['.', '.'] then .parentDir else .normal (.ofList segment)

def components (segments : List Token) : Path :=
  (segments.filter fun segment ↦ segment ≠ [] ∧ segment ≠ ['.']).map component

theorem foldl_components (segments : List Token) (place : Place) :
    (components segments).foldl normalizeStep (pathTo place) =
      pathTo (segments.foldl walkStep place) := by
  induction segments generalizing place with
  | nil => rfl
  | cons segment segments ih =>
    rw [components, List.filter_cons, List.foldl_cons, walkStep]
    by_cases hstay : segment = [] ∨ segment = ['.']
    · rw [if_pos hstay, if_neg (by simpa [or_iff_not_imp_left] using hstay)]
      exact ih place
    · rw [if_neg hstay, if_pos (by simpa [not_or] using hstay), List.map_cons, List.foldl_cons,
        component]
      split_ifs with hup
      · rw [normalizeStep, pop_pathTo]
        exact ih _
      · rw [normalizeStep, join_normal, ← pathTo_concat]
        exact ih _

/-- The components of a text are those of its segments, behind the root or a leading dot. -/
theorem ofChars_eq (text : Token) : Path.ofChars text =
    if text.head? = some '/' then .rootDir :: components (segments text)
    else if (segments text).head? = some ['.'] then .curDir :: components (segments text)
    else components (segments text) := by
  have hname (segment name : Token) : String.ofList segment = String.ofList name ↔ segment = name :=
    ⟨String.ofList_injective, congrArg _⟩
  have hkeep (segment : Token) :
      ((decide (String.ofList segment ≠ "") && decide (String.ofList segment ≠ ".")) = true) ↔
        segment ≠ [] ∧ segment ≠ ['.'] := by
    rw [Bool.and_eq_true, decide_eq_true_eq, decide_eq_true_eq]
    exact and_congr (not_congr (hname segment [])) (not_congr (hname segment ['.']))
  have hcomponent (segment : Token) : (if String.ofList segment = ".." then Component.parentDir
      else .normal (.ofList segment)) = component segment :=
    if_congr (hname segment ['.', '.']) rfl rfl
  have hrest : (((segments text).map String.ofList).filter fun part ↦ part ≠ "" && part ≠ ".").map
      (fun part ↦ if part = ".." then Component.parentDir else .normal part) =
      components (segments text) := by
    rw [List.filter_map, List.map_map, components]
    refine congrArg₂ List.map (funext hcomponent) (List.filter_congr fun segment _ ↦ ?_)
    exact Bool.eq_iff_iff.mpr ((hkeep segment).trans (decide_eq_true_iff).symm)
  have hdot : (((segments text).map String.ofList).head? = some ".") =
      ((segments text).head? = some ['.']) := by
    rw [List.head?_map, Option.map_eq_some_iff, eq_iff_iff]
    constructor
    · rintro ⟨segment, hsegment, hdot⟩
      rw [hsegment, (hname segment ['.']).mp hdot]
    · exact fun hsegment ↦ ⟨['.'], hsegment, rfl⟩
  rw [Path.ofChars, Orchestrator.PathBuf.components, Orchestrator.PathBuf.isAbsolute]
  dsimp only
  rw [String.toList_ofList]
  rw [← hrest]
  exact if_congr decide_eq_true_iff rfl (if_congr (iff_of_eq hdot) rfl rfl)

/-! ## The place that a target resolves to -/

theorem lexicalNormalize_pathTo (place : Place) :
    lexicalNormalize (pathTo place) = pathTo place := by
  induction place using List.reverseRecOn with
  | nil => rfl
  | append_singleton place name ih =>
    rw [pathTo_concat, lexicalNormalize_eq, List.foldl_append, ← lexicalNormalize_eq, ih]
    exact join_normal _ _

theorem foldl_ofChars (h : text.head? ≠ some '/') (place : Place) :
    (Path.ofChars text).foldl normalizeStep (pathTo place) =
      pathTo ((segments text).foldl walkStep place) := by
  rw [ofChars_eq, if_neg h]
  split_ifs
  · exact foldl_components _ _
  · exact foldl_components _ _

theorem lexicalNormalize_ofChars (h : text.head? = some '/') :
    lexicalNormalize (.ofChars text) = pathTo (walk (segments text)) := by
  rw [ofChars_eq, if_pos h]
  exact foldl_components _ []

theorem rootDir_notMem_ofChars (h : text.head? ≠ some '/') : .rootDir ∉ Path.ofChars text := by
  have hcomponents : .rootDir ∉ components (segments text) := by
    intro hmem
    obtain ⟨segment, -, hsegment⟩ := List.mem_map.mp hmem
    rw [component] at hsegment
    split_ifs at hsegment
  rw [ofChars_eq, if_neg h]
  split_ifs
  · exact List.not_mem_cons_of_ne_of_not_mem nofun hcomponents
  · exact hcomponents

theorem lexicalAbsolute_ofChars (cwd : AbsoluteText) (target : Token) :
    lexicalAbsolute (.ofChars target) (.ofChars cwd.val) = pathTo (placeFrom cwd target) := by
  rw [lexicalAbsolute, placeFrom]
  by_cases h : target.head? = some '/'
  · rw [if_pos h, ← lexicalNormalize_ofChars h, if_pos]
    rw [ofChars_eq, if_pos h]
    rfl
  · have hrelative : (Path.ofChars target).isAbsolute = false :=
      decide_eq_false fun hroot ↦ rootDir_notMem_ofChars h (List.mem_of_head? hroot)
    rw [if_neg h, hrelative, if_neg Bool.false_ne_true, Path.join, hrelative,
      if_neg Bool.false_ne_true, lexicalNormalize_eq, List.foldl_append, ← lexicalNormalize_eq,
      lexicalNormalize_ofChars cwd.property, foldl_ofChars h, walk, walk, List.foldl_append]

end

/-! ## The test of a place -/

/-- What a target is tested against, by the texts of its paths. -/
def surroundings (cwd : AbsoluteText) (home : Option AbsoluteText)
    (workspaceRoots : List AbsoluteText) : Surroundings where
  cwd := .ofChars cwd.val
  workspaceRoots := workspaceRoots.map fun root ↦ .ofChars root.val
  home := home.map fun home ↦ .ofChars home.val

/-- The root, the directory, the one above it, home and the roots of the workspace. -/
def protectedPlaces (cwd : AbsoluteText) (home : Option AbsoluteText)
    (workspaceRoots : List AbsoluteText) : List Place :=
  [] :: cwd.place :: cwd.place.dropLast ::
    (home.toList.map AbsoluteText.place ++ workspaceRoots.map AbsoluteText.place)

section

variable {cwd : AbsoluteText} {home : Option AbsoluteText} {roots : List AbsoluteText}
  {target : Token} {place : Place}

theorem Literal.wildcardBase_eq (h : Literal target) : wildcardBase target = (target, false) := by
  obtain ⟨hstar, hmark, hbraces⟩ := h.ne_wildcard
  have hsuffix {suffix : Token} (hno : ¬ suffix <:+ target) : stripSuffix suffix target = none :=
    if_neg fun hsuffix ↦ hno (List.isSuffixOf_iff_suffix.mp hsuffix)
  rw [wildcardBase, if_neg (by rintro (h | h | h) <;> contradiction), hsuffix h.no_suffix.1,
    hsuffix h.no_suffix.2]
  rfl

theorem Literal.expandHome_eq (h : Literal target) (home : Option Path) :
    expandHome target home = .ofChars target := by
  cases home with
  | none => rfl
  | some home =>
    have hne : target ≠ ['~'] := by
      rintro rfl
      exact h.no_tilde rfl
    have hno : ¬ "~/".toList.isPrefixOf target = true := by
      intro hpref
      obtain ⟨rest, rfl⟩ := List.isPrefixOf_iff_prefix.mp hpref
      exact h.no_tilde rfl
    rw [expandHome, if_neg hne, if_neg hno]

theorem isCatastrophicTarget_iff (h : Literal target) :
    isCatastrophicTarget (surroundings cwd home roots) target = true ↔
      placeFrom cwd target ∈ protectedPlaces cwd home roots := by
  have hcwd : lexicalNormalize (.ofChars cwd.val) = pathTo cwd.place :=
    lexicalNormalize_ofChars cwd.property
  have hroot : (pathTo (placeFrom cwd target)).parent = none ↔ placeFrom cwd target = [] := by
    rw [parent_pathTo]
    split_ifs with hnil
    · exact iff_of_true rfl hnil
    · exact iff_of_false nofun hnil
  have hparent : (pathTo cwd.place).parent.map lexicalNormalize =
      some (pathTo (placeFrom cwd target)) ↔ cwd.place ≠ [] ∧
        placeFrom cwd target = cwd.place.dropLast := by
    rw [parent_pathTo]
    split_ifs with hnil
    · exact iff_of_false nofun fun h ↦ h.1 hnil
    · rw [Option.map_some, lexicalNormalize_pathTo, Option.some.injEq, pathTo_inj, eq_comm]
      exact (and_iff_right hnil).symm
  have hplaces (text : AbsoluteText) : lexicalNormalize (.ofChars text.val) =
      pathTo (placeFrom cwd target) ↔ text.place = placeFrom cwd target := by
    rw [lexicalNormalize_ofChars text.property, pathTo_inj]
    rfl
  have hhome : (home.map fun home ↦ Path.ofChars home.val).map lexicalNormalize =
      some (pathTo (placeFrom cwd target)) ↔
        placeFrom cwd target ∈ home.toList.map AbsoluteText.place := by
    rw [Option.map_map, Option.map_eq_some_iff, List.mem_map]
    simp only [Function.comp_apply, hplaces, Option.mem_toList]
  have hroots : pathTo (placeFrom cwd target) ∈
      (roots.map fun root ↦ Path.ofChars root.val).map lexicalNormalize ↔
        placeFrom cwd target ∈ roots.map AbsoluteText.place := by
    rw [List.map_map, List.mem_map, List.mem_map]
    simp only [Function.comp_apply, hplaces]
  rw [isCatastrophicTarget, h.wildcardBase_eq]
  dsimp only
  rw [h.expandHome_eq, decide_eq_true_iff]
  dsimp only [surroundings]
  rw [lexicalAbsolute_ofChars, hcwd, hroot, pathTo_inj, hparent, hhome, hroots, protectedPlaces,
    List.mem_cons, List.mem_cons, List.mem_cons, List.mem_append]
  constructor
  · rintro ((hroot | hcwd | ⟨-, hparent⟩ | hhome | hroots) | ⟨hfalse, -⟩)
    · exact .inl hroot
    · exact .inr (.inl hcwd)
    · exact .inr (.inr (.inl hparent))
    · exact .inr (.inr (.inr (.inl hhome)))
    · exact .inr (.inr (.inr (.inr hroots)))
    · cases hfalse
  · refine fun h ↦ .inl ?_
    rcases h with hroot | hcwd | hparent | hhome | hroots
    · exact .inl hroot
    · exact .inr (.inl hcwd)
    · by_cases hnil : cwd.place = []
      · rw [hnil] at hparent
        exact .inl hparent
      · exact .inr (.inr (.inl ⟨hnil, hparent⟩))
    · exact .inr (.inr (.inr (.inl hhome)))
    · exact .inr (.inr (.inr (.inr hroots)))

/-! ## The places above a place -/

/-- A name of a directory. -/
def IsName (segment : Token) : Prop :=
  segment ≠ [] ∧ segment ≠ ['.'] ∧ segment ≠ ['.', '.'] ∧ '/' ∉ segment

theorem isName_of_mem_walk (segments : List Token) (h : ∀ segment ∈ segments, '/' ∉ segment) :
    ∀ name ∈ walk segments, IsName name := by
  induction segments using List.reverseRecOn with
  | nil => exact fun _ hname ↦ absurd hname List.not_mem_nil
  | append_singleton segments segment ih =>
    obtain ⟨hsegments, hsegment⟩ := List.forall_mem_append.mp h
    have hbefore := ih hsegments
    rw [walk, List.foldl_append, ← walk, List.foldl_cons, List.foldl_nil, walkStep]
    split_ifs with hstay hup
    · exact hbefore
    · exact fun name hname ↦ hbefore name (List.dropLast_subset _ hname)
    · rw [not_or] at hstay
      refine List.forall_mem_append.mpr ⟨hbefore, List.forall_mem_singleton.mpr ?_⟩
      exact ⟨hstay.1, hstay.2, hup, hsegment _ (List.mem_singleton_self _)⟩

theorem walkStep_name {segment : Token} (h : IsName segment) (place : Place) :
    walkStep place segment = place ++ [segment] := by
  rw [walkStep, if_neg (not_or.mpr ⟨h.1, h.2.1⟩), if_neg h.2.2.1]

theorem foldl_walkStep (h : ∀ name ∈ place, IsName name) (start : Place) :
    place.foldl walkStep start = start ++ place := by
  induction place generalizing start with
  | nil => exact (List.append_nil _).symm
  | cons name place ih =>
    obtain ⟨hname, hplace⟩ := List.forall_mem_cons.mp h
    rw [List.foldl_cons, walkStep_name hname, ih hplace, List.append_assoc, List.singleton_append]

/-- A target for a place, with a slash at its end. -/
def toTarget (place : Place) : Token := '/' :: place.flatMap (· ++ ['/'])

theorem head?_toTarget (place : Place) : (toTarget place).head? = some '/' := rfl

theorem segments_toTarget (h : ∀ name ∈ place, IsName name) :
    segments (toTarget place) = [] :: (place ++ [[]]) := by
  have hnames : (place.flatMap (· ++ ['/'])).splitOn '/' = place ++ [[]] := by
    induction place with
    | nil => rfl
    | cons name place ih =>
      obtain ⟨hname, hplace⟩ := List.forall_mem_cons.mp h
      rw [List.flatMap_cons, List.append_assoc, List.singleton_append,
        List.splitOn_append_cons_self_of_not_mem hname.2.2.2, ih hplace, List.cons_append]
  have hfirst := List.splitOn_append_cons_self_of_not_mem (List.not_mem_nil (a := '/'))
    (place.flatMap (· ++ ['/']))
  rwa [hnames] at hfirst

theorem placeFrom_toTarget (h : ∀ name ∈ place, IsName name) :
    placeFrom cwd (toTarget place) = place := by
  rw [placeFrom, if_pos (head?_toTarget place), segments_toTarget h, walk, List.foldl_cons,
    List.foldl_append, walkStep, if_pos (.inl rfl), foldl_walkStep h, List.nil_append,
    List.foldl_cons, walkStep, if_pos (.inl rfl), List.foldl_nil]

theorem getLast?_toTarget (place : Place) : (toTarget place).getLast? = some '/' := by
  obtain rfl | ⟨above, name, rfl⟩ := List.eq_nil_or_concat' place
  · rfl
  · rw [toTarget, List.flatMap_append, List.flatMap_singleton, ← List.append_assoc,
      ← List.cons_append, List.getLast?_concat]

theorem literal_toTarget (place : Place) : Literal (toTarget place) := by
  have hfirst {text : Token} (h : toTarget place = text) : text.head? = some '/' :=
    h ▸ head?_toTarget place
  have hlast {text : Token} (h : text <:+ toTarget place) (hne : text ≠ []) :
      text.getLast? = some '/' := by
    rw [List.getLast?_eq_some_getLast hne, h.getLast hne, ← List.getLast?_eq_some_getLast]
    exact getLast?_toTarget place
  refine ⟨⟨fun h ↦ ?_, fun h ↦ ?_, fun h ↦ ?_⟩, ⟨fun h ↦ ?_, fun h ↦ ?_⟩, ?_⟩
  · exact absurd (hfirst h) (by decide)
  · exact absurd (hfirst h) (by decide)
  · exact absurd (hfirst h) (by decide)
  · exact absurd (hlast h (by decide)) (by decide)
  · exact absurd (hlast h (by decide)) (by decide)
  · rw [head?_toTarget]
    decide

/-- Whenever a target is told, so are those of the places above its place. -/
def UpwardClosed (self : Surroundings) (cwd : AbsoluteText) : Prop :=
  ∀ target above, Literal target → Literal above → placeFrom cwd above <+: placeFrom cwd target →
    isCatastrophicTarget self target = true → isCatastrophicTarget self above = true

theorem isName_of_mem_place (text : AbsoluteText) : ∀ name ∈ text.place, IsName name :=
  isName_of_mem_walk _ fun _ hsegment ↦ notMem_of_mem_splitOn hsegment

theorem isName_of_protected (h : place ∈ protectedPlaces cwd home roots) :
    ∀ name ∈ place, IsName name := by
  rw [protectedPlaces, List.mem_cons, List.mem_cons, List.mem_cons, List.mem_append] at h
  rcases h with rfl | rfl | rfl | hhome | hroots
  · exact fun _ hname ↦ absurd hname List.not_mem_nil
  · exact isName_of_mem_place cwd
  · exact fun name hname ↦ isName_of_mem_place cwd name (List.dropLast_subset _ hname)
  · obtain ⟨text, -, rfl⟩ := List.mem_map.mp hhome
    exact isName_of_mem_place text
  · obtain ⟨text, -, rfl⟩ := List.mem_map.mp hroots
    exact isName_of_mem_place text

theorem mem_of_prefix {places : List Place} (h : ∀ place ∈ places, place.dropLast ∈ places)
    (hplace : place ∈ places) {above : Place} (habove : above <+: place) : above ∈ places := by
  induction place using List.reverseRecOn with
  | nil => rwa [List.prefix_nil.mp habove]
  | append_singleton place name ih =>
    rcases List.prefix_concat_iff.mp habove with rfl | hbelow
    · exact hplace
    · have hparent := h _ hplace
      rw [List.dropLast_concat] at hparent
      exact ih hparent hbelow

theorem upwardClosed_iff : UpwardClosed (surroundings cwd home roots) cwd ↔
    ∀ place ∈ protectedPlaces cwd home roots, place.dropLast ∈ protectedPlaces cwd home roots := by
  constructor
  · intro h place hplace
    have hnames := isName_of_protected hplace
    have habove : ∀ name ∈ place.dropLast, IsName name :=
      fun name hname ↦ hnames name (List.dropLast_subset _ hname)
    have hclosed := h (toTarget place) (toTarget place.dropLast) (literal_toTarget _)
      (literal_toTarget _)
    rw [placeFrom_toTarget hnames, placeFrom_toTarget habove,
      isCatastrophicTarget_iff (literal_toTarget _), isCatastrophicTarget_iff (literal_toTarget _),
      placeFrom_toTarget hnames, placeFrom_toTarget habove] at hclosed
    exact hclosed (List.dropLast_prefix _) hplace
  · intro h target above htarget habove hpref hcatastrophic
    rw [isCatastrophicTarget_iff htarget] at hcatastrophic
    rw [isCatastrophicTarget_iff habove]
    exact mem_of_prefix h hcatastrophic hpref

end

/-- Whether a literal target is told depends on its place only, and the places that are told are the
protected ones. So all places above one that is told are told as well just if each protected place
has its parent among them. -/
theorem literalTargets_byPlace (cwd : AbsoluteText) (home : Option AbsoluteText)
    (roots : List AbsoluteText) :
    let self := surroundings cwd home roots
    (∀ target target', Literal target → Literal target' →
      placeFrom cwd target = placeFrom cwd target' →
        isCatastrophicTarget self target = isCatastrophicTarget self target') ∧
    (∀ path : AbsoluteText, lexicalNormalize (.ofChars path.val) = pathTo path.place ∧
      lexicalNormalize (lexicalNormalize (.ofChars path.val)) =
        lexicalNormalize (.ofChars path.val) ∧
      ∀ name ∈ path.place, IsName name) ∧
    (∀ target, Literal target → (isCatastrophicTarget self target = true ↔
      placeFrom cwd target ∈ protectedPlaces cwd home roots)) ∧
    (UpwardClosed self cwd ↔ ∀ place ∈ protectedPlaces cwd home roots,
      place.dropLast ∈ protectedPlaces cwd home roots) := by
  refine ⟨fun target target' h h' heq ↦ ?_, fun path ↦ ?_, fun _ ↦ isCatastrophicTarget_iff,
    upwardClosed_iff⟩
  · rw [Bool.eq_iff_iff, isCatastrophicTarget_iff h, isCatastrophicTarget_iff h', heq]
  · rw [lexicalNormalize_ofChars path.property]
    exact ⟨rfl, lexicalNormalize_pathTo _, isName_of_mem_place path⟩

/-- The directory above the one above the working directory is not told. -/
theorem upwardClosed_grandparent :
    let cwd : AbsoluteText := ⟨"/a/b/c".toList, rfl⟩
    let self := surroundings cwd none []
    isCatastrophicTarget self "/a/b".toList = true ∧
      isCatastrophicTarget self "/a".toList = false ∧ ¬ UpwardClosed self cwd := by
  intro cwd self
  have hliteral {target : Token} (h : target.all (['/', 'a', 'b'].contains ·) = true) :
      Literal target := by
    rw [List.all_eq_true] at h
    refine .of_notMem (fun hstar ↦ ?_) (fun hmark ↦ ?_) fun htilde ↦ ?_
    · exact absurd (h _ hstar) (by decide)
    · exact absurd (h _ hmark) (by decide)
    · exact absurd (h _ (List.mem_of_head? htilde)) (by decide)
  have hparent : isCatastrophicTarget self "/a/b".toList = true :=
    (isCatastrophicTarget_iff (hliteral (by decide))).mpr (by decide)
  have habove : isCatastrophicTarget self "/a".toList ≠ true := by
    rw [Ne, isCatastrophicTarget_iff (hliteral (by decide))]
    decide
  refine ⟨hparent, Bool.eq_false_iff.mpr habove, fun h ↦ habove ?_⟩
  exact h _ _ (hliteral (by decide)) (hliteral (by decide)) (by decide) hparent

end EeEditor.Safeguards
