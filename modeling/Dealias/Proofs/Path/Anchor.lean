import Dealias.Cache
import Dealias.Options
import Dealias.Proofs.Path.Way
import Dealias.Proofs.Sharing

/-!
# Anchored paths

A run anchors its directories one at another: the output directory at the project directory, and the
base of the alias targets at the output directory.  Every anchor is a normal form, and normalizing
in between changes nothing, so the chain is one normalization of the joined paths.

* `Path.anchor_canonical`: anchoring twice is anchoring once, what is anchored is spelled plainly,
  and its components tell its text.
* `Path.normalize_eq_self_iff`: the paths that normalizing leaves alone are those that are spelled
  plainly.

## Strategy

Normalizing reads components onto a stack.  A normal form is read back to the stack that it was made
from (`Location.foldl_absorb_normalize`), so whatever is read behind it finds the same stack
(`Path.normalize_join_normalize`).  For the texts, the segments of a spelled place are the texts of
its steps (`segments_ofLocation`), and segments determine a text (`segments_injective`).
-/

namespace Dealias

/-! ## Normalizing in between -/

/-- Reading a normal form is reading what it was made from. -/
theorem Location.foldl_absorb_normalize {place : Location} (hplace : Path.Names place) :
    place.normalize.foldl absorb [] = place.foldl absorb [] := by
  have hstack : (place.normalize.foldl absorb []).reverse = (place.foldl absorb []).reverse :=
    normalize_normalize hplace
  exact List.reverse_injective hstack

/-- Reading a normalized path is reading the path. -/
theorem Path.foldl_absorb_normalize (path : Path) :
    path.normalize.location.foldl Location.absorb [] =
      path.location.foldl Location.absorb [] := by
  have hread := Location.foldl_absorb_normalize ⟨path, rfl⟩
  rw [location_normalize]
  split
  · rename_i hempty
    -- the dot that is written for nothing at all is read without effect
    rw [← hread, hempty]
    rfl
  · exact hread

/-- A base may be normalized before a relative path is joined to it. -/
theorem Path.normalize_join_normalize (base : Path) {path : Path}
    (hrelative : path.isAbsolute = false) :
    (base.normalize.join path).normalize = (base.join path).normalize := by
  have hroot : .root ∉ path.location := isAbsolute_eq_false_iff.mp hrelative
  rw [normalize_eq_normalize_iff, location_join, location_join, Location.normalize,
    Location.normalize, Location.foldl_absorb_join _ hroot, Location.foldl_absorb_join _ hroot,
    List.foldl_append, List.foldl_append, foldl_absorb_normalize]

theorem Path.isAbsolute_join_of_relative (base : Path) {path : Path}
    (hrelative : path.isAbsolute = false) : (base.join path).isAbsolute = base.isAbsolute := by
  by_cases hbase : base.location = []
  · have htext : base.text.toList = [] := location_eq_nil_iff.mp hbase
    have hjoin : base.join path = path := by
      simp [join, hrelative, String.toList_eq_nil_iff.mp htext]
    rw [hjoin, hrelative, isAbsolute, htext]
    rfl
  · symm
    refine isAbsolute_of_prefix hbase ?_
    obtain ⟨front, hlocation, hfront⟩ := location_of_not_isAbsolute hrelative
    have hsteps : ∀ step ∈ stepsOf (segments path.text.toList), step.IsStep :=
      fun _ hstep => isStep_of_mem_stepsOf hstep
    rw [location_join, hlocation]
    rcases hfront with rfl | rfl
    · rw [List.nil_append, Location.join_steps _ hsteps]
      exact List.prefix_append ..
    · rw [List.singleton_append, Location.join_current, if_neg hbase]
      exact List.prefix_append ..

/-- Components are joined in any order. -/
theorem Location.join_assoc (first second third : Location) :
    join (join first second) third = join first (join second third) := by
  cases third with
  | nil => cases second with
    | nil => simp [join]
    | cons component rest => cases component <;> simp [join]
  | cons component rest =>
      cases component <;> cases second with
      | nil => cases first <;> simp [join]
      | cons component' rest' => cases component' <;> cases first <;> simp [join]

/-- **Anchoring twice.**  A path that is seen from an anchored directory is the joined path seen
from where the directory is anchored. -/
theorem Path.anchor_anchor (path middle base : Path) :
    path.anchor (middle.anchor base) = (middle.join path).anchor base := by
  cases hpath : path.isAbsolute with
  | true =>
      have hjoin : middle.join path = path := by simp [join, hpath]
      rw [hjoin, anchor, if_pos hpath, anchor, if_pos hpath]
  | false =>
      rw [anchor, anchor, anchor, hpath, isAbsolute_join_of_relative middle hpath]
      simp only [Bool.false_eq_true, if_false]
      split
      · exact normalize_join_normalize middle hpath
      · rw [normalize_join_normalize _ hpath, normalize_eq_normalize_iff]
        simp only [location_join, Location.join_assoc]

/-! ## Plain spellings -/

/-- Whether a segment names something other than the directory itself or the one above it. -/
def IsNameSegment (segment : List Char) : Prop :=
  segment ≠ [] ∧ segment ≠ ['.'] ∧ segment ≠ ['.', '.']

/-- A plain spelling: a dot alone, or the root alone; or names behind the root; or climbs, if any,
and then names.  No segment is empty, and none is a dot. -/
inductive Path.IsPlainlySpelled (path : Path) : Prop
  | dot (htext : path.text = ".")
  | root (htext : path.text = "/")
  | absolute (names : List (List Char)) (hsome : names ≠ [])
      (hsegments : segments path.text.toList = [] :: names)
      (hnames : ∀ name ∈ names, IsNameSegment name)
  | relative (climbs : Nat) (names : List (List Char))
      (hsegments : segments path.text.toList = List.replicate climbs ['.', '.'] ++ names)
      (hnames : ∀ name ∈ names, IsNameSegment name)

/-- The segments with slashes between them are the text. -/
theorem intercalate_segments (text : List Char) : ['/'].intercalate (segments text) = text := by
  induction text with
  | nil => rfl
  | cons character rest ih =>
      obtain ⟨segment, others, hrest⟩ := List.exists_cons_of_ne_nil (segments_ne_nil rest)
      rw [hrest] at ih
      by_cases hslash : character = '/'
      · subst hslash
        rw [segments_slash, hrest, List.intercalate_cons_cons, ih]
        rfl
      · rw [segments_cons hslash hrest]
        cases others with
        | nil =>
            rw [List.intercalate_singleton] at ih ⊢
            rw [ih]
        | cons next others =>
            rw [List.intercalate_cons_cons] at ih ⊢
            rw [← ih]
            rfl

/-- The segments of a text determine it. -/
theorem segments_injective : Function.Injective segments :=
  Function.LeftInverse.injective intercalate_segments

/-- Whether something can be joined to a text with a slash between. -/
def Path.EndsOpen (path : Path) : Prop :=
  path.text.toList ≠ [] ∧ path.text.toList.getLast? ≠ some '/'

theorem Component.IsStep.text_ne_nil {step : Component} (hstep : step.IsStep) :
    step.text.toList ≠ [] := by
  intro hempty
  have hsome := hstep.2
  rw [hempty] at hsome
  cases hsome

theorem Component.IsStep.getLast?_ne {step : Component} (hstep : step.IsStep) :
    step.text.toList.getLast? ≠ some '/' :=
  fun hlast => hstep.1 (List.mem_of_getLast? hlast)

theorem Component.IsStep.isAbsolute_eq_false {step : Component} (hstep : step.IsStep) :
    (Path.mk step.text).isAbsolute = false := by
  rw [Path.isAbsolute_eq_false_iff, Path.location_mk_text hstep, List.mem_singleton]
  exact hstep.ne_root.symm

theorem Path.segments_foldl_join {steps : Location} (hsteps : ∀ step ∈ steps, step.IsStep)
    {path : Path} (hpath : path.EndsOpen) :
    segments (steps.foldl (fun path component => path.join ⟨component.text⟩) path).text.toList =
      segments path.text.toList ++ steps.map fun step => step.text.toList := by
  induction steps generalizing path with
  | nil => simp
  | cons step others ih =>
      obtain ⟨hstep, hothers⟩ := List.forall_mem_cons.mp hsteps
      have htext : (path.join ⟨step.text⟩).text.toList =
          path.text.toList ++ '/' :: step.text.toList := by
        rw [join, hstep.isAbsolute_eq_false, if_neg Bool.false_ne_true,
          if_neg (not_or.mpr hpath)]
        simp
      have hopen : (path.join ⟨step.text⟩).EndsOpen := by
        rw [EndsOpen, htext]
        refine ⟨by simp, ?_⟩
        rw [List.getLast?_append_of_ne_nil _ (by simp),
          List.getLast?_cons_of_ne_nil hstep.text_ne_nil]
        exact hstep.getLast?_ne
      rw [List.foldl_cons, ih hothers hopen, htext, segments_append_slash,
        segments_of_notMem hstep.1, List.append_assoc]
      rfl

/-- The segments of spelled steps are their texts. -/
theorem Path.segments_ofLocation {steps : Location} (hsteps : ∀ step ∈ steps, step.IsStep)
    (hsome : steps ≠ []) :
    segments (ofLocation steps).text.toList = steps.map (fun step => step.text.toList) ∧
      segments (ofLocation (.root :: steps)).text.toList =
        [] :: steps.map fun step => step.text.toList := by
  obtain ⟨step, others, rfl⟩ := List.exists_cons_of_ne_nil hsome
  obtain ⟨hstep, hothers⟩ := List.forall_mem_cons.mp hsteps
  have hrelative := hstep.isAbsolute_eq_false
  have hfirst : (Path.mk "").join ⟨step.text⟩ = ⟨step.text⟩ := by
    simp [join, hrelative]
  have hbehind : ((Path.mk "").join ⟨"/"⟩).join ⟨step.text⟩ = ⟨"/" ++ step.text⟩ := by
    simp [join, hrelative]
  constructor
  · have hopen : (Path.mk step.text).EndsOpen := ⟨hstep.text_ne_nil, hstep.getLast?_ne⟩
    have hsegments : segments step.text.toList = [step.text.toList] := segments_of_notMem hstep.1
    rw [ofLocation, List.foldl_cons, hfirst, segments_foldl_join hothers hopen, hsegments]
    rfl
  · have hopen : (Path.mk ("/" ++ step.text)).EndsOpen := by
      refine ⟨by simp, ?_⟩
      rw [String.toList_append, List.getLast?_append_of_ne_nil _ hstep.text_ne_nil]
      exact hstep.getLast?_ne
    have hsegments : segments ("/" ++ step.text).toList = [[], step.text.toList] := by
      rw [String.toList_append, ← segments_of_notMem hstep.1]
      exact segments_slash _
    rw [ofLocation, List.foldl_cons, List.foldl_cons]
    change segments (others.foldl _ (((Path.mk "").join ⟨"/"⟩).join ⟨step.text⟩)).text.toList = _
    rw [hbehind, segments_foldl_join hothers hopen, hsegments]
    rfl

theorem Component.IsName.isNameSegment {name : Component} (hname : name.IsName) :
    IsNameSegment name.text.toList := by
  obtain ⟨text, rfl⟩ := hname.exists_text
  refine ⟨hname.1.text_ne_nil, fun hdot => ?_, fun hparent => ?_⟩
  · have hsome := hname.1.2
    rw [hdot] at hsome
    cases hsome
  · have hsome := hname.1.2
    rw [hparent] at hsome
    cases hsome

theorem isStep_of_mem_climbs {climbs : Nat} {names : Location}
    (hnames : ∀ name ∈ names, name.IsName) :
    ∀ step ∈ List.replicate climbs .parent ++ names, step.IsStep := by
  refine List.forall_mem_append.mpr ⟨fun step hstep => ?_, fun name hname => (hnames name hname).1⟩
  rw [List.eq_of_mem_replicate hstep]
  exact Component.isStep_parent

/-- Normal forms are spelled plainly. -/
theorem Path.isPlainlySpelled_normalize (path : Path) : path.normalize.IsPlainlySpelled := by
  by_cases hempty : path.location.normalize = []
  · refine .dot ?_
    rw [normalize, hempty]
  · rw [normalize_of_ne_nil hempty]
    obtain ⟨front, steps, hlocation, hfront, hsteps⟩ := path.location_eq
    have hrelative : path.location.normalize = Location.normalize steps →
        (ofLocation path.location.normalize).IsPlainlySpelled := by
      intro hnormal
      obtain ⟨climbs, names, hplace, hnames⟩ := Location.normalize_relative hsteps
      rw [hnormal, hplace] at hempty ⊢
      refine .relative climbs (names.map fun name => name.text.toList) ?_ ?_
      · rw [(segments_ofLocation (isStep_of_mem_climbs hnames) hempty).1, List.map_append,
          List.map_replicate]
        rfl
      · exact List.forall_mem_map.mpr fun name hname => (hnames name hname).isNameSegment
    rcases hfront with rfl | rfl | rfl
    · exact hrelative (by rw [hlocation, List.nil_append])
    · obtain ⟨names, hplace, hnames⟩ := Location.normalize_absolute hsteps
      rw [hlocation, List.singleton_append, hplace]
      by_cases hsome : names = []
      · subst hsome
        exact .root rfl
      · exact .absolute (names.map fun name => name.text.toList) (by simpa using hsome)
          (segments_ofLocation (fun name hname => (hnames name hname).1) hsome).2
          (List.forall_mem_map.mpr fun name hname => (hnames name hname).isNameSegment)
    · exact hrelative (by rw [hlocation]; rfl)

/-! ## What normalizing leaves alone -/

/-- The names that segments spell. -/
def namesOf (names : List (List Char)) : Location :=
  names.map fun name => .name (String.ofList name)

theorem IsNameSegment.ofSegment? {segment : List Char} (hsegment : IsNameSegment segment) :
    Component.ofSegment? segment = some (.name (String.ofList segment)) := by
  obtain ⟨hempty, hdot, hparent⟩ := hsegment
  unfold Component.ofSegment?
  split <;> simp_all

theorem stepsOf_names {names : List (List Char)} (hnames : ∀ name ∈ names, IsNameSegment name) :
    stepsOf names = namesOf names := by
  induction names with
  | nil => rfl
  | cons name others ih =>
      obtain ⟨hname, hothers⟩ := List.forall_mem_cons.mp hnames
      rw [stepsOf, List.filterMap_cons_some hname.ofSegment?]
      exact congrArg _ (ih hothers)

/-- Segments that a text has and that are names spell names. -/
theorem isName_of_mem_namesOf {text : List Char} {names : List (List Char)}
    (hnames : ∀ name ∈ names, IsNameSegment name) (hsegments : ∀ name ∈ names, name ∈ segments text)
    {component : Component} (hcomponent : component ∈ namesOf names) : component.IsName := by
  obtain ⟨name, hname, rfl⟩ := List.mem_map.mp hcomponent
  have hslash := notMem_of_mem_segments (hsegments name hname)
  exact ⟨isStep_of_ofSegment? hslash (hnames name hname).ofSegment?, nofun⟩

/-- Nothing stands in front of climbs and names. -/
theorem leading_climbs (climbs : Nat) {names : List (List Char)}
    (hnames : ∀ name ∈ names, IsNameSegment name) :
    leading (List.replicate climbs ['.', '.'] ++ names) = [] := by
  cases climbs with
  | succ climbs => rfl
  | zero =>
      cases names with
      | nil => rfl
      | cons name others =>
          obtain ⟨hempty, hdot, -⟩ := hnames name (List.mem_cons_self ..)
          rw [List.replicate_zero, List.nil_append]
          unfold leading
          split <;> simp_all

theorem map_text_namesOf (names : List (List Char)) :
    (namesOf names).map (fun name => name.text.toList) = names := by
  simp [namesOf, Component.text, Function.comp_def]

theorem Path.ext_segments {first second : Path}
    (hsame : segments first.text.toList = segments second.text.toList) : first = second := by
  have htext : first.text = second.text := String.toList_injective (segments_injective hsame)
  cases first
  cases second
  exact congrArg Path.mk htext

/-- What is spelled plainly is a normal form. -/
theorem Path.IsPlainlySpelled.normalize_eq {path : Path} (hpath : path.IsPlainlySpelled) :
    path.normalize = path := by
  cases hpath with
  | dot htext =>
      obtain ⟨text⟩ := path
      subst htext
      decide
  | root htext =>
      obtain ⟨text⟩ := path
      subst htext
      decide
  | absolute names hsome hsegments hnames =>
      have hspelled : ∀ component ∈ namesOf names, component.IsName :=
        fun _ => isName_of_mem_namesOf hnames fun name hname => by
          rw [hsegments]
          exact List.mem_cons_of_mem _ hname
      have hlocation : path.location = [.root] ++ namesOf names := by
        obtain ⟨first, others, rfl⟩ := List.exists_cons_of_ne_nil hsome
        rw [location, locationOf_eq, hsegments, stepsOf_empty_cons, stepsOf_names hnames]
        rfl
      have hnormal : path.location.normalize = .root :: namesOf names := by
        rw [hlocation, Location.normalize_append_names _ hspelled]
        rfl
      have hplace : namesOf names ≠ [] := by simpa [namesOf] using hsome
      have hspelling := segments_ofLocation (fun name hname => (hspelled name hname).1) hplace
      rw [normalize_of_ne_nil (by simp [hnormal]), hnormal]
      refine ext_segments ?_
      rw [hspelling.2, map_text_namesOf, hsegments]
  | relative climbs names hsegments hnames =>
      have hspelled : ∀ component ∈ namesOf names, component.IsName :=
        fun _ => isName_of_mem_namesOf hnames fun name hname => by
          rw [hsegments]
          exact List.mem_append_right _ hname
      have hlocation : path.location = List.replicate climbs .parent ++ namesOf names := by
        have hclimbs : stepsOf (List.replicate climbs ['.', '.']) =
            List.replicate climbs .parent :=
          List.filterMap_replicate_of_some rfl
        rw [location, locationOf_eq, hsegments, leading_climbs climbs hnames, stepsOf_append,
          stepsOf_names hnames, hclimbs, List.nil_append]
      have hnormal : path.location.normalize = List.replicate climbs .parent ++ namesOf names := by
        rw [hlocation, Location.normalize_append_names _ hspelled, Location.normalize_replicate]
      have hplace : List.replicate climbs .parent ++ namesOf names ≠ [] := by
        have hsome := segments_ne_nil path.text.toList
        rw [hsegments] at hsome
        simpa [namesOf] using hsome
      rw [normalize_of_ne_nil (hnormal ▸ hplace), hnormal]
      refine ext_segments ?_
      rw [(segments_ofLocation (isStep_of_mem_climbs hspelled) hplace).1, List.map_append,
        map_text_namesOf, List.map_replicate, hsegments]
      rfl

/-- **Normal forms.**  Normalizing leaves a path alone exactly when it is spelled plainly. -/
theorem Path.normalize_eq_self_iff {path : Path} :
    path.normalize = path ↔ path.IsPlainlySpelled :=
  ⟨fun hnormal => hnormal ▸ path.isPlainlySpelled_normalize, fun hpath => hpath.normalize_eq⟩

/-! ## Chains of directories and keys -/

/-- The output directory need not be anchored before the targets of the aliases are. -/
theorem RunOptions.aliases_configure (options : RunOptions) :
    options.configure.map RunConfig.aliases =
      AliasTable.build options.paths options.projectDir
        (options.outDir.join (options.baseUrl.getD ⟨"."⟩)) := by
  have hbuild : AliasTable.build options.paths (options.outDir.anchor options.projectDir)
      (options.baseUrl.getD ⟨"."⟩) = AliasTable.build options.paths options.projectDir
        (options.outDir.join (options.baseUrl.getD ⟨"."⟩)) := by
    rw [AliasTable.build, AliasTable.build, Path.anchor_anchor]
  rw [configure, ← hbuild]
  cases AliasTable.build options.paths (options.outDir.anchor options.projectDir)
    (options.baseUrl.getD ⟨"."⟩) <;> rfl

/-- What is stored for a normal path is found for that path and for no other one. -/
theorem Cache.lookupProbe_storeProbe {candidate other : Path} (hcandidate : candidate.IsNormal)
    (hother : other.IsNormal) (cache : Cache) (found : Option Path) :
    ((cache.storeProbe candidate found).lookupProbe other).1 =
      if candidate = other then some found else (cache.lookupProbe other).1 := by
  rw [lookupProbe, storeProbe, lookupProbe, List.lookup_cons]
  by_cases hsame : candidate = other
  · subst hsame
    simp
  · have hlocation : other.location ≠ candidate.location :=
      fun hlocation => hsame (hother.ext hcandidate hlocation).symm
    rw [if_neg hsame, beq_false_of_ne hlocation]

/-- **Anchors are canonical.**  Anchoring at an anchored directory is one anchoring of the joined
paths; so the aliases of a run are those of the base joined to the output directory, seen from the
project directory.  An anchored path is left alone by normalizing and is spelled plainly; two of
them have the same components exactly when they have the same text, and so two candidates share
what the cache holds exactly when they are the same path. -/
theorem Path.anchor_canonical (path middle base : Path) :
    path.anchor (middle.anchor base) = (middle.join path).anchor base ∧
      (∀ options : RunOptions, options.configure.map RunConfig.aliases =
        AliasTable.build options.paths options.projectDir
          (options.outDir.join (options.baseUrl.getD ⟨"."⟩))) ∧
      (path.anchor base).normalize = path.anchor base ∧
      (path.anchor base).IsPlainlySpelled ∧
      (∀ other otherBase : Path,
        (path.anchor base).location = (other.anchor otherBase).location ↔
          (path.anchor base).text = (other.anchor otherBase).text) ∧
      ∀ (target other : AliasTarget) (remainder otherRemainder : String) (cache : Cache)
        (found : Option Path),
        ((cache.storeProbe (target.candidate remainder) found).lookupProbe
            (other.candidate otherRemainder)).1 =
          if target.candidate remainder = other.candidate otherRemainder then some found
          else (cache.lookupProbe (other.candidate otherRemainder)).1 := by
  have hnormal : ∀ path base : Path, (path.anchor base).IsNormal := Path.isNormal_anchor
  refine ⟨anchor_anchor path middle base, RunOptions.aliases_configure,
    (hnormal path base).normalize_eq, ?_,
    fun other otherBase => ⟨fun hlocation => ?_, fun htext => ?_⟩,
    fun target other remainder otherRemainder cache found => ?_⟩
  · exact normalize_eq_self_iff.mp (hnormal path base).normalize_eq
  · rw [(hnormal path base).ext (hnormal other otherBase) hlocation]
  · rw [location, location, htext]
  · exact Cache.lookupProbe_storeProbe ⟨_, rfl⟩ ⟨_, rfl⟩ cache found

example : (⟨"lib/./x"⟩ : Path).anchor ((⟨"../dist/"⟩ : Path).anchor ⟨"/p/q"⟩) =
    ⟨"/p/dist/lib/x"⟩ := by
  decide +kernel

end Dealias
