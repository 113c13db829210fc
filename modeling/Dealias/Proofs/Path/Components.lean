import Dealias.Path.Basic
import Mathlib.Data.List.Basic

/-!
# Components of joined and spelled paths

Paths are texts, and what is said about them is said about their components.  This file settles how
the two go together.

* `Path.location_join`: the components of a joined path are the joined components, whatever slashes
  the two texts begin or end with.
* `Path.location_ofLocation`: spelling the components of a path and reading them again gives the
  same components, so a place that a path names has a plainest spelling.

Both rest on `locationOf_eq`: a text names at most one component in front (`leading`), then the
steps of its segments.
-/

namespace Dealias

instance : LawfulBEq Location :=
  inferInstanceAs (LawfulBEq (List Component))

/-! ## Segments -/

theorem segments_ne_nil (text : List Char) : segments text ≠ [] := by
  cases text with
  | nil => simp [segments]
  | cons character rest =>
      rw [segments]
      split
      · simp
      · split <;> simp

theorem segments_cons {character : Char} (hslash : character ≠ '/') {rest segment : List Char}
    {others : List (List Char)} (hrest : segments rest = segment :: others) :
    segments (character :: rest) = (character :: segment) :: others := by
  rw [segments, if_neg hslash, hrest]

@[simp] theorem segments_slash (rest : List Char) :
    segments ('/' :: rest) = [] :: segments rest := by
  simp [segments]

theorem segments_of_notMem {text : List Char} (hslash : '/' ∉ text) : segments text = [text] := by
  induction text with
  | nil => rfl
  | cons character rest ih =>
      simp only [List.mem_cons, not_or] at hslash
      exact segments_cons (Ne.symm hslash.1) (ih hslash.2)

/-- A slash between two texts separates their segments. -/
theorem segments_append_slash (front back : List Char) :
    segments (front ++ '/' :: back) = segments front ++ segments back := by
  induction front with
  | nil => simp [segments]
  | cons character rest ih =>
      by_cases hslash : character = '/'
      · subst hslash
        simp [ih]
      · obtain ⟨segment, others, hrest⟩ := List.exists_cons_of_ne_nil (segments_ne_nil rest)
        have hback : segments (rest ++ '/' :: back) = segment :: (others ++ segments back) := by
          rw [ih, hrest, List.cons_append]
        rw [segments_cons hslash hrest, List.cons_append, segments_cons hslash hback,
          List.cons_append]

theorem notMem_of_mem_segments {text segment : List Char} (hsegment : segment ∈ segments text) :
    '/' ∉ segment := by
  induction text generalizing segment with
  | nil => simp_all [segments]
  | cons character rest ih =>
      by_cases hslash : character = '/'
      · subst hslash
        rw [segments_slash, List.mem_cons] at hsegment
        rcases hsegment with rfl | hsegment
        · simp
        · exact ih hsegment
      · obtain ⟨first, others, hrest⟩ := List.exists_cons_of_ne_nil (segments_ne_nil rest)
        rw [segments_cons hslash hrest, List.mem_cons] at hsegment
        rcases hsegment with rfl | hsegment
        · have hfirst : '/' ∉ first := ih (by simp [hrest])
          simp [hfirst, Ne.symm hslash]
        · exact ih (by simp [hrest, hsegment])

/-! ## Steps -/

/-- Whether a component can stand anywhere in a path, and not only at its front: it is what its own
text names as a segment. -/
def Component.IsStep (component : Component) : Prop :=
  '/' ∉ component.text.toList ∧ Component.ofSegment? component.text.toList = some component

theorem Component.isStep_parent : Component.parent.IsStep := by
  constructor
  · decide
  · rfl

theorem Component.IsStep.ne_root {component : Component} (hstep : component.IsStep) :
    component ≠ .root := by
  rintro rfl
  exact hstep.1 (by decide)

theorem Component.IsStep.ne_current {component : Component} (hstep : component.IsStep) :
    component ≠ .current := by
  rintro rfl
  exact absurd hstep.2 (by simp [Component.text, Component.ofSegment?])

/-- The text of a component that a segment names is the segment. -/
theorem text_of_ofSegment? {segment : List Char} {component : Component}
    (hsome : Component.ofSegment? segment = some component) : component.text.toList = segment := by
  unfold Component.ofSegment? at hsome
  split at hsome
  · simp at hsome
  · simp at hsome
  · obtain rfl := Option.some.inj hsome
    rfl
  · obtain rfl := Option.some.inj hsome
    simp [Component.text]

theorem isStep_of_ofSegment? {segment : List Char} {component : Component}
    (hslash : '/' ∉ segment) (hsome : Component.ofSegment? segment = some component) :
    component.IsStep := by
  have htext := text_of_ofSegment? hsome
  exact ⟨htext ▸ hslash, htext ▸ hsome⟩

/-- The steps that segments name. -/
def stepsOf (parts : List (List Char)) : Location :=
  parts.filterMap Component.ofSegment?

@[simp] theorem stepsOf_nil : stepsOf [] = [] := rfl

@[simp] theorem stepsOf_empty_cons (parts : List (List Char)) :
    stepsOf ([] :: parts) = stepsOf parts := rfl

theorem stepsOf_append (front back : List (List Char)) :
    stepsOf (front ++ back) = stepsOf front ++ stepsOf back :=
  List.filterMap_append

theorem isStep_of_mem_stepsOf {text : List Char} {component : Component}
    (hmem : component ∈ stepsOf (segments text)) : component.IsStep := by
  obtain ⟨segment, hsegment, hsome⟩ := List.mem_filterMap.mp hmem
  exact isStep_of_ofSegment? (notMem_of_mem_segments hsegment) hsome

/-! ## The component in front -/

/-- The component that only the front of a path can have: the root, or a `.`. -/
def leading : List (List Char) → Location
  | [] :: _ :: _ => [.root]
  | ['.'] :: _ => [.current]
  | _ => []

/-- A text names a component in front, if any, and then the steps of its segments. -/
theorem locationOf_eq (text : List Char) :
    locationOf text = leading (segments text) ++ stepsOf (segments text) := by
  unfold locationOf
  split <;> rename_i heq
  · simp [heq, leading]
    rfl
  · simp [heq, leading]
    rfl
  · unfold leading
    split <;> simp_all [stepsOf]

theorem leading_cases (parts : List (List Char)) :
    leading parts = [] ∨ leading parts = [.root] ∨ leading parts = [.current] := by
  unfold leading
  split <;> simp

/-- What stands in front does not depend on the segments after a first text. -/
theorem leading_segments_append {front : List Char} (hfront : front ≠ [])
    (parts : List (List Char)) :
    leading (segments front ++ parts) = leading (segments front) := by
  cases front with
  | nil => exact absurd rfl hfront
  | cons character rest =>
      by_cases hslash : character = '/'
      · subst hslash
        obtain ⟨first, others, hrest⟩ := List.exists_cons_of_ne_nil (segments_ne_nil rest)
        simp [hrest, leading]
      · obtain ⟨first, others, hrest⟩ := List.exists_cons_of_ne_nil (segments_ne_nil rest)
        rw [segments_cons hslash hrest]
        by_cases hdot : character = '.' <;> cases first <;> simp [leading, hdot]

/-- A text that is not empty names something. -/
theorem locationOf_ne_nil {text : List Char} (htext : text ≠ []) : locationOf text ≠ [] := by
  rw [locationOf_eq]
  cases text with
  | nil => exact absurd rfl htext
  | cons character rest =>
      obtain ⟨first, others, hrest⟩ := List.exists_cons_of_ne_nil (segments_ne_nil rest)
      by_cases hslash : character = '/'
      · subst hslash
        simp [hrest, leading]
      · rw [segments_cons hslash hrest]
        by_cases hdot : character :: first = ['.']
        · simp [hdot, leading]
        · have hstep : Component.ofSegment? (character :: first) ≠ none := by
            unfold Component.ofSegment?
            split <;> simp_all
          obtain ⟨component, hcomponent⟩ := Option.ne_none_iff_exists'.mp hstep
          simp [stepsOf, hcomponent]

/-! ## Places that paths name -/

/-- The component in front and the steps of a named place. -/
theorem Path.location_eq (path : Path) :
    ∃ front steps, path.location = front ++ steps ∧
      (front = [] ∨ front = [.root] ∨ front = [.current]) ∧ ∀ step ∈ steps, step.IsStep :=
  ⟨leading (segments path.text.toList), stepsOf (segments path.text.toList), locationOf_eq _,
    leading_cases _, fun _ hstep => isStep_of_mem_stepsOf hstep⟩

theorem Path.location_eq_nil_iff {path : Path} : path.location = [] ↔ path.text.toList = [] := by
  refine ⟨fun hlocation => ?_, fun htext => ?_⟩
  · by_contra htext
    exact locationOf_ne_nil htext hlocation
  · rw [Path.location, htext]
    rfl

/-- A path is absolute when the root stands in front of its components. -/
theorem Path.isAbsolute_iff {path : Path} :
    path.isAbsolute = true ↔ ∃ steps, path.location = .root :: steps := by
  unfold Path.isAbsolute Path.location
  rw [locationOf_eq]
  cases htext : path.text.toList with
  | nil => simp [segments, leading]
  | cons character rest =>
      obtain ⟨first, others, hrest⟩ := List.exists_cons_of_ne_nil (segments_ne_nil rest)
      by_cases hslash : character = '/'
      · subst hslash
        simp [hrest, leading]
      · have hsteps := fun component (hmem : component ∈ stepsOf (segments (character :: rest))) =>
          (isStep_of_mem_stepsOf hmem).ne_root
        rw [segments_cons hslash hrest] at hsteps ⊢
        by_cases hdot : character = '.' <;> cases first <;> simp [leading, hdot, hslash] <;>
          grind

theorem Path.isAbsolute_congr {first second : Path} (hsame : first.location = second.location) :
    first.isAbsolute = second.isAbsolute := by
  rw [Bool.eq_iff_iff, isAbsolute_iff, isAbsolute_iff, hsame]

/-- A path that is not absolute has no root among its components. -/
theorem Path.isAbsolute_eq_false_iff {path : Path} :
    path.isAbsolute = false ↔ .root ∉ path.location := by
  rw [← Bool.not_eq_true, Path.isAbsolute_iff, not_iff_not]
  refine ⟨fun ⟨steps, hlocation⟩ => hlocation ▸ List.mem_cons_self .., fun hroot => ?_⟩
  obtain ⟨front, steps, hlocation, hfront, hsteps⟩ := path.location_eq
  rw [hlocation] at hroot ⊢
  have hfrontRoot : .root ∈ front :=
    (List.mem_append.mp hroot).resolve_right fun hmem => (hsteps _ hmem).ne_root rfl
  rcases hfront with rfl | rfl | rfl
  · cases hfrontRoot
  · exact ⟨steps, rfl⟩
  · simp at hfrontRoot

/-- Whether a path is absolute shows at the front of it. -/
theorem Path.isAbsolute_of_prefix {first second : Path} (hfirst : first.location ≠ [])
    (hfront : first.location <+: second.location) : first.isAbsolute = second.isAbsolute := by
  obtain ⟨rest, hrest⟩ := hfront
  obtain ⟨component, others, hcomponent⟩ := List.exists_cons_of_ne_nil hfirst
  rw [Bool.eq_iff_iff, isAbsolute_iff, isAbsolute_iff, ← hrest, hcomponent, List.cons_append]
  simp

/-! ## Joining -/

theorem locationOf_snoc_slash {front : List Char} (hfront : front ≠ []) :
    locationOf (front ++ ['/']) = locationOf front := by
  rw [locationOf_eq, locationOf_eq, segments_append_slash, leading_segments_append hfront,
    stepsOf_append]
  simp [segments]

/-- A text behind a slash adds the steps of its segments. -/
theorem locationOf_append_slash (front back : List Char) :
    locationOf (front ++ '/' :: back) =
      locationOf (front ++ ['/']) ++ stepsOf (segments back) := by
  by_cases hfront : front = []
  · subst hfront
    obtain ⟨first, others, hback⟩ := List.exists_cons_of_ne_nil (segments_ne_nil back)
    simp [locationOf_eq, segments, leading, hback]
  · rw [locationOf_snoc_slash hfront, locationOf_eq, locationOf_eq front, segments_append_slash,
      leading_segments_append hfront, stepsOf_append, List.append_assoc]

/-- The component in front of a path that is not absolute is a `.`, if there is one. -/
theorem Path.location_of_not_isAbsolute {path : Path} (hrelative : path.isAbsolute = false) :
    ∃ front, path.location = front ++ stepsOf (segments path.text.toList) ∧
      (front = [] ∨ front = [.current]) := by
  refine ⟨leading (segments path.text.toList), locationOf_eq _, ?_⟩
  rcases leading_cases (segments path.text.toList) with h | h | h
  · exact .inl h
  · have habsolute : path.isAbsolute = true :=
      Path.isAbsolute_iff.mpr ⟨_, by rw [Path.location, locationOf_eq, h]; rfl⟩
    rw [hrelative] at habsolute
    contradiction
  · exact .inr h

/-- Steps are joined by standing behind what is there. -/
theorem Location.join_steps (base : Location) {steps : Location}
    (hsteps : ∀ step ∈ steps, step.IsStep) : Location.join base steps = base ++ steps := by
  cases steps with
  | nil => rfl
  | cons step others =>
      have hstep := hsteps step (List.mem_cons_self ..)
      cases step with
      | root => exact absurd rfl hstep.ne_root
      | current => exact absurd rfl hstep.ne_current
      | parent => rfl
      | name text => rfl

/-- A `.` in front of the tail says nothing unless nothing stands before it. -/
theorem Location.join_current (base steps : Location) :
    Location.join base (.current :: steps) =
      if base = [] then .current :: steps else base ++ steps :=
  rfl

/-- A text behind a joined path goes on with what was joined. -/
theorem Path.location_join_append {base : Path} (hbase : base.location ≠ []) {front : String}
    (hfront : (Path.mk front).isAbsolute = false) (back : String) :
    (Path.mk ((base.join ⟨front⟩).text ++ back)).location =
      base.location ++ stepsOf (segments (front ++ back).toList) := by
  have htext : base.text.toList ≠ [] := mt location_eq_nil_iff.mpr hbase
  unfold join
  rw [hfront, if_neg (by simp)]
  split
  · rename_i hslash
    obtain ⟨others, hothers⟩ := List.getLast?_eq_some_iff.mp (hslash.resolve_left htext)
    have hback : (base.text ++ front ++ back).toList = others ++ '/' :: (front ++ back).toList := by
      simp [hothers]
    rw [location, hback, locationOf_append_slash, ← hothers]
    rfl
  · have hback : (base.text ++ "/" ++ front ++ back).toList =
        base.text.toList ++ '/' :: (front ++ back).toList := by
      simp
    rw [location, hback, locationOf_append_slash, locationOf_snoc_slash htext]
    rfl

/-- **Joining.**  The components of a joined path are the joined components. -/
theorem Path.location_join (base tail : Path) :
    (base.join tail).location = Location.join base.location tail.location := by
  cases htail : tail.isAbsolute with
  | true =>
      obtain ⟨steps, hlocation⟩ := Path.isAbsolute_iff.mp htail
      simp [Path.join, htail, hlocation, Location.join]
  | false =>
      obtain ⟨front, hlocation, hfront⟩ := Path.location_of_not_isAbsolute htail
      have hsteps : ∀ step ∈ stepsOf (segments tail.text.toList), step.IsStep :=
        fun _ hstep => isStep_of_mem_stepsOf hstep
      by_cases hempty : base.text.toList = []
      · have hjoin : (base.join tail).location = tail.location := by
          simp [Path.join, htail, hempty, Path.location]
        rw [hjoin, Path.location_eq_nil_iff.mpr hempty, hlocation]
        rcases hfront with rfl | rfl
        · exact (Location.join_steps [] hsteps).symm
        · rfl
      · -- a leading dot of the tail counts for nothing behind a base
        have hbase : base.location ≠ [] := fun h => hempty (Path.location_eq_nil_iff.mp h)
        have hjoin : Location.join base.location tail.location =
            base.location ++ stepsOf (segments tail.text.toList) := by
          rw [hlocation]
          rcases hfront with rfl | rfl
          · exact Location.join_steps _ hsteps
          · simp [Location.join_current, hbase]
        have hbehind := Path.location_join_append hbase htail ""
        rwa [String.append_empty, String.append_empty, ← hjoin] at hbehind

/-! ## Spelling -/

theorem Path.location_mk_text {step : Component} (hstep : step.IsStep) :
    (Path.mk step.text).location = [step] := by
  rw [Path.location, locationOf_eq, segments_of_notMem hstep.1]
  -- one segment that is no dot has nothing in front
  have hleading : leading [step.text.toList] = [] := by
    unfold leading
    split
    · rename_i heq
      simp at heq
    · rename_i heq
      have hdot : step.text.toList = ['.'] := (List.cons.inj heq).1
      have hsome := hstep.2
      rw [hdot] at hsome
      simp [Component.ofSegment?] at hsome
    · rfl
  simp [hleading, stepsOf, hstep.2]

/-- A step joined to a path stands behind its components. -/
theorem Path.location_join_step (path : Path) {step : Component} (hstep : step.IsStep) :
    (path.join ⟨step.text⟩).location = path.location ++ [step] := by
  rw [Path.location_join, Path.location_mk_text hstep, Location.join_steps _ (by simpa using hstep)]

theorem Path.location_foldl_join (path : Path) {steps : Location}
    (hsteps : ∀ step ∈ steps, step.IsStep) :
    (steps.foldl (fun path component => path.join ⟨component.text⟩) path).location =
      path.location ++ steps := by
  induction steps generalizing path with
  | nil => simp
  | cons step others ih =>
      rw [List.foldl_cons, ih _ fun other hother => hsteps other (List.mem_cons_of_mem _ hother),
        Path.location_join_step path (hsteps step (List.mem_cons_self ..)), List.append_assoc]
      rfl

/-- **Spelling.**  The plainest spelling of a place that a path names is a path to it. -/
theorem Path.location_ofLocation {place : Location} (hplace : Path.Names place) :
    (Path.ofLocation place).location = place := by
  obtain ⟨path, rfl⟩ := hplace
  obtain ⟨front, steps, hlocation, hfront, hsteps⟩ := path.location_eq
  rw [hlocation, Path.ofLocation, List.foldl_append, Path.location_foldl_join _ hsteps]
  rcases hfront with rfl | rfl | rfl <;> rfl

theorem Path.namedPlace_eq {place : Location} (hplace : Path.Names place) :
    Path.namedPlace place = place :=
  Path.location_ofLocation hplace

/-- A component for the front, if any, and steps make a place that a path names. -/
theorem Path.names_append {front steps : Location}
    (hfront : front = [] ∨ front = [.root] ∨ front = [.current])
    (hsteps : ∀ step ∈ steps, step.IsStep) : Path.Names (front ++ steps) := by
  refine ⟨Path.ofLocation (front ++ steps), ?_⟩
  rw [Path.ofLocation, List.foldl_append, Path.location_foldl_join _ hsteps]
  rcases hfront with rfl | rfl | rfl <;> rfl

/-- Joined places are named by joined paths. -/
theorem Path.Names.join {base tail : Location} (hbase : Path.Names base)
    (htail : Path.Names tail) : Path.Names (Location.join base tail) := by
  obtain ⟨basePath, rfl⟩ := hbase
  obtain ⟨tailPath, rfl⟩ := htail
  exact ⟨basePath.join tailPath, Path.location_join basePath tailPath⟩

/-- Behind the front of a place that a path names there are steps. -/
theorem Path.Names.isStep {place rest : Location} {component : Component}
    (hnames : Path.Names (place ++ component :: rest)) (hplace : place ≠ []) :
    component.IsStep := by
  obtain ⟨path, hpath⟩ := hnames
  obtain ⟨front, steps, hlocation, hfront, hsteps⟩ := path.location_eq
  rw [hpath] at hlocation
  obtain ⟨first, place, rfl⟩ := List.exists_cons_of_ne_nil hplace
  rcases hfront with rfl | rfl | rfl
  · exact hsteps component (by rw [← List.nil_append steps, ← hlocation]; simp)
  all_goals
    have htail : place ++ component :: rest = steps := (List.cons.inj hlocation).2
    exact hsteps component (by simp [← htail])

/-- Behind a place that is not empty a path has steps only. -/
theorem Path.Names.forall_isStep {place rest : Location} (hnames : Path.Names (place ++ rest))
    (hplace : place ≠ []) : ∀ step ∈ rest, step.IsStep := by
  intro step hstep
  obtain ⟨front, back, rfl⟩ := List.append_of_mem hstep
  have hsplit : Path.Names (place ++ front ++ step :: back) := by
    rwa [List.append_assoc]
  exact hsplit.isStep (by simp [hplace])

/-- The back of a place that a path names is named by a path. -/
theorem Path.Names.right {place rest : Location} (hnames : Path.Names (place ++ rest)) :
    Path.Names rest := by
  by_cases hplace : place = []
  · subst hplace
    exact hnames
  · exact Path.names_append (.inl rfl) (hnames.forall_isStep hplace)

end Dealias
