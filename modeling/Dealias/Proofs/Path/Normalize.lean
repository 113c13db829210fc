import Dealias.Path.Normalize
import Dealias.Proofs.Path.Components

/-!
# Normal forms

A location is normalized by a stack: names are pushed, and `..` takes the last name back.  This file
says what the stack can hold (`Location.IsStack`), and from it what a normal form looks like.

* `Path.normalize_ext`: normalized paths with the same components are the same text, so components
  are good keys for normalized paths.
* `Location.normalize_absolute`: the normal form of an absolute location is the root and names.
* `Location.normalize_relative`: the normal form of a relative location is climbs and names.
* `Path.normalize_normalize`: normalizing once is enough.
* `Location.prefix_normalize_append`: climbs in front are never taken back.
-/

namespace Dealias

/-! ## The stack -/

/-- The components read so far, the last of them first: steps, and below them what stands in
front. -/
def Location.IsStack (front : Location) (read : List Component) : Prop :=
  ∃ steps, read = steps ++ front ∧ ∀ step ∈ steps, step.IsStep

theorem Location.isStack_absorb {front : Location} (hfront : front = [] ∨ front = [.root])
    {read : List Component} (hread : IsStack front read) {step : Component} (hstep : step.IsStep) :
    IsStack front (absorb read step) := by
  obtain ⟨steps, rfl, hsteps⟩ := hread
  cases step with
  | root => exact absurd rfl hstep.ne_root
  | current => exact absurd rfl hstep.ne_current
  | name text => exact ⟨.name text :: steps, rfl, List.forall_mem_cons.mpr ⟨hstep, hsteps⟩⟩
  | parent =>
      cases steps with
      | nil =>
          rcases hfront with rfl | rfl
          · exact ⟨[.parent], rfl, by simpa using hstep⟩
          · exact ⟨[], rfl, by simp⟩
      | cons last before =>
          obtain ⟨hlast, hbefore⟩ := List.forall_mem_cons.mp hsteps
          cases last with
          | root => exact absurd rfl hlast.ne_root
          | current => exact absurd rfl hlast.ne_current
          | name text => exact ⟨before, rfl, hbefore⟩
          | parent =>
              exact ⟨.parent :: .parent :: before, rfl,
                List.forall_mem_cons.mpr ⟨hstep, List.forall_mem_cons.mpr ⟨hlast, hbefore⟩⟩⟩

theorem Location.isStack_foldl {front : Location} (hfront : front = [] ∨ front = [.root])
    {steps : Location} (hsteps : ∀ step ∈ steps, step.IsStep) {read : List Component}
    (hread : IsStack front read) : IsStack front (steps.foldl absorb read) := by
  induction steps generalizing read with
  | nil => exact hread
  | cons step others ih =>
      obtain ⟨hstep, hothers⟩ := List.forall_mem_cons.mp hsteps
      exact ih hothers (isStack_absorb hfront hread hstep)

/-- The normal form of a place that a path names: the root, if the place begins with it, and
steps. -/
theorem Location.normalize_eq {place : Location} (hplace : Path.Names place) :
    ∃ front steps, place.normalize = front ++ steps ∧
      (front = [] ∨ front = [.root]) ∧ ∀ step ∈ steps, step.IsStep := by
  obtain ⟨path, rfl⟩ := hplace
  obtain ⟨front, steps, hlocation, hfront, hsteps⟩ := path.location_eq
  have hstack : ∃ front', (front' = [] ∨ front' = [.root]) ∧
      IsStack front' ((front ++ steps).foldl absorb []) := by
    rw [List.foldl_append]
    rcases hfront with rfl | rfl | rfl
    · exact ⟨[], .inl rfl, isStack_foldl (.inl rfl) hsteps ⟨[], rfl, by simp⟩⟩
    · exact ⟨[.root], .inr rfl, isStack_foldl (.inr rfl) hsteps ⟨[], rfl, by simp⟩⟩
    · exact ⟨[], .inl rfl, isStack_foldl (.inl rfl) hsteps ⟨[], rfl, by simp⟩⟩
  obtain ⟨front', hfront', read, hread, hsteps'⟩ := hstack
  refine ⟨front'.reverse, read.reverse, ?_, ?_, by simpa using hsteps'⟩
  · rw [hlocation, normalize, hread, List.reverse_append]
  · rcases hfront' with rfl | rfl <;> simp

theorem Location.names_normalize {place : Location} (hplace : Path.Names place) :
    Path.Names place.normalize := by
  obtain ⟨front, steps, hnormal, hfront, hsteps⟩ := normalize_eq hplace
  rw [hnormal]
  exact Path.names_append (hfront.imp_right .inl) hsteps

/-! ## Normalized paths -/

theorem Path.normalize_of_ne_nil {path : Path} (hplace : path.location.normalize ≠ []) :
    path.normalize = ofLocation path.location.normalize := by
  unfold normalize
  split
  · contradiction
  · rfl

/-- The components of a normalized path, where something is left of it. -/
theorem Path.location_normalize_of_ne_nil {path : Path} (hplace : path.location.normalize ≠ []) :
    path.normalize.location = path.location.normalize := by
  rw [normalize_of_ne_nil hplace, location_ofLocation (Location.names_normalize ⟨path, rfl⟩)]

/-- The components of a normalized path: the normal form, or a `.` where nothing is left. -/
theorem Path.location_normalize (path : Path) :
    path.normalize.location =
      if path.location.normalize = [] then [.current] else path.location.normalize := by
  split
  · rename_i hplace
    rw [normalize, hplace]
    rfl
  · rename_i hplace
    exact location_normalize_of_ne_nil hplace

/-- A normalized path names something. -/
theorem Path.location_normalize_ne_nil (path : Path) : path.normalize.location ≠ [] := by
  rw [location_normalize]
  split
  · simp
  · assumption

theorem Path.location_anchor_ne_nil (path base : Path) : (path.anchor base).location ≠ [] := by
  unfold anchor
  split
  · exact location_normalize_ne_nil _
  · exact location_normalize_ne_nil _

/-- A dot is never left over. -/
theorem Path.normalize_location_ne_current (path : Path) :
    path.location.normalize ≠ [.current] := by
  intro hcurrent
  obtain ⟨front, steps, heq, hfront, hsteps⟩ := Location.normalize_eq ⟨path, rfl⟩
  rw [hcurrent] at heq
  rcases hfront with rfl | rfl
  · rw [List.nil_append] at heq
    subst heq
    exact (hsteps .current (List.mem_cons_self ..)).ne_current rfl
  · simp at heq

/-- The components of a normalized path tell its normal form. -/
theorem Path.normalize_location_eq {first second : Path}
    (hsame : first.normalize.location = second.normalize.location) :
    first.location.normalize = second.location.normalize := by
  rw [location_normalize, location_normalize] at hsame
  -- the text of an empty normal form is not taken by another one
  split at hsame <;> split at hsame
  · simp_all
  · exact absurd hsame.symm second.normalize_location_ne_current
  · exact absurd hsame first.normalize_location_ne_current
  · exact hsame

/-- Normalized paths with the same components are the same. -/
theorem Path.normalize_ext {first second : Path}
    (hsame : first.normalize.location = second.normalize.location) :
    first.normalize = second.normalize := by
  rw [normalize, normalize, normalize_location_eq hsame]

theorem Path.normalize_eq_normalize_iff {first second : Path} :
    first.normalize = second.normalize ↔
      first.location.normalize = second.location.normalize :=
  ⟨fun hsame => normalize_location_eq (congrArg location hsame), fun hplace => by
    rw [normalize, normalize, hplace]⟩

/-! ## Absolute locations -/

/-- A component that is a name and can stand anywhere. -/
def Component.IsName (component : Component) : Prop :=
  component.IsStep ∧ component ≠ .parent

theorem Component.IsName.exists_text {component : Component} (hname : component.IsName) :
    ∃ text, component = .name text := by
  cases component with
  | root => exact absurd rfl hname.1.ne_root
  | current => exact absurd rfl hname.1.ne_current
  | parent => exact absurd rfl hname.2
  | name text => exact ⟨text, rfl⟩

@[simp] theorem Location.absorb_name {read : List Component} {name : Component}
    (hname : name.IsName) : absorb read name = name :: read := by
  obtain ⟨text, rfl⟩ := hname.exists_text
  rfl

theorem Location.absorb_parent_of_name {read : List Component} {name : Component}
    (hname : name.IsName) : absorb (name :: read) .parent = read := by
  obtain ⟨text, rfl⟩ := hname.exists_text
  rfl

theorem Location.foldl_absorb_names (read : List Component) {names : Location}
    (hnames : ∀ name ∈ names, name.IsName) : names.foldl absorb read = names.reverse ++ read := by
  induction names generalizing read with
  | nil => rfl
  | cons name others ih =>
      obtain ⟨hname, hothers⟩ := List.forall_mem_cons.mp hnames
      rw [List.foldl_cons, absorb_name hname, ih _ hothers, List.reverse_cons, List.append_assoc]
      rfl

/-- Names behind a location stand behind its normal form. -/
theorem Location.normalize_append_names (place : Location) {names : Location}
    (hnames : ∀ name ∈ names, name.IsName) :
    normalize (place ++ names) = place.normalize ++ names := by
  rw [normalize, List.foldl_append, foldl_absorb_names _ hnames, List.reverse_append,
    List.reverse_reverse]
  rfl

/-- On top of the root only names are stacked, since there is no way up from it. -/
theorem Location.foldl_absorb_absolute {steps : Location} (hsteps : ∀ step ∈ steps, step.IsStep)
    {names : List Component} (hnames : ∀ name ∈ names, name.IsName) :
    ∃ names', steps.foldl absorb (names ++ [.root]) = names' ++ [.root] ∧
      ∀ name ∈ names', name.IsName := by
  induction steps generalizing names with
  | nil => exact ⟨names, rfl, hnames⟩
  | cons step others ih =>
      obtain ⟨hstep, hothers⟩ := List.forall_mem_cons.mp hsteps
      by_cases hparent : step = .parent
      · subst hparent
        -- there is no way up from the root
        cases names with
        | nil => exact ih hothers hnames
        | cons last before =>
            obtain ⟨hlast, hbefore⟩ := List.forall_mem_cons.mp hnames
            rw [List.foldl_cons, List.cons_append, absorb_parent_of_name hlast]
            exact ih hothers hbefore
      · have hname : step.IsName := ⟨hstep, hparent⟩
        rw [List.foldl_cons, absorb_name hname, ← List.cons_append]
        exact ih hothers (List.forall_mem_cons.mpr ⟨hname, hnames⟩)

/-- The normal form of an absolute location is the root and names. -/
theorem Location.normalize_absolute {steps : Location} (hsteps : ∀ step ∈ steps, step.IsStep) :
    ∃ names, normalize (.root :: steps) = .root :: names ∧ ∀ name ∈ names, name.IsName := by
  have hnone : ∀ name ∈ ([] : List Component), name.IsName := by simp
  obtain ⟨names, hread, hnames⟩ := foldl_absorb_absolute hsteps hnone
  refine ⟨names.reverse, ?_, by simpa using hnames⟩
  rw [normalize, List.foldl_cons]
  change (steps.foldl absorb ([] ++ [.root])).reverse = _
  rw [hread, List.reverse_append]
  rfl

/-! ## Relative locations -/

/-- On top of climbs only names are stacked, and a climb with no name above it joins the others. -/
theorem Location.foldl_absorb_relative {steps : Location} (hsteps : ∀ step ∈ steps, step.IsStep)
    {names : List Component} (hnames : ∀ name ∈ names, name.IsName) (climbs : Nat) :
    ∃ names' climbs', steps.foldl absorb (names ++ List.replicate climbs .parent) =
      names' ++ List.replicate climbs' .parent ∧ ∀ name ∈ names', name.IsName := by
  induction steps generalizing names climbs with
  | nil => exact ⟨names, climbs, rfl, hnames⟩
  | cons step others ih =>
      obtain ⟨hstep, hothers⟩ := List.forall_mem_cons.mp hsteps
      by_cases hparent : step = .parent
      · subst hparent
        cases names with
        | nil =>
            have habsorb : absorb (List.replicate climbs .parent) .parent =
                List.replicate (climbs + 1) .parent := by
              cases climbs <;> rfl
            rw [List.foldl_cons, List.nil_append, habsorb]
            exact ih hothers hnames (climbs + 1)
        | cons last before =>
            obtain ⟨hlast, hbefore⟩ := List.forall_mem_cons.mp hnames
            rw [List.foldl_cons, List.cons_append, absorb_parent_of_name hlast]
            exact ih hothers hbefore climbs
      · have hname : step.IsName := ⟨hstep, hparent⟩
        rw [List.foldl_cons, absorb_name hname, ← List.cons_append]
        exact ih hothers (List.forall_mem_cons.mpr ⟨hname, hnames⟩) climbs

/-- The normal form of a location that has steps only: climbs, and then names. -/
theorem Location.normalize_relative {steps : Location} (hsteps : ∀ step ∈ steps, step.IsStep) :
    ∃ climbs names, normalize steps = List.replicate climbs .parent ++ names ∧
      ∀ name ∈ names, name.IsName := by
  have hnone : ∀ name ∈ ([] : List Component), name.IsName := by simp
  obtain ⟨names, climbs, hread, hnames⟩ := foldl_absorb_relative hsteps hnone 0
  refine ⟨climbs, names.reverse, ?_, by simpa using hnames⟩
  change (steps.foldl absorb ([] ++ List.replicate 0 .parent)).reverse = _
  rw [hread, List.reverse_append, List.reverse_replicate]

/-! ## Normal forms of normal forms -/

theorem Location.normalize_replicate (climbs : Nat) :
    normalize (List.replicate climbs .parent) = List.replicate climbs .parent := by
  have hread : (List.replicate climbs Component.parent).foldl absorb [] =
      List.replicate climbs .parent := by
    induction climbs with
    | zero => rfl
    | succ climbs ih =>
        rw [List.replicate_succ', List.foldl_append, ih, ← List.replicate_succ']
        cases climbs <;> rfl
  rw [normalize, hread, List.reverse_replicate]

/-- Normalizing once is enough. -/
theorem Location.normalize_normalize {place : Location} (hplace : Path.Names place) :
    place.normalize.normalize = place.normalize := by
  obtain ⟨path, rfl⟩ := hplace
  obtain ⟨front, steps, hlocation, hfront, hsteps⟩ := path.location_eq
  have hrelative : (normalize steps).normalize = normalize steps := by
    obtain ⟨climbs, names, hnormal, hnames⟩ := normalize_relative hsteps
    rw [hnormal, normalize_append_names _ hnames, normalize_replicate]
  rw [hlocation]
  rcases hfront with rfl | rfl | rfl
  · exact hrelative
  · obtain ⟨names, hnormal, hnames⟩ := normalize_absolute hsteps
    rw [List.singleton_append, hnormal]
    exact normalize_append_names [.root] hnames
  · exact hrelative

theorem Path.normalize_normalize (path : Path) : path.normalize.normalize = path.normalize := by
  rw [normalize_eq_normalize_iff, location_normalize]
  split
  · rename_i hempty
    rw [hempty]
    rfl
  · exact Location.normalize_normalize ⟨path, rfl⟩

/-- The components of a path that is in normal form and no dot are in normal form. -/
theorem Path.normalize_location_of_normal {path : Path} (hnormal : path.normalize = path)
    (hdot : path.location ≠ [.current]) : path.location.normalize = path.location := by
  have hlocation := path.location_normalize
  rw [hnormal] at hlocation
  split at hlocation
  · exact absurd hlocation hdot
  · exact hlocation.symm

/-! ## Climbs in front -/

/-- Climbs at the bottom of the stack are not taken back. -/
theorem Location.suffix_absorb {climbs : Nat} {read : List Component}
    (hread : List.replicate climbs .parent <:+ read) (component : Component) :
    List.replicate climbs .parent <:+ absorb read component := by
  cases component with
  | root => exact hread.trans (List.suffix_cons ..)
  | current => exact hread
  | name text => exact hread.trans (List.suffix_cons ..)
  | parent =>
      cases read with
      | nil => exact hread.trans (List.suffix_cons ..)
      | cons last before =>
          cases last with
          | root => exact hread
          | current => exact hread.trans (List.suffix_cons ..)
          | parent => exact hread.trans (List.suffix_cons ..)
          | name text =>
              refine (List.suffix_cons_iff.mp hread).resolve_left fun hsame => ?_
              cases climbs <;> cases hsame

/-- Climbs in front of a normal form stay there, whatever comes behind. -/
theorem Location.prefix_normalize_append {climbs : Nat} {front : Location}
    (hfront : List.replicate climbs .parent <+: front.normalize) (back : Location) :
    List.replicate climbs .parent <+: normalize (front ++ back) := by
  have hstack : ∀ read : List Component, List.replicate climbs .parent <:+ read →
      List.replicate climbs .parent <:+ back.foldl absorb read := by
    induction back with
    | nil => exact fun _ => id
    | cons component back ih => exact fun read hread => ih _ (suffix_absorb hread component)
  rw [normalize, ← List.reverse_replicate, List.reverse_prefix] at hfront ⊢
  rw [List.foldl_append]
  exact hstack _ hfront

theorem Path.prefix_location_normalize {path : Path} {climbs : Nat}
    (hpath : List.replicate climbs .parent <+: path.location.normalize) :
    List.replicate climbs .parent <+: path.normalize.location := by
  rw [location_normalize]
  split
  · rename_i hempty
    rw [hempty, List.prefix_nil] at hpath
    rw [hpath]
    exact List.nil_prefix
  · exact hpath

end Dealias
