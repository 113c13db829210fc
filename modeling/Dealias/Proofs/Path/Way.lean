import Dealias.Proofs.Path.Shared
import Mathlib.Data.List.Induction

/-!
# Where a way leads, from any directory

Directories and targets may be relative, and then a way is not always made for where it starts from.
A way that climbs out of a `..` leads too far up.  In front of a relative directory there may be a
`.`, which counts as a component: no target has it, so the first component of the target is named
before the climbs begin, and it is lost again unless the directory is entered by the same name.

* `Location.normalize_way_iff`: leaving a place and coming back to it.
* `Location.steps?_leads_iff`: when a way between relative places leads to the target.
* `Location.hasPlainWay_of_prefix`: the ways between places that climb alike.
* `relativeSpecifier?_leads_iff`: when a specifier leads to the target that it was made for.

## Strategy

Every `..` leads one step up, also where it cannot be taken back.  So the height of a relative place
is that of its normal form (`Location.height_normalize`), and a way out and back that has `..` on it
ends at another height than it started from.
-/

namespace Dealias

namespace Location

/-! ## Height -/

/-- How far below its start a relative place lies. -/
def height : Location → Int
  | [] => 0
  | .name _ :: rest => height rest + 1
  | .parent :: rest => height rest - 1
  | _ :: rest => height rest

theorem height_cons_name {name : Component} (hname : name.IsName) (rest : Location) :
    height (name :: rest) = height rest + 1 := by
  obtain ⟨text, rfl⟩ := hname.exists_text
  rfl

theorem height_append (front back : Location) :
    height (front ++ back) = height front + height back := by
  induction front with
  | nil => simp [height]
  | cons component front ih =>
      cases component <;> simp only [List.cons_append, height, ih] <;> omega

theorem height_reverse (place : Location) : height place.reverse = height place := by
  induction place with
  | nil => rfl
  | cons component place ih =>
      rw [List.reverse_cons, height_append, ih, ← List.singleton_append (l := place),
        height_append, Int.add_comm]

theorem height_replicate (climbs : Nat) : height (List.replicate climbs .parent) = -climbs := by
  induction climbs with
  | zero => rfl
  | succ climbs ih =>
      rw [List.replicate_succ, height, ih]
      omega

/-- Reading a component changes the height by that of the component. -/
theorem height_absorb {read : List Component} (hread : .root ∉ read) {component : Component}
    (hcomponent : component ≠ .root) :
    .root ∉ absorb read component ∧
      height (absorb read component) = height read + height [component] := by
  cases component with
  | root => exact absurd rfl hcomponent
  | current => exact ⟨hread, by simp [absorb, height]⟩
  | name text => exact ⟨by simpa [absorb] using hread, by simp [absorb, height]⟩
  | parent =>
      cases read with
      | nil => simp [absorb, height]
      | cons last before =>
          rw [List.mem_cons, not_or] at hread
          cases last with
          | root => exact absurd rfl hread.1
          | current => exact ⟨by simpa [absorb] using hread.2, by simp [absorb, height]; omega⟩
          | parent => exact ⟨by simpa [absorb] using hread.2, by simp [absorb, height]; omega⟩
          | name text => exact ⟨hread.2, by simp only [absorb, height]; omega⟩

/-- The height of a relative place is that of its normal form. -/
theorem height_normalize {place : Location} (hrelative : .root ∉ place) :
    height place.normalize = height place := by
  have hfold : ∀ read : List Component, .root ∉ read →
      height (place.foldl absorb read) = height read + height place := by
    induction place with
    | nil => simp [height]
    | cons component place ih =>
        rw [List.mem_cons, not_or] at hrelative
        intro read hread
        obtain ⟨hnext, hheight⟩ := height_absorb hread (Ne.symm hrelative.1)
        rw [List.foldl_cons, ih hrelative.2 _ hnext, hheight, ← List.singleton_append (l := place),
          height_append]
        omega
  rw [normalize, height_reverse, hfold [] (by simp), height]
  omega

/-! ## Out and back -/

variable {out : Location}

/-- Leaving a place by a way and coming back by climbs is climbing twice for each `..` on the
way. -/
theorem normalize_out_and_back (front : Location) (hout : ∀ step ∈ out, step.IsStep)
    (back : Location) :
    normalize (front ++ out ++ (out.map (fun _ => .parent) ++ back)) =
      normalize (front ++ (List.replicate (2 * out.count .parent) .parent ++ back)) := by
  have hregroup : front ++ out ++ (out.map (fun _ => .parent) ++ back) =
      front ++ ((out ++ out.map fun _ => Component.parent) ++ back) := by
    simp only [List.append_assoc]
  rw [hregroup]
  simp only [normalize, List.foldl_append, foldl_absorb_climbs _ hout]

/-- Leaving a relative place and coming back to it leads on as if it had not been left, unless there
is a `..` on the way. -/
theorem normalize_way_iff (front back : Location) (hrelative : .root ∉ front ++ back)
    (hout : ∀ step ∈ out, step.IsStep) :
    normalize (front ++ out ++ (out.map (fun _ => .parent) ++ back)) = normalize (front ++ back) ↔
      .parent ∉ out := by
  rw [normalize_out_and_back front hout]
  constructor
  · intro hsame
    have hclimbs : .root ∉ front ++ (List.replicate (2 * out.count .parent) .parent ++ back) := by
      simp_all
    have hheight := congrArg height hsame
    rw [height_normalize hclimbs, height_normalize hrelative] at hheight
    simp only [height_append, height_replicate] at hheight
    exact List.count_eq_zero.mp (by omega)
  · intro hparent
    rw [List.count_eq_zero.mpr hparent]
    rfl

/-! ## Relative places -/

/-- Whether the way that is made from a directory to a target leads there.  It does not climb out of
a `..`, except to the root; and if the directory is written with a `.` in front, it is entered by
the first component of the target, unless that is no name. -/
structure HasPlainWay (directory target : Location) : Prop where
  climbs : .parent ∉ directory.drop (shared directory target).length ∨
    shared directory target = [.root]
  entered : ∀ first rest, directory = .current :: first :: rest →
    ∀ component ∈ target.head?, component = .current ∨ component = .parent ∨ component = first

/-- Once something differs, all of the directory is climbed out of. -/
theorem eq_of_steps?_true {base target way : Location} (hcurrent : .current ∉ base)
    (hsteps : steps? true base target = some way) :
    way = base.map (fun _ => .parent) ++ target := by
  cases base with
  | nil =>
      obtain rfl := Option.some.inj ((steps?.eq_1 ..).symm.trans hsteps)
      rfl
  | cons head base =>
      cases target with
      | nil =>
          rw [steps?_nil_right] at hsteps
          rw [← Option.some.inj hsteps, List.append_nil]
      | cons targetHead target =>
          have hhead : head ≠ .current := fun h => hcurrent (h ▸ List.mem_cons_self ..)
          rw [steps?, if_neg (by simp), if_neg hhead] at hsteps
          split at hsteps
          · cases hsteps
          · rw [← Option.some.inj hsteps]
            rfl

section Relative

variable {directory below target way : Location}

/-- From a directory with a `.` in front the first component of the target is named before the
climbs. -/
theorem eq_of_steps?_current {head : Component} (hhead : head ≠ .current)
    (hbelow : ∀ step ∈ below, step.IsStep)
    (hway : steps? false (.current :: below) (head :: target) = some way) :
    way = head :: (below.map (fun _ => .parent) ++ target) := by
  have hcurrent : .current ∉ below := fun hmem => (hbelow _ hmem).ne_current rfl
  rw [steps?, if_neg fun h => hhead h.2, if_pos rfl] at hway
  obtain ⟨rest, hrest, rfl⟩ := Option.map_eq_some_iff.mp hway
  rw [eq_of_steps?_true hcurrent hrest]

/-- A way from a place that is made of steps. -/
theorem steps?_leads_iff_of_steps (hdirectory : ∀ step ∈ directory, step.IsStep)
    (htarget : .root ∉ target) (hway : steps? false directory target = some way) :
    normalize (directory ++ way) = normalize target ↔ HasPlainWay directory target := by
  have hcurrent : .current ∉ directory := fun hmem => (hdirectory _ hmem).ne_current rfl
  obtain ⟨common, out, down, rfl, rfl, hapart, rfl⟩ := exists_of_steps? hcurrent hway
  obtain ⟨-, hout⟩ := List.forall_mem_append.mp hdirectory
  rw [normalize_way_iff _ _ htarget hout]
  have hshared := shared_append common hapart
  constructor
  · intro hparent
    refine ⟨.inl (by rwa [hshared, List.drop_left]), fun first rest hfront => ?_⟩
    exact absurd (hfront ▸ List.mem_cons_self ..) hcurrent
  · rintro ⟨hclimbs, -⟩
    rw [hshared, List.drop_left] at hclimbs
    refine hclimbs.resolve_right ?_
    rintro rfl
    exact htarget (by simp)

/-- A way from a directory with a `.` in front to the place that this `.` stands for. -/
theorem steps?_leads_iff_to_current (hbelow : ∀ step ∈ below, step.IsStep)
    (hway : steps? false (.current :: below) [.current] = some way) :
    normalize (.current :: below ++ way) = normalize [.current] ↔
      HasPlainWay (.current :: below) [.current] := by
  rw [steps?, if_pos ⟨rfl, rfl⟩, steps?_nil_right] at hway
  obtain rfl := Option.some.inj hway
  have hreturns := normalize_way_iff [.current] [] (by simp) hbelow
  rw [List.append_nil, List.append_nil, List.singleton_append] at hreturns
  rw [hreturns]
  constructor
  · exact fun hparent => ⟨.inl (by simpa [shared] using hparent), by simp⟩
  · rintro ⟨hclimbs, -⟩
    simpa [shared] using hclimbs

/-- A way from a directory with a `.` in front to a target above: the climb to the target stands in
front of the others. -/
theorem steps?_leads_iff_to_parent (hbelow : ∀ step ∈ below, step.IsStep)
    (htarget : .root ∉ target)
    (hway : steps? false (.current :: below) (.parent :: target) = some way) :
    normalize (.current :: below ++ way) = normalize (.parent :: target) ↔
      HasPlainWay (.current :: below) (.parent :: target) := by
  obtain rfl := eq_of_steps?_current Component.isStep_parent.ne_current hbelow hway
  have hclimbs : .parent :: (below.map (fun _ => Component.parent) ++ target) =
      below.map (fun _ => .parent) ++ .parent :: target := by
    rw [List.map_const', ← List.cons_append, ← List.replicate_succ, List.replicate_succ',
      List.append_assoc]
    rfl
  have hreturns := normalize_way_iff [.current] (.parent :: target)
    (by simpa using htarget) hbelow
  rw [hclimbs]
  refine hreturns.trans ⟨fun hparent => ⟨.inl ?_, by simp⟩, ?_⟩
  · simpa [shared] using hparent
  · rintro ⟨hplain, -⟩
    simpa [shared] using hplain

/-- Entering a place, and climbing before going on, leads to where entering a name leads only if it
is that name and nothing is climbed. -/
theorem normalize_enter_iff {first name : Component} (hfirst : first.IsStep)
    (hnames : ∀ other ∈ name :: target, other.IsName) (climbs : Nat) :
    normalize ([.current, first] ++ (List.replicate (2 * climbs) .parent ++ target)) =
        name :: target ↔ first = name ∧ climbs = 0 := by
  obtain ⟨hname, htarget⟩ := List.forall_mem_cons.mp hnames
  have hnormal : ∀ head : Component, head.IsName →
      normalize ([.current, head] ++ target) = head :: target := fun head hhead =>
    normalize_append_names [.current] (List.forall_mem_cons.mpr ⟨hhead, htarget⟩)
  constructor
  · intro hsame
    have hroot : .root ∉ [.current, first] ++
        (List.replicate (2 * climbs) .parent ++ target) := by
      have htargetRoot : .root ∉ target := fun hmem => (htarget _ hmem).1.ne_root rfl
      simp [htargetRoot, hfirst.ne_root.symm]
    have hheight := congrArg height hsame
    rw [height_normalize hroot, height_cons_name hname] at hheight
    simp only [height_append, height_replicate] at hheight
    have hfirstName : first.IsName := by
      refine ⟨hfirst, ?_⟩
      rintro rfl
      simp only [height] at hheight
      omega
    obtain rfl : climbs = 0 := by
      simp only [height, height_cons_name hfirstName] at hheight
      omega
    obtain ⟨rfl, -⟩ := List.cons.inj ((hnormal first hfirstName).symm.trans hsame)
    exact ⟨rfl, rfl⟩
  · rintro ⟨rfl, rfl⟩
    exact hnormal first hname

/-- A way from a directory with a `.` in front to a target that begins with a name: the name is
entered first, and the climbs that follow leave the first component of the directory. -/
theorem steps?_leads_iff_to_name (hbelow : ∀ step ∈ below, step.IsStep) {name : Component}
    (hnames : ∀ other ∈ name :: target, other.IsName)
    (hway : steps? false (.current :: below) (name :: target) = some way) :
    normalize (.current :: below ++ way) = normalize (name :: target) ↔
      HasPlainWay (.current :: below) (name :: target) := by
  obtain ⟨hname, -⟩ := List.forall_mem_cons.mp hnames
  have hdiffer : Component.current ≠ name := hname.1.ne_current.symm
  obtain rfl := eq_of_steps?_current hdiffer.symm hbelow hway
  have hshared : shared (.current :: below) (name :: target) = [] := by
    rw [shared, if_neg hdiffer]
  cases below with
  | nil => exact ⟨fun _ => ⟨.inl (by simp [hshared]), by simp⟩, fun _ => rfl⟩
  | cons first below =>
      obtain ⟨hfirst, hothers⟩ := List.forall_mem_cons.mp hbelow
      have hout : ∀ step ∈ below ++ [name], step.IsStep :=
        List.forall_mem_append.mpr ⟨hothers, by simpa using hname.1⟩
      -- all the climbs but one lead back to the first component of the directory
      have hregroup : .current :: first :: below ++
            name :: ((first :: below).map (fun _ => .parent) ++ target) =
          [.current, first] ++ (below ++ [name]) ++
            ((below ++ [name]).map (fun _ => .parent) ++ target) := by
        simp only [List.map_const', List.length_append, List.length_cons, List.length_nil,
          List.cons_append, List.nil_append, List.append_assoc]
      have hcount : (below ++ [name]).count .parent = below.count .parent := by
        rw [List.count_append, List.count_singleton, if_neg (by simpa using hname.2), Nat.add_zero]
      have hnormal : normalize (name :: target) = name :: target :=
        normalize_append_names [] hnames
      rw [hregroup, normalize_out_and_back _ hout, hcount, hnormal,
        normalize_enter_iff hfirst hnames, List.count_eq_zero]
      constructor
      · rintro ⟨rfl, hclimbs⟩
        refine ⟨.inl ?_, ?_⟩
        · rw [hshared, List.length_nil, List.drop_zero]
          simpa using ⟨hname.2.symm, hclimbs⟩
        · rintro entry rest hentry component ⟨⟩
          exact .inr (.inr (List.cons.inj (List.cons.inj hentry).2).1)
      · rintro ⟨hclimbs, hentered⟩
        rw [hshared, List.length_nil, List.drop_zero] at hclimbs
        have hparent := hclimbs.resolve_right (by simp)
        simp only [List.mem_cons, not_or] at hparent
        have hfirstName := hentered first below rfl name rfl
        exact ⟨((hfirstName.resolve_left hname.1.ne_current).resolve_left hname.2).symm,
          hparent.2.2⟩

/-- Whether a place is written as a relative normal form: a dot alone, or climbs and then names. -/
def IsRelativeNormal (place : Location) : Prop :=
  place = [.current] ∨ ∃ climbs names, place ≠ [] ∧
    place = List.replicate climbs .parent ++ names ∧ ∀ name ∈ names, name.IsName

theorem IsRelativeNormal.current_or_step (htarget : target.IsRelativeNormal)
    {component : Component} (hmem : component ∈ target) :
    component = .current ∨ component.IsStep := by
  rcases htarget with rfl | ⟨climbs, names, -, rfl, hnames⟩
  · exact .inl (List.mem_singleton.mp hmem)
  · refine .inr ?_
    rcases List.mem_append.mp hmem with hclimb | hname
    · exact (List.eq_of_mem_replicate hclimb) ▸ Component.isStep_parent
    · exact (hnames component hname).1

theorem IsRelativeNormal.root_notMem (htarget : target.IsRelativeNormal) : .root ∉ target :=
  fun hmem => (htarget.current_or_step hmem).elim nofun fun hstep => hstep.ne_root rfl

/-- When a way between relative places leads to the target. -/
theorem steps?_leads_iff {front : Location} (hfront : front = [] ∨ front = [.current])
    (hbelow : ∀ step ∈ below, step.IsStep) (htarget : target.IsRelativeNormal)
    (hway : steps? false (front ++ below) target = some way) :
    normalize (front ++ below ++ way) = normalize target ↔ HasPlainWay (front ++ below) target := by
  rcases hfront with rfl | rfl
  · exact steps?_leads_iff_of_steps hbelow htarget.root_notMem hway
  · have hroot := htarget.root_notMem
    rcases htarget with rfl | ⟨climbs, names, hnonempty, rfl, hnames⟩
    · exact steps?_leads_iff_to_current hbelow hway
    · cases climbs with
      | zero =>
          cases names with
          | nil => exact absurd rfl hnonempty
          | cons name names => exact steps?_leads_iff_to_name hbelow hnames hway
      | succ climbs =>
          exact steps?_leads_iff_to_parent hbelow (fun hmem => hroot (List.mem_cons_of_mem _ hmem))
            hway

/-- From a directory that has climbs in front only, the way to a target with as many climbs is
plain. -/
theorem hasPlainWay_of_prefix {climbs : Nat} (hparent : .parent ∉ below)
    (hcurrent : .current ∉ below) (htarget : List.replicate climbs .parent <+: target) :
    HasPlainWay (List.replicate climbs .parent ++ below) target := by
  constructor
  · have hshared : List.replicate climbs .parent <+:
        shared (List.replicate climbs .parent ++ below) target :=
      prefix_shared_iff.mpr ⟨List.prefix_append .., htarget⟩
    refine .inl fun hmem => hparent ?_
    rw [List.drop_append, List.drop_eq_nil_of_le hshared.length_le, List.nil_append] at hmem
    exact List.mem_of_mem_drop hmem
  · intro first rest hfront
    have hmem : Component.current ∈ List.replicate climbs .parent ++ below :=
      hfront ▸ List.mem_cons_self ..
    rcases List.mem_append.mp hmem with hclimb | hbelow
    · cases List.eq_of_mem_replicate hclimb
    · exact absurd hbelow hcurrent

end Relative

/-! ## Spelled ways -/

/-- Reading a joined place is reading the one and then the other. -/
theorem foldl_absorb_join (base : Location) {tail : Location} (htail : .root ∉ tail)
    (read : List Component) :
    (join base tail).foldl absorb read = (base ++ tail).foldl absorb read := by
  cases tail with
  | nil => rfl
  | cons component tail =>
      cases component with
      | root => exact absurd (List.mem_cons_self ..) htail
      | parent => rfl
      | name text => rfl
      | current =>
          rw [join_current]
          split
          · rename_i hbase
            rw [hbase, List.nil_append]
          · rw [List.foldl_append, List.foldl_append]
            rfl

theorem root_notMem_join {base tail : Location} (hbase : .root ∉ base) (htail : .root ∉ tail) :
    .root ∉ join base tail := by
  cases tail with
  | nil => simpa [join] using hbase
  | cons component tail =>
      cases component <;> simp_all [join]
      split <;> simp_all

end Location

/-- The spelling of a way may leave out a `.`, which leads nowhere. -/
theorem Path.foldl_absorb_ofLocation {way : Location}
    (hway : ∀ component ∈ way, component = .current ∨ component.IsStep) :
    .root ∉ (ofLocation way).location ∧ ∀ read : List Component,
      (ofLocation way).location.foldl Location.absorb read = way.foldl Location.absorb read := by
  induction way using List.reverseRecOn with
  | nil => exact ⟨by decide, fun _ => rfl⟩
  | append_singleton way last ih =>
      obtain ⟨hothers, hlast⟩ := List.forall_mem_append.mp hway
      obtain ⟨hroot, hread⟩ := ih hothers
      have hlocation : (Path.mk last.text).location = [last] := by
        rcases hlast last (List.mem_singleton_self _) with rfl | hstep
        · rfl
        · exact location_mk_text hstep
      have hlastRoot : .root ∉ [last] := by
        rcases hlast last (List.mem_singleton_self _) with rfl | hstep
        · simp
        · simpa using hstep.ne_root.symm
      rw [ofLocation_concat, location_join, hlocation]
      refine ⟨Location.root_notMem_join hroot hlastRoot, fun read => ?_⟩
      rw [Location.foldl_absorb_join _ hlastRoot, List.foldl_append, hread, List.foldl_append]

/-- Following a marked way is going its steps. -/
theorem Path.normalize_join_ensureDotted (directory : Path) {way : Location}
    (hway : ∀ component ∈ way, component = .current ∨ component.IsStep) :
    (directory.join ⟨ensureDotted (ofLocation way).text⟩).location.normalize =
      Location.normalize (directory.location ++ way) := by
  obtain ⟨hroot, hread⟩ := foldl_absorb_ofLocation hway
  have hmarked := location_ensureDotted (isAbsolute_eq_false_iff.mpr hroot)
  have hmark : .root ∉ Location.join [.current] (ofLocation way).location :=
    Location.root_notMem_join (by simp) hroot
  rw [location_join, Location.normalize, Location.normalize]
  congr 1
  rcases hmarked with hmarked | hmarked
  · rw [hmarked, Location.foldl_absorb_join _ hroot, List.foldl_append, hread, List.foldl_append]
  · rw [hmarked, Location.foldl_absorb_join _ hmark, List.foldl_append,
      Location.foldl_absorb_join _ hroot, List.foldl_append, hread, List.foldl_append]
    rfl

/-! ## Relative paths in normal form -/

theorem Path.isRelativeNormal_normalize {path : Path} (hrelative : path.isAbsolute = false) :
    path.normalize.location.IsRelativeNormal := by
  obtain ⟨front, hfront, hcases⟩ := location_of_not_isAbsolute hrelative
  have hsteps : path.location.normalize = (stepsOf (segments path.text.toList)).normalize := by
    rw [hfront]
    rcases hcases with rfl | rfl <;> rfl
  obtain ⟨climbs, names, hplace, hnames⟩ :=
    Location.normalize_relative fun _ hstep => isStep_of_mem_stepsOf hstep
  rw [location_normalize]
  split
  · exact .inl rfl
  · rename_i hnonempty
    exact .inr ⟨climbs, names, hnonempty, hsteps.trans hplace, hnames⟩

theorem Path.isAbsolute_normalize_eq_false {path : Path} (hrelative : path.isAbsolute = false) :
    path.normalize.isAbsolute = false :=
  isAbsolute_eq_false_iff.mpr (isRelativeNormal_normalize hrelative).root_notMem

theorem Path.isAbsolute_join_eq_false {base tail : Path} (hbase : base.isAbsolute = false)
    (htail : tail.isAbsolute = false) : (base.join tail).isAbsolute = false := by
  rw [isAbsolute_eq_false_iff] at *
  rw [location_join]
  exact Location.root_notMem_join hbase htail

/-- A path in normal form that is no dot has a `..` in front only, and none if it is absolute. -/
theorem Path.exists_climbs_of_normal {path : Path} (hnormal : path.normalize = path)
    (hdot : path.location ≠ [.current]) :
    ∃ climbs below, path.location = List.replicate climbs .parent ++ below ∧
      .parent ∉ below ∧ .current ∉ below ∧ (path.isAbsolute = true → climbs = 0) := by
  cases hpath : path.isAbsolute with
  | true =>
      obtain ⟨names, hspelled, hnames⟩ := exists_names_of_isAbsolute hpath
      rw [hnormal] at hspelled
      refine ⟨0, .root :: names, ?_, ?_, ?_, fun _ => rfl⟩
      · rw [hspelled, location_ofLocation_root fun name hname => (hnames name hname).1]
        rfl
      · simpa using fun hmem => (hnames _ hmem).2 rfl
      · simpa using fun hmem => (hnames _ hmem).1.ne_current rfl
  | false =>
      have hrelative := isRelativeNormal_normalize hpath
      rw [hnormal] at hrelative
      obtain ⟨climbs, names, -, hlocation, hnames⟩ := hrelative.resolve_left hdot
      exact ⟨climbs, names, hlocation, fun hmem => (hnames _ hmem).2 rfl,
        fun hmem => (hnames _ hmem).1.ne_current rfl, nofun⟩

theorem isAbsolute_ensureDotted (specifier : String) :
    (Path.mk (ensureDotted specifier)).isAbsolute = false := by
  unfold Path.isAbsolute
  rcases ensureDotted_dotted specifier with ⟨rest, hrest⟩ | ⟨rest, hrest⟩ <;> rw [← hrest] <;> rfl

/-! ## Where a specifier leads -/

section Leading

variable {directory target : Path} {specifier : String}

theorem relativeSpecifier?_leads_iff_of_relative (hdirectory : directory.isAbsolute = false)
    (htarget : target.isAbsolute = false) (hnormal : target.normalize = target)
    (hspecifier : relativeSpecifier? directory target = some specifier) :
    (directory.join ⟨specifier⟩).normalize = target ↔
      Location.HasPlainWay directory.location target.location := by
  obtain ⟨path, hpath, rfl⟩ := Option.map_eq_some_iff.mp hspecifier
  rw [Path.relativeTo?, if_pos (htarget.trans hdirectory.symm)] at hpath
  obtain ⟨way, hway, rfl⟩ := Option.map_eq_some_iff.mp hpath
  obtain ⟨front, hlocation, hfront⟩ := Path.location_of_not_isAbsolute hdirectory
  have htargetNormal : target.location.IsRelativeNormal :=
    hnormal ▸ Path.isRelativeNormal_normalize htarget
  have hsteps : ∀ component ∈ way, component = .current ∨ component.IsStep := fun _ hcomponent =>
    (Location.mem_of_mem_steps? hway hcomponent).elim (fun h => .inr (h ▸ Component.isStep_parent))
      htargetNormal.current_or_step
  calc (directory.join ⟨ensureDotted (Path.ofLocation way).text⟩).normalize = target
      ↔ (directory.join ⟨ensureDotted (Path.ofLocation way).text⟩).normalize =
          target.normalize := by rw [hnormal]
    _ ↔ Location.normalize (directory.location ++ way) = target.location.normalize := by
        rw [Path.normalize_eq_normalize_iff, Path.normalize_join_ensureDotted _ hsteps]
    _ ↔ Location.HasPlainWay directory.location target.location := by
        rw [hlocation] at hway ⊢
        exact Location.steps?_leads_iff hfront (fun _ hstep => isStep_of_mem_stepsOf hstep)
          htargetNormal hway

theorem relativeSpecifier?_leads_iff_of_absolute (hdirectory : directory.isAbsolute = true)
    (htarget : target.isAbsolute = true) (hnormal : target.normalize = target)
    (hspecifier : relativeSpecifier? directory target = some specifier) :
    (directory.join ⟨specifier⟩).normalize = target ↔
      Location.HasPlainWay directory.location target.location := by
  obtain ⟨names, hspelled, hlocation, hnames⟩ := Path.exists_names_of_normal htarget hnormal
  obtain ⟨common, out, down, hfork, -⟩ := exists_fork hdirectory hspelled hnames hspecifier
  have hreaches :=
    relativeSpecifier?_reaches_iff hdirectory hspelled hnames (.inl rfl) hspecifier
  rw [String.append_empty, String.append_empty, hlocation, hfork.parent_mem_iff,
    hfork.meetAtRoot_iff] at hreaches
  have hshared : Location.shared directory.location target.location = .root :: common := by
    rw [hfork.directory_eq, hlocation, hfork.target_eq, Location.shared_append _ hfork.apart]
  have hclimbs : (¬ out.count .parent ≠ 0 ∨ common = []) ↔
      (.parent ∉ directory.location.drop
          (Location.shared directory.location target.location).length ∨
        Location.shared directory.location target.location = [.root]) := by
    rw [hshared, hfork.directory_eq, List.drop_left, not_not, List.count_eq_zero]
    simp
  rw [hreaches, and_iff_right (.inl rfl), hclimbs]
  refine ⟨fun h => ⟨h, fun first rest hentered => ?_⟩, fun h => h.climbs⟩
  rw [hfork.directory_eq] at hentered
  cases hentered

/-- When the specifier from a directory to a target in normal form leads to that target: both are
absolute or both are relative, and the way is plain. -/
theorem relativeSpecifier?_leads_iff (hnormal : target.normalize = target)
    (hspecifier : relativeSpecifier? directory target = some specifier) :
    (directory.join ⟨specifier⟩).normalize = target ↔
      target.isAbsolute = directory.isAbsolute ∧
        Location.HasPlainWay directory.location target.location := by
  cases hdirectory : directory.isAbsolute with
  | false =>
      cases htarget : target.isAbsolute with
      | false =>
          rw [relativeSpecifier?_leads_iff_of_relative hdirectory htarget hnormal hspecifier]
          exact (and_iff_right rfl).symm
      | true =>
          -- what is reached from a relative directory is relative
          refine ⟨fun hsame => ?_, fun h => nomatch h.1⟩
          obtain ⟨path, -, rfl⟩ := Option.map_eq_some_iff.mp hspecifier
          have hreached := Path.isAbsolute_normalize_eq_false
            (Path.isAbsolute_join_eq_false hdirectory (isAbsolute_ensureDotted path.text))
          rw [hsame, htarget] at hreached
          cases hreached
  | true =>
      cases htarget : target.isAbsolute with
      | false =>
          simp [relativeSpecifier?, Path.relativeTo?, hdirectory, htarget] at hspecifier
      | true =>
          rw [relativeSpecifier?_leads_iff_of_absolute hdirectory htarget hnormal hspecifier]
          exact (and_iff_right rfl).symm

end Leading

end Dealias
