import Dealias.Proofs.Path.Relative

/-!
# The common part of two places

Two places have a common part in front, the longest place above both (`Location.prefix_shared_iff`).
Between absolute directories and targets without `..` the way climbs out of the directory just to
the common part and descends from there, so it is as short as it can be.

* `exists_relativeSpecifier?`: from a directory that is spelled without `..` there is a way to every
  absolute target.
* `relativeSpecifier?_minimal`: the steps of the way, where it leads, and that different targets
  have different ways.
-/

namespace Dealias

/-! ## The common part -/

/-- What two places have in common in front. -/
def Location.shared : Location → Location → Location
  | first :: firsts, second :: seconds =>
    if first = second then first :: shared firsts seconds else []
  | _, _ => []

/-- The common part is the longest place that is above both. -/
theorem Location.prefix_shared_iff {place first second : Location} :
    place <+: shared first second ↔ place <+: first ∧ place <+: second := by
  induction first generalizing place second with
  | nil => simp +contextual [shared]
  | cons component firsts ih =>
      cases second with
      | nil => simp +contextual [shared]
      | cons component' seconds =>
          rw [shared]
          cases place with
          | nil => simp
          | cons step place =>
              split
              · rename_i hsame
                subst hsame
                simp only [List.cons_prefix_cons, ih]
                tauto
              · rename_i hdiffer
                simp only [List.cons_prefix_cons, List.prefix_nil, List.cons_ne_nil, false_iff]
                rintro ⟨⟨rfl, -⟩, rfl, -⟩
                exact hdiffer rfl

/-- Where two places part, their common part ends. -/
theorem Location.shared_append (common : Location) {out down : Location}
    (hapart : ∀ component ∈ out.head?, component ∉ down.head?) :
    shared (common ++ out) (common ++ down) = common := by
  induction common with
  | nil =>
      cases out with
      | nil => rfl
      | cons first out =>
          cases down with
          | nil => rfl
          | cons second down =>
              have hdiffer : first ≠ second := by
                simpa [eq_comm] using hapart first (by simp)
              rw [List.nil_append, List.nil_append, shared, if_neg hdiffer]
  | cons component common ih => simp [shared, ih]

/-! ## Ways -/

/-- There is always a way out of a place that has no `..`. -/
theorem Location.exists_steps? {base : Location} (hcurrent : .current ∉ base)
    (hparent : .parent ∉ base) (differs : Bool) (target : Location) :
    ∃ steps, steps? differs base target = some steps := by
  induction base generalizing target with
  | nil => exact ⟨target, by rw [steps?]⟩
  | cons head base ih =>
      obtain ⟨hheadCurrent, hbaseCurrent⟩ := List.ne_and_not_mem_of_not_mem_cons hcurrent
      obtain ⟨hheadParent, hbaseParent⟩ := List.ne_and_not_mem_of_not_mem_cons hparent
      cases target with
      | nil => exact ⟨_, steps?_nil_right differs (head :: base)⟩
      | cons targetHead target =>
          rw [steps?, if_neg hheadCurrent.symm, if_neg hheadParent.symm]
          split
          · rename_i hsame
            rw [← hsame.1]
            exact ih hbaseCurrent hbaseParent target
          · exact ⟨_, rfl⟩

section Absolute

variable {directory target : Path}

theorem exists_relativeSpecifier? (hdirectory : directory.isAbsolute = true)
    (hparent : .parent ∉ directory.location) (htarget : target.isAbsolute = true) :
    ∃ specifier, relativeSpecifier? directory target = some specifier := by
  obtain ⟨way, hlocation, hway⟩ := Path.exists_steps_of_isAbsolute hdirectory
  have hcurrent : Component.current ∉ directory.location := by
    rw [hlocation, List.mem_cons, not_or]
    exact ⟨nofun, fun hmem => (hway _ hmem).ne_current rfl⟩
  obtain ⟨steps, hsteps⟩ :=
    Location.exists_steps? hcurrent hparent false target.location
  rw [relativeSpecifier?, Path.relativeTo?, if_pos (htarget.trans hdirectory.symm), hsteps]
  exact ⟨_, rfl⟩

/-- An absolute path in normal form is spelled with the root and names. -/
theorem Path.exists_names_of_normal {path : Path} (habsolute : path.isAbsolute = true)
    (hnormal : path.normalize = path) :
    ∃ names, path = ofLocation (.root :: names) ∧ path.location = .root :: names ∧
      ∀ name ∈ names, name.IsName := by
  obtain ⟨names, hspelled, hnames⟩ := exists_names_of_isAbsolute habsolute
  rw [hnormal] at hspelled
  refine ⟨names, hspelled, ?_, hnames⟩
  rw [hspelled, location_ofLocation_root fun name hname => (hnames name hname).1]

/-- Normalizing an absolute path without `..` keeps its components. -/
theorem Path.location_normalize_of_plain {path : Path} (habsolute : path.isAbsolute = true)
    (hparent : .parent ∉ path.location) : path.normalize.location = path.location := by
  obtain ⟨steps, hlocation, hsteps⟩ := exists_steps_of_isAbsolute habsolute
  rw [hlocation, List.mem_cons, not_or] at hparent
  have hnormal : path.location.normalize = .root :: steps := by
    rw [hlocation]
    exact Location.normalize_append_names [.root] fun name hname =>
      ⟨hsteps name hname, fun hclimb => hparent.2 (hclimb ▸ hname)⟩
  rw [location_normalize_of_ne_nil (by simp [hnormal]), hnormal, hlocation]

/-- How an absolute target is addressed from an absolute directory depends on its components
alone. -/
theorem relativeSpecifier?_target_congr (hdirectory : directory.isAbsolute = true) {other : Path}
    (htarget : target.isAbsolute = true) (hsame : other.location = target.location) :
    relativeSpecifier? directory other = relativeSpecifier? directory target := by
  have hother : other.isAbsolute = true := (Path.isAbsolute_congr hsame).trans htarget
  rw [relativeSpecifier?, relativeSpecifier?, Path.relativeTo?, Path.relativeTo?, hother, htarget,
    hdirectory, hsame, if_pos rfl, if_pos rfl]

/-- A specifier leads from a directory without `..` to the target that it was made for. -/
theorem normalize_join_relativeSpecifier? (hdirectory : directory.isAbsolute = true)
    (hparent : .parent ∉ directory.location) (htarget : target.isAbsolute = true)
    (hnormal : target.normalize = target) {specifier : String}
    (hspecifier : relativeSpecifier? directory target = some specifier) :
    (directory.join ⟨specifier⟩).normalize = target := by
  obtain ⟨names, hspelled, -, hnames⟩ := Path.exists_names_of_normal htarget hnormal
  have hreaches := (relativeSpecifier?_reaches_iff hdirectory hspelled hnames (.inl rfl)
    hspecifier).mpr ⟨.inl rfl, .inl hparent⟩
  rwa [String.append_empty, String.append_empty] at hreaches

/-- The steps of a specifier behind the mark: out of the directory as far as the common part, and
then what the target has behind it. -/
theorem location_relativeSpecifier? (hdirectory : directory.isAbsolute = true)
    (htarget : target.isAbsolute = true) (hnormal : target.normalize = target)
    {specifier : String} (hspecifier : relativeSpecifier? directory target = some specifier) :
    ∃ mark out down, (mark = [] ∨ mark = [.current]) ∧
      directory.location = Location.shared directory.location target.location ++ out ∧
      target.location = Location.shared directory.location target.location ++ down ∧
      (Path.mk specifier).location = mark ++ (out.map (fun _ => .parent) ++ down) := by
  obtain ⟨names, hspelled, hlocation, hnames⟩ := Path.exists_names_of_normal htarget hnormal
  obtain ⟨common, out, down, hfork, rfl⟩ :=
    exists_fork hdirectory hspelled hnames hspecifier
  have hsteps : ∀ step ∈ out.map (fun _ => Component.parent) ++ down, step.IsStep := by
    refine List.forall_mem_append.mpr ⟨?_, fun step hstep => (hfork.down step hstep).1⟩
    exact List.forall_mem_map.mpr fun _ _ => Component.isStep_parent
  have hshared : Location.shared directory.location target.location = .root :: common := by
    rw [hfork.directory_eq, hlocation, hfork.target_eq, Location.shared_append _ hfork.apart]
  have hway := Path.location_ofLocation_steps hsteps
  have hmarked := Path.location_ensureDotted
    (Path.isAbsolute_eq_false_iff.mpr (hway.symm ▸ fun hmem => (hsteps _ hmem).ne_root rfl))
  rw [hway, Location.join_steps [.current] hsteps] at hmarked
  rw [hshared]
  rcases hmarked with hmarked | hmarked
  · exact ⟨[], out, down, .inl rfl, hfork.directory_eq, hlocation.trans hfork.target_eq, hmarked⟩
  · exact ⟨[.current], out, down, .inr rfl, hfork.directory_eq,
      hlocation.trans hfork.target_eq, hmarked⟩

end Absolute

/-- **The shortest way.**  From an absolute directory without `..` there is a specifier to every
absolute target without `..`.  It is marked as relative and leads to the target.  Behind a mark
`./`, if there is one, it has a `..` for each component of the directory behind the common part, and
then the components of the target behind it.  It is made for no other target. -/
theorem relativeSpecifier?_minimal (directory target : Path)
    (hdirectory : directory.isAbsolute = true) (hdirectoryPlain : .parent ∉ directory.location)
    (htarget : target.isAbsolute = true) (htargetPlain : .parent ∉ target.location) :
    let common := Location.shared directory.location target.location
    ∃ specifier mark, relativeSpecifier? directory target = some specifier ∧
      ("./".toList <+: specifier.toList ∨ "../".toList <+: specifier.toList) ∧
      (directory.join ⟨specifier⟩).normalize = target.normalize ∧
      target.normalize.location = target.location ∧
      (mark = [] ∨ mark = [.current]) ∧
      (Path.mk specifier).location = mark ++
        (List.replicate (directory.location.length - common.length) .parent ++
          target.location.drop common.length) ∧
      ∀ other : Path, other.isAbsolute = true → .parent ∉ other.location →
        relativeSpecifier? directory other = some specifier → other.location = target.location := by
  intro common
  -- the normal form of a target has the same specifier
  have hnormal : ∀ path : Path, path.isAbsolute = true → .parent ∉ path.location →
      path.normalize.location = path.location ∧ path.normalize.isAbsolute = true ∧
        relativeSpecifier? directory path.normalize = relativeSpecifier? directory path := by
    intro path habsolute hparent
    have hlocation := Path.location_normalize_of_plain habsolute hparent
    exact ⟨hlocation, (Path.isAbsolute_congr hlocation).trans habsolute,
      relativeSpecifier?_target_congr hdirectory habsolute hlocation⟩
  have hleads : ∀ path : Path, path.isAbsolute = true → .parent ∉ path.location →
      ∀ specifier, relativeSpecifier? directory path = some specifier →
        (directory.join ⟨specifier⟩).normalize = path.normalize := by
    intro path habsolute hparent specifier hspecifier
    obtain ⟨-, hnormalAbsolute, hsame⟩ := hnormal path habsolute hparent
    exact normalize_join_relativeSpecifier? hdirectory hdirectoryPlain hnormalAbsolute
      path.normalize_normalize (hsame.trans hspecifier)
  obtain ⟨specifier, hspecifier⟩ := exists_relativeSpecifier? hdirectory hdirectoryPlain htarget
  obtain ⟨htargetLocation, htargetAbsolute, hsame⟩ := hnormal target htarget htargetPlain
  obtain ⟨mark, out, down, hmark, hout, hdown, hlocation⟩ := location_relativeSpecifier?
    hdirectory htargetAbsolute target.normalize_normalize (hsame.trans hspecifier)
  rw [htargetLocation] at hout hdown
  have hclimbs : out.map (fun _ => Component.parent) =
      List.replicate (directory.location.length - common.length) .parent := by
    have hlength := congrArg List.length hout
    rw [List.length_append] at hlength
    rw [List.map_const', hlength, Nat.add_sub_cancel_left]
  have hrest : down = target.location.drop common.length :=
    (List.drop_left.symm.trans (congrArg (List.drop common.length) hdown.symm))
  refine ⟨specifier, mark, hspecifier, ?_, hleads target htarget htargetPlain specifier hspecifier,
    htargetLocation, hmark, by rw [hlocation, hclimbs, hrest], ?_⟩
  · obtain ⟨path, -, rfl⟩ := Option.map_eq_some_iff.mp hspecifier
    exact ensureDotted_dotted path.text
  · intro other hother hotherPlain hotherSpecifier
    have hreached := (hleads other hother hotherPlain specifier hotherSpecifier).symm.trans
      (hleads target htarget htargetPlain specifier hspecifier)
    rw [← (hnormal other hother hotherPlain).1, hreached, htargetLocation]

/-- A target in a directory beside, whose name begins with dots. -/
theorem relativeSpecifier?_minimal_sample :
    relativeSpecifier? ⟨"/p/dist/ui"⟩ ⟨"/p/dist/..a/b"⟩ = some "../..a/b" ∧
      ((⟨"/p/dist/ui"⟩ : Path).join ⟨"../..a/b"⟩).normalize = ⟨"/p/dist/..a/b"⟩ ∧
      ∃ mark, (Path.mk "../..a/b").location = mark ++ [.parent, .name "..a", .name "b"] := by
  obtain ⟨specifier, mark, hspecifier, -, hreaches, -, -, hlocation, -⟩ :=
    relativeSpecifier?_minimal ⟨"/p/dist/ui"⟩ ⟨"/p/dist/..a/b"⟩ (by decide +kernel)
      (by decide +kernel) (by decide +kernel) (by decide +kernel)
  have hcomputed : relativeSpecifier? ⟨"/p/dist/ui"⟩ ⟨"/p/dist/..a/b"⟩ = some "../..a/b" := by
    decide +kernel
  obtain rfl := Option.some.inj (hspecifier.symm.trans hcomputed)
  exact ⟨hcomputed, hreaches.trans (by decide +kernel), mark,
    hlocation.trans (congrArg (mark ++ ·) (by decide +kernel))⟩

end Dealias
