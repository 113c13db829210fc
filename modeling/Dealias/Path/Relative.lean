import Dealias.Path.Basic

/-!
# Relative specifiers

An import specifier that addresses a file starts with `./` or `../`.  The specifier from a
directory to a target climbs out of the directory to the last common ancestor and descends to the
target from there.
-/

namespace Dealias

/-- The steps from `base` to `target`.  While nothing differs, equal components are skipped; after
that every component left in `base` is climbed out of.  There is no way out of a `..`. -/
def Location.steps? (differs : Bool) : (base target : Location) → Option Location
  | [], target => some target
  | _ :: base, [] => (Location.steps? true base []).map (.parent :: ·)
  | baseHead :: base, targetHead :: target =>
    if differs = false ∧ targetHead = baseHead then Location.steps? false base target
    else if baseHead = .current then
      (Location.steps? true base target).map (targetHead :: ·)
    else if baseHead = .parent then none
    else some (.parent :: (base.map fun _ => .parent) ++ targetHead :: target)

/-- The path from `base` to `target`.  An absolute target is its own path from a relative base. -/
def Path.relativeTo? (target base : Path) : Option Path :=
  if target.isAbsolute = base.isAbsolute then
    (Location.steps? false base.location target.location).map Path.ofLocation
  else if target.isAbsolute then some target
  else none

/-- Mark a specifier as a file address unless it already is marked. -/
def ensureDotted (specifier : String) : String :=
  match specifier.toList with
  | '.' :: '/' :: _ => specifier
  | '.' :: '.' :: '/' :: _ => specifier
  | _ => "./" ++ specifier

/-- The specifier that reaches `target` from a module in `directory`, if there is one. -/
def relativeSpecifier? (directory target : Path) : Option String :=
  (target.relativeTo? directory).map fun path => ensureDotted path.text

end Dealias
