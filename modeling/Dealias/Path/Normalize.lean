import Dealias.Path.Basic

/-!
# Normal form of paths

A path is normalized by reading its components from left to right: `.` is dropped, and `..` takes
back the name before it, vanishes at the root, and is kept where there is nothing to take back.
Anchoring a path at a base directory joins and normalizes in one go.
-/

namespace Dealias

/-- Read one more component onto the components read so far, the last of them first. -/
def Location.absorb (read : List Component) : Component → List Component
  | .current => read
  | .parent =>
    match read with
    | .root :: _ => read
    | .name _ :: before => before
    | _ => .parent :: read
  | component => component :: read

/-- The normal form of a location. -/
def Location.normalize (place : Location) : Location :=
  (place.foldl Location.absorb []).reverse

namespace Path

/-- The normal form of a path; what names no component at all is written `.`. -/
def normalize (path : Path) : Path :=
  match path.location.normalize with
  | [] => ⟨"."⟩
  | place => ofLocation place

/-- The normal form of `path` as seen from `base`. -/
def anchor (path base : Path) : Path :=
  if path.isAbsolute then path.normalize else (base.join path).normalize

end Path
end Dealias
