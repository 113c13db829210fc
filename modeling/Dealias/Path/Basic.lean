/-!
# File paths

A path is a text.  Its meaning is the list of its components: an optional root, then names, with
empty segments and `.` segments left out.  Two paths are the same place name when their components
agree, whatever their texts, and paths are ordered component by component.

Joining works on texts, so a path that is built by joining keeps the spelling of its parts.
-/

namespace Dealias

/-! ## Components -/

/-- One step of a path.  A `.` is kept only at the start of a relative path. -/
inductive Component where
  | root
  | current
  | parent
  | name (text : String)
deriving DecidableEq, Repr

namespace Component

/-- The spelling of a component. -/
def text : Component → String
  | root => "/"
  | current => "."
  | parent => ".."
  | name text => text

/-- The kinds of components in ascending order. -/
def rank : Component → Nat
  | root => 0
  | current => 1
  | parent => 2
  | name _ => 3

/-- Components are ordered by kind, and names by their characters. -/
def compare : Component → Component → Ordering
  | name first, name second => Ord.compare first second
  | first, second => Ord.compare first.rank second.rank

/-- The component that a segment after the first one stands for, if any. -/
def ofSegment? : List Char → Option Component
  | [] => none
  | ['.'] => none
  | ['.', '.'] => some parent
  | segment => some (name (String.ofList segment))

end Component

/-- A place name: the components of a path. -/
abbrev Location := List Component

namespace Location

/-- Locations are ordered lexicographically, so a location comes before all that lie below it. -/
def compare (first second : Location) : Ordering :=
  List.compareLex Component.compare first second

/-- The part of `place` below `ancestor`, if `place` is `ancestor` or lies below it. -/
def below? (ancestor place : Location) : Option Location :=
  ancestor.isPrefixOf? place

/-- Continue from `base` with `tail`.  An absolute tail restarts, and a leading `.` of the tail
says nothing unless nothing stands before it. -/
def join (base : Location) : Location → Location
  | .root :: tail => .root :: tail
  | .current :: tail => if base = [] then .current :: tail else base ++ tail
  | tail => base ++ tail

end Location

/-! ## Splitting a text -/

/-- The segments between the slashes of a text, empty ones included. -/
def segments : List Char → List (List Char)
  | [] => [[]]
  | character :: rest =>
    if character = '/' then [] :: segments rest
    else
      match segments rest with
      | [] => [[character]]
      | segment :: others => (character :: segment) :: others

/-- The components that a text names. -/
def locationOf (text : List Char) : Location :=
  match segments text with
  | [] :: next :: others => .root :: (next :: others).filterMap Component.ofSegment?
  | ['.'] :: others => .current :: others.filterMap Component.ofSegment?
  | all => all.filterMap Component.ofSegment?

/-! ## Paths -/

/-- A path as it is written. -/
structure Path where
  text : String
deriving DecidableEq, Repr, Inhabited

namespace Path

/-- The components of a path. -/
def location (path : Path) : Location :=
  locationOf path.text.toList

/-- Whether some path names a place. -/
def Names (place : Location) : Prop :=
  ∃ path : Path, path.location = place

/-- A path is absolute when it starts at the root. -/
def isAbsolute (path : Path) : Bool :=
  path.text.toList.head? == some '/'

/-- Whether two paths have the same components. -/
def sameAs (first second : Path) : Bool :=
  first.location == second.location

/-- Paths are ordered by their components. -/
def compare (first second : Path) : Ordering :=
  Location.compare first.location second.location

/-- The order of paths as a test for sorting. -/
def le (first second : Path) : Bool :=
  first.compare second != .gt

/-- `tail` seen from `base`, as a text: an absolute tail stands alone, and a slash is added only
where `base` does not already end in one. -/
def join (base tail : Path) : Path :=
  if tail.isAbsolute then tail
  else if base.text.toList = [] ∨ base.text.toList.getLast? = some '/' then
    ⟨base.text ++ tail.text⟩
  else ⟨base.text ++ "/" ++ tail.text⟩

/-- The plainest path with the given components. -/
def ofLocation (place : Location) : Path :=
  place.foldl (fun path component => path.join ⟨component.text⟩) ⟨""⟩

/-- The path without its last component.  The root and the empty path have no parent. -/
def parent? (path : Path) : Option Path :=
  match path.location.getLast? with
  | none => none
  | some .root => none
  | some _ => some (ofLocation path.location.dropLast)

/-- The place that the plainest spelling of a location names: the location itself whenever any path
names it. -/
def namedPlace (place : Location) : Location :=
  (ofLocation place).location

/-- Add `.` and an extension after the whole text, whatever dots it already has. -/
def appendExtension (path : Path) (extension : String) : Path :=
  ⟨path.text ++ "." ++ extension⟩

end Path

/-! ## Extensions -/

/-- The text after the last dot, if there is a dot. -/
def afterLastDot? : List Char → Option (List Char)
  | [] => none
  | character :: rest =>
    match afterLastDot? rest with
    | some found => some found
    | none => if character = '.' then some rest else none

/-- The extension of a file name.  A dot in front of the name starts no extension. -/
def extensionOfName? : List Char → Option (List Char)
  | [] => none
  | _ :: rest => afterLastDot? rest

/-- The extension of the last component, which has to be a name. -/
def Path.extension? (path : Path) : Option String :=
  match path.location.getLast? with
  | some (.name text) => (extensionOfName? text.toList).map String.ofList
  | _ => none

end Dealias
