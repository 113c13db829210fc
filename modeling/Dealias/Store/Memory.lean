import Dealias.OrderedMap
import Dealias.Path.Order
import Dealias.Store.Basic

/-!
# Stored trees in memory

A tree of files and links that stand at places; a directory exists as soon as something lies below
it.  A link is followed wherever it stands in a path: the first link, in the order of places, that
is the path or an ancestor of it is replaced by its target, again and again, for a limited number
of hops.

Reads, writes and listings can be made to fail, and reads to crash, for single places.  The tree
counts how it is used.
-/

namespace Dealias

/-- A tree of files in memory. -/
structure MemoryTree where
  workingDirectory : Path
  files : List (Location × ByteArray)
  /-- The links and their targets. -/
  links : List (Location × Location)
  failingReads : List Location
  failingWrites : List Location
  failingListings : List Location
  crashingReads : List Location
  /-- The places read so far, the latest first. -/
  reads : List Location
  /-- The paths written so far, the latest first. -/
  writes : List Path
  /-- How often a path was described. -/
  probes : Nat
  /-- One file at most stands at a place. -/
  distinct : (files.map Prod.fst).Nodup
  /-- Files and links stand at places that paths name, and links lead to such places. -/
  named : ∀ place ∈ files.map Prod.fst ++ links.map Prod.fst ++ links.map Prod.snd,
    Path.Names place
  /-- Links stand in ascending order of places, one at most at a place. -/
  ordered : links.Pairwise fun first second => Location.compare first.1 second.1 = .lt

namespace MemoryTree

/-- The tree without files. -/
def empty (workingDirectory : Path) : MemoryTree where
  workingDirectory
  files := []
  links := []
  failingReads := []
  failingWrites := []
  failingListings := []
  crashingReads := []
  reads := []
  writes := []
  probes := 0
  distinct := List.nodup_nil
  named := by simp
  ordered := .nil

/-! ## Building -/

/-- Put a file at a place, over the one that is there. -/
def putFile (tree : MemoryTree) (place : Location) (content : ByteArray) : MemoryTree :=
  { tree with
    files := upsert (Path.namedPlace place) content tree.files
    distinct := nodup_keys_upsert _ content tree.distinct
    named := by
      intro other hother
      simp only [List.mem_append, mem_keys_upsert] at hother
      rcases hother with ((rfl | hfile) | hlink) | htarget
      · exact ⟨_, rfl⟩
      all_goals exact tree.named other (by simp_all) }

/-- Insert a link where its place belongs, over the one that is there. -/
def insertLink (place target : Location) :
    List (Location × Location) → List (Location × Location)
  | [] => [(place, target)]
  | link :: others =>
    match Location.compare place link.1 with
    | .lt => (place, target) :: link :: others
    | .eq => (place, target) :: others
    | .gt => link :: insertLink place target others

theorem mem_insertLink {place target : Location} {links : List (Location × Location)}
    {link : Location × Location} (hlink : link ∈ insertLink place target links) :
    link = (place, target) ∨ link ∈ links := by
  induction links with
  | nil => simpa [insertLink] using hlink
  | cons first others ih =>
      rw [insertLink] at hlink
      split at hlink
      · simpa using hlink
      · rcases List.mem_cons.mp hlink with h | h
        · exact .inl h
        · exact .inr (List.mem_cons_of_mem _ h)
      · rcases List.mem_cons.mp hlink with rfl | h
        · exact .inr (List.mem_cons_self ..)
        · exact (ih h).imp_right (List.mem_cons_of_mem _)

theorem pairwise_insertLink {place target : Location} {links : List (Location × Location)}
    (hordered : links.Pairwise fun first second => Location.compare first.1 second.1 = .lt) :
    (insertLink place target links).Pairwise fun first second =>
      Location.compare first.1 second.1 = .lt := by
  induction links with
  | nil => exact List.pairwise_singleton ..
  | cons first others ih =>
      obtain ⟨hfirst, hothers⟩ := List.pairwise_cons.mp hordered
      rw [insertLink]
      split
      · rename_i hbefore
        refine List.pairwise_cons.mpr ⟨fun link hlink => ?_, hordered⟩
        rcases List.mem_cons.mp hlink with rfl | hlink
        · exact hbefore
        · exact Std.TransCmp.lt_trans hbefore (hfirst link hlink)
      · rename_i hsame
        obtain rfl := Std.LawfulEqCmp.eq_of_compare hsame
        exact List.pairwise_cons.mpr ⟨hfirst, hothers⟩
      · rename_i hbehind
        refine List.pairwise_cons.mpr ⟨fun link hlink => ?_, ih hothers⟩
        rcases mem_insertLink hlink with rfl | hlink
        · exact Std.OrientedCmp.lt_of_gt hbehind
        · exact hfirst link hlink

/-- Put a link at a place, over the one that is there. -/
def putLink (tree : MemoryTree) (place target : Location) : MemoryTree :=
  { tree with
    links := insertLink (Path.namedPlace place) (Path.namedPlace target) tree.links
    named := by
      intro other hother
      simp only [List.mem_append, List.mem_map] at hother
      rcases hother with (hfile | ⟨link, hlink, rfl⟩) | ⟨link, hlink, rfl⟩
      · exact tree.named other (by simp_all)
      all_goals
        rcases mem_insertLink hlink with rfl | hlink
        · exact ⟨_, rfl⟩
        · exact tree.named _ (by simp; grind)
    ordered := pairwise_insertLink tree.ordered }

/-! ## Following links -/

/-- The number of steps after which following links is given up. -/
def linkSteps : Nat := 40

/-- Replace the first link that is a place or an ancestor of it by its target. -/
def hop? (links : List (Location × Location)) (place : Location) : Option Location :=
  links.findSome? fun link =>
    (Location.below? link.1 place).map fun rest =>
      if rest = [] then link.2 else Location.join link.2 rest

/-- Follow links until none applies.  The last step has to find that none does. -/
def follow (links : List (Location × Location)) : (steps : Nat) → Location → Option Location
  | 0, _ => none
  | steps + 1, place =>
    match hop? links place with
    | none => some place
    | some next => follow links steps next

/-- The place that a path stands for behind all links. -/
def resolve? (tree : MemoryTree) (path : Path) : Option Location :=
  follow tree.links linkSteps path.location

/-! ## Looking -/

/-- The places at which something stands. -/
def places (tree : MemoryTree) : List Location :=
  tree.files.map Prod.fst ++ tree.links.map Prod.fst

/-- Whether a place lies strictly below another. -/
def isBelow (ancestor place : Location) : Bool :=
  match Location.below? ancestor place with
  | some (_ :: _) => true
  | _ => false

/-- The content of the file at a place. -/
def content? (tree : MemoryTree) (place : Location) : Option ByteArray :=
  tree.files.lookup place

/-- Whether a file stands at a place. -/
def hasFile (tree : MemoryTree) (place : Location) : Bool :=
  (tree.content? place).isSome

/-- Whether something lies below a place. -/
def hasDirectory (tree : MemoryTree) (place : Location) : Bool :=
  tree.places.any (isBelow place)

/-- Whether a link stands at a place. -/
def hasLink (tree : MemoryTree) (place : Location) : Bool :=
  (tree.links.lookup place).isSome

/-- Insert a name where it belongs in an ascending list without repetition. -/
def insertName (name : String) : List String → List String
  | [] => [name]
  | other :: others =>
    if name = other then other :: others
    else if name < other then name :: other :: others
    else other :: insertName name others

/-- The names right below a place, in ascending order. -/
def names (tree : MemoryTree) (place : Location) : List String :=
  (tree.places.filterMap fun entry =>
    match Location.below? place entry with
    | some (component :: _) => some component.text
    | _ => none).foldr insertName []

/-- How often a path was read. -/
def readCount (tree : MemoryTree) (path : Path) : Nat :=
  tree.reads.count path.location

/-! ## Operations -/

/-- Read a file.  A crash comes before every refusal. -/
def read (tree : MemoryTree) (path : Path) : ReadResult × MemoryTree :=
  let result :=
    if tree.crashingReads.contains path.location then
      .crashed ("simulated crash while reading " ++ path.text)
    else if tree.failingReads.contains path.location then
      .failed (.io ("Failed to read " ++ path.text ++ ": permission denied"))
    else
      match tree.resolve? path with
      | none => .failed (.io ("Too many levels of symbolic links: " ++ path.text))
      | some place =>
        match tree.content? place with
        | none => .failed (.notFound path)
        | some bytes => .content bytes
  (result, { tree with reads := path.location :: tree.reads })

/-- Write a file, behind all links, or at the path itself when the links have no end. -/
def write (tree : MemoryTree) (path : Path) (content : ByteArray) :
    Except StoreFault Unit × MemoryTree :=
  if tree.failingWrites.contains path.location then
    (.error (.io ("Failed to write " ++ path.text ++ ": read-only file system")), tree)
  else
    let place := (tree.resolve? path).getD path.location
    (.ok (), { tree.putFile place content with writes := path :: tree.writes })

/-- Tell what stands at a path. -/
def describe (tree : MemoryTree) (path : Path) : Except StoreFault Metadata × MemoryTree :=
  let isLink := tree.hasLink path.location
  let result := match tree.resolve? path with
    | none => .ok ⟨false, false, isLink⟩
    | some place =>
      let metadata : Metadata := ⟨tree.hasDirectory place, tree.hasFile place, isLink⟩
      if metadata.isDirectory || metadata.isFile || isLink then .ok metadata
      else .error (.notFound path)
  (result, { tree with probes := tree.probes + 1 })

/-- List the names in a directory. -/
def list (tree : MemoryTree) (path : Path) : Except StoreFault (List String) :=
  if tree.failingListings.contains path.location then
    .error (.io ("Failed to read directory " ++ path.text ++ ": permission denied"))
  else
    match tree.resolve? path with
    | none => .error (.notFound path)
    | some place =>
      if tree.hasDirectory place then .ok (tree.names place) else .error (.notFound path)

/-- Whether a file or a directory stands at a path. -/
def isPresent (tree : MemoryTree) (path : Path) : Bool :=
  match tree.resolve? path with
  | none => false
  | some place => tree.hasFile place || tree.hasDirectory place

/-! ## The bound of a walk -/

/-- The greatest of some lengths. -/
def greatestLength (places : List Location) : Nat :=
  places.foldr (fun place greatest => max place.length greatest) 0

/-- A path that a walk descends to has no more steps than the deepest place, once for every hop
that can follow, so there are no more directories than words of that length over the names.  This
bounds all walks of a tree in which no link leads to the empty path; below such a link a walk can be
endless. -/
def directoryBound (tree : MemoryTree) (path : Path) : Nat :=
  let depth := greatestLength (path.location :: tree.places) +
    linkSteps * greatestLength (tree.places ++ tree.links.map Prod.snd)
  Nat.pow (tree.places.length + 2) (2 * (depth + 2))

instance : FileStore MemoryTree where
  read path tree := tree.read path
  write path content tree := tree.write path content
  describe path tree := tree.describe path
  list path tree := (tree.list path, tree)
  isPresent path tree := tree.isPresent path
  directoryBound path tree := tree.directoryBound path

end MemoryTree
end Dealias
