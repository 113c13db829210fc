import Dealias.Proofs.OrderedMap
import Dealias.Proofs.Path.Components
import Dealias.Store.Memory

/-!
# Trees that differ in contents

A run writes only files that are there already, so two moments of it show the same places, the same
links and the same faults, and differ in the contents of files and in how the tree was used.  Such
trees resemble each other (`MemoryTree.Resembles`), and every question about places has the same
answer in both.

A place that no link leads away from is plain (`MemoryTree.IsPlain`): it stands for itself.  Writing
a file at a plain place changes the content there and nowhere else.
-/

namespace Dealias

/-! ## Places below places -/

theorem Location.below?_eq_some_iff {ancestor place rest : Location} :
    Location.below? ancestor place = some rest ↔ place = ancestor ++ rest := by
  unfold Location.below?
  induction ancestor generalizing place with
  | nil => simp [List.isPrefixOf?]
  | cons first ancestor ih =>
      cases place with
      | nil => simp [List.isPrefixOf?]
      | cons component place =>
          by_cases hsame : first = component
          · simp [List.isPrefixOf?, hsame, ih]
          · simp [List.isPrefixOf?, hsame, Ne.symm hsame]

theorem Location.below?_eq_none_iff {ancestor place : Location} :
    Location.below? ancestor place = none ↔ ¬ ancestor <+: place := by
  rw [← not_iff_not, not_not, ← ne_eq, Option.ne_none_iff_exists']
  constructor
  · rintro ⟨rest, hrest⟩
    exact ⟨rest, (below?_eq_some_iff.mp hrest).symm⟩
  · rintro ⟨rest, hrest⟩
    exact ⟨rest, below?_eq_some_iff.mpr hrest.symm⟩

namespace MemoryTree

theorem hasFile_iff {tree : MemoryTree} {place : Location} :
    tree.hasFile place = true ↔ place ∈ tree.files.map Prod.fst := by
  rw [hasFile, content?, List.lookup_isSome_iff]
  simp only [List.mem_map, beq_iff_eq]
  constructor
  · rintro ⟨entry, hentry, hplace⟩
    exact ⟨entry, hentry, hplace.symm⟩
  · rintro ⟨entry, hentry, hplace⟩
    exact ⟨entry, hentry, hplace.symm⟩

/-! ## Plain places -/

/-- Whether no link is a place or an ancestor of it. -/
def IsPlain (tree : MemoryTree) (place : Location) : Prop :=
  ∀ link ∈ tree.links, ¬ link.1 <+: place

theorem hop?_eq_none_iff {links : List (Location × Location)} {place : Location} :
    hop? links place = none ↔ ∀ link ∈ links, ¬ link.1 <+: place := by
  simp [hop?, List.findSome?_eq_none_iff, Location.below?_eq_none_iff]

theorem IsPlain.follow_eq {tree : MemoryTree} {place : Location} (hplain : tree.IsPlain place)
    (steps : Nat) : follow tree.links (steps + 1) place = some place := by
  rw [follow, hop?_eq_none_iff.mpr hplain]

/-- A path to a plain place stands for it. -/
theorem IsPlain.resolve?_eq {tree : MemoryTree} {path : Path}
    (hplain : tree.IsPlain path.location) : tree.resolve? path = some path.location :=
  hplain.follow_eq 39

/-- No link stands at a plain place. -/
theorem IsPlain.hasLink_eq_false {tree : MemoryTree} {place : Location}
    (hplain : tree.IsPlain place) : tree.hasLink place = false := by
  rw [← Bool.not_eq_true, hasLink, List.lookup_isSome_iff]
  rintro ⟨link, hlink, hplace⟩
  exact hplain link hlink (beq_iff_eq.mp hplace ▸ List.prefix_refl _)

/-- A step below a plain place is plain unless it is a link. -/
theorem IsPlain.append {tree : MemoryTree} {place : Location} (hplain : tree.IsPlain place)
    {component : Component} (hlink : tree.hasLink (place ++ [component]) = false) :
    tree.IsPlain (place ++ [component]) := by
  intro link hmem hprefix
  rcases List.prefix_concat_iff.mp hprefix with heq | hprefix
  · have hfound : tree.hasLink (place ++ [component]) = true := by
      rw [hasLink, List.lookup_isSome_iff]
      exact ⟨link, hmem, by simp [heq]⟩
    rw [hlink] at hfound
    contradiction
  · exact hplain link hmem hprefix

/-! ## Resembling trees -/

/-- Whether another tree differs from a tree in the contents of files and in how it was used, and in
nothing else that a run can see. -/
structure Resembles (tree other : MemoryTree) : Prop where
  places : other.files.map Prod.fst = tree.files.map Prod.fst
  links : other.links = tree.links
  failingReads : other.failingReads = tree.failingReads
  failingWrites : other.failingWrites = tree.failingWrites
  failingListings : other.failingListings = tree.failingListings
  crashingReads : other.crashingReads = tree.crashingReads

namespace Resembles

theorem refl (tree : MemoryTree) : tree.Resembles tree := ⟨rfl, rfl, rfl, rfl, rfl, rfl⟩

variable {tree other third : MemoryTree}

theorem trans (hfirst : tree.Resembles other) (hsecond : other.Resembles third) :
    tree.Resembles third where
  places := hsecond.places.trans hfirst.places
  links := hsecond.links.trans hfirst.links
  failingReads := hsecond.failingReads.trans hfirst.failingReads
  failingWrites := hsecond.failingWrites.trans hfirst.failingWrites
  failingListings := hsecond.failingListings.trans hfirst.failingListings
  crashingReads := hsecond.crashingReads.trans hfirst.crashingReads

variable (hresembles : tree.Resembles other)
include hresembles

theorem isPlain_iff {place : Location} : other.IsPlain place ↔ tree.IsPlain place := by
  rw [IsPlain, IsPlain, hresembles.links]

theorem resolve?_eq (path : Path) : other.resolve? path = tree.resolve? path := by
  rw [resolve?, resolve?, hresembles.links]

theorem places_eq : other.places = tree.places := by
  rw [MemoryTree.places, MemoryTree.places, hresembles.places, hresembles.links]

theorem hasFile_eq (place : Location) : other.hasFile place = tree.hasFile place := by
  rw [Bool.eq_iff_iff, hasFile_iff, hasFile_iff, hresembles.places]

theorem hasDirectory_eq (place : Location) :
    other.hasDirectory place = tree.hasDirectory place := by
  rw [hasDirectory, hasDirectory, hresembles.places_eq]

theorem hasLink_eq (place : Location) : other.hasLink place = tree.hasLink place := by
  rw [hasLink, hasLink, hresembles.links]

theorem names_eq (place : Location) : other.names place = tree.names place := by
  rw [names, names, hresembles.places_eq]

theorem describe_eq (path : Path) : (other.describe path).1 = (tree.describe path).1 := by
  simp only [describe, hresembles.resolve?_eq, hresembles.hasFile_eq, hresembles.hasDirectory_eq,
    hresembles.hasLink_eq]

theorem list_eq (path : Path) : other.list path = tree.list path := by
  simp only [list, hresembles.resolve?_eq, hresembles.hasDirectory_eq, hresembles.names_eq,
    hresembles.failingListings]

theorem isPresent_eq (path : Path) : other.isPresent path = tree.isPresent path := by
  simp only [isPresent, hresembles.resolve?_eq, hresembles.hasFile_eq, hresembles.hasDirectory_eq]

theorem directoryBound_eq (path : Path) : other.directoryBound path = tree.directoryBound path := by
  rw [directoryBound, directoryBound, hresembles.places_eq, hresembles.links]

end Resembles

/-! ## Reading and writing at plain places -/

variable {tree : MemoryTree} {path : Path}

/-- What a read of a plain place answers. -/
theorem read_of_isPlain (hplain : tree.IsPlain path.location) :
    (tree.read path).1 =
      if tree.crashingReads.contains path.location then
        .crashed ("simulated crash while reading " ++ path.text)
      else if tree.failingReads.contains path.location then
        .failed (.io ("Failed to read " ++ path.text ++ ": permission denied"))
      else
        match tree.content? path.location with
        | none => .failed (.notFound path)
        | some bytes => .content bytes := by
  have hresolve := hplain.resolve?_eq
  unfold read
  generalize tree.resolve? path = resolved at hresolve ⊢
  subst hresolve
  rfl

/-- What a listing of a plain place answers. -/
theorem list_of_isPlain (hplain : tree.IsPlain path.location) :
    tree.list path =
      if tree.failingListings.contains path.location then
        .error (.io ("Failed to read directory " ++ path.text ++ ": permission denied"))
      else if tree.hasDirectory path.location then .ok (tree.names path.location)
      else .error (.notFound path) := by
  rw [list, hplain.resolve?_eq]

/-- Reading a plain place depends on the content there and on nothing that writes change. -/
theorem Resembles.read_eq {other : MemoryTree} (hresembles : tree.Resembles other)
    (hplain : tree.IsPlain path.location)
    (hcontent : other.content? path.location = tree.content? path.location) :
    (other.read path).1 = (tree.read path).1 := by
  rw [read_of_isPlain (hresembles.isPlain_iff.mpr hplain), read_of_isPlain hplain,
    hresembles.crashingReads, hresembles.failingReads, hcontent]

/-- Where a file can be read, another content can be read. -/
theorem Resembles.read_content {other : MemoryTree} (hresembles : tree.Resembles other)
    (hplain : tree.IsPlain path.location) {bytes content : ByteArray}
    (hread : (tree.read path).1 = .content bytes)
    (hcontent : other.content? path.location = some content) :
    (other.read path).1 = .content content := by
  rw [read_of_isPlain hplain] at hread
  rw [read_of_isPlain (hresembles.isPlain_iff.mpr hplain), hresembles.crashingReads,
    hresembles.failingReads, hcontent]
  split at hread
  · cases hread
  · rename_i hcrashing
    split at hread
    · cases hread
    · rename_i hfailing
      rw [if_neg hcrashing, if_neg hfailing]

/-- The refusal of a failing write. -/
def writeFault (path : Path) : StoreFault :=
  .io ("Failed to write " ++ path.text ++ ": read-only file system")

theorem write_of_failing (hfailing : tree.failingWrites.contains path.location = true)
    (content : ByteArray) : tree.write path content = (.error (writeFault path), tree) := by
  rw [write, if_pos hfailing]
  rfl

/-- What a write at a plain place does. -/
theorem write_of_isPlain (hplain : tree.IsPlain path.location)
    (hfailing : tree.failingWrites.contains path.location = false) (content : ByteArray) :
    tree.write path content =
      (.ok (), { tree.putFile path.location content with writes := path :: tree.writes }) := by
  rw [write, hfailing, hplain.resolve?_eq]
  rfl

/-- Writing a file that is there changes no place. -/
theorem resembles_write (hplain : tree.IsPlain path.location)
    (hfile : tree.hasFile path.location = true) (content : ByteArray) :
    tree.Resembles (tree.write path content).2 := by
  cases hfailing : tree.failingWrites.contains path.location with
  | true =>
      rw [write_of_failing hfailing]
      exact .refl tree
  | false =>
      rw [write_of_isPlain hplain hfailing]
      refine ⟨?_, rfl, rfl, rfl, rfl, rfl⟩
      change (upsert (Path.namedPlace path.location) content tree.files).map Prod.fst = _
      rw [Path.namedPlace_eq ⟨path, rfl⟩]
      exact keys_upsert_of_mem (hasFile_iff.mp hfile)

/-- A file that is put at a place is there, and the other files are as before. -/
theorem content?_putFile {place : Location} (hplace : Path.Names place) (content : ByteArray)
    (other : Location) :
    (tree.putFile place content).content? other =
      if other = place then some content else tree.content? other := by
  change (upsert (Path.namedPlace place) content tree.files).lookup other = _
  rw [Path.namedPlace_eq hplace]
  split
  · rename_i hsame
    rw [hsame, lookup_upsert_self]
  · rename_i hother
    exact lookup_upsert_of_ne hother

end MemoryTree
end Dealias
