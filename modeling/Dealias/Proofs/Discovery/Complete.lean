import Dealias.Proofs.Discovery.Termination

/-!
# Discovery lists exactly the emitted sources

`discover_exact` says which stored files a discovery lists: the sources strictly below the root that
no link and no failing directory hides, and that have nothing below them.

## Strategy

A walk comes to a place only through directories that it has listed, which gives one direction.  For
the other one, every emitted source is found already or lies below a directory that waits
(`Walk.Covers`): a visit takes one directory away, and what lay below it lies below one of its
entries, or is one.  A walk that has ended has no directory left to wait, and by
`exists_ended_of_discoverIn` the walk of a discovery ends.
-/

namespace Dealias

variable {tree : MemoryTree} {root : Path}

/-! ## Emitted sources -/

theorem Path.isSource_iff {path : Path} :
    path.isSource = true ↔
      ∃ extension ∈ ["js", "jsx", "ts", "tsx"], path.extension? = some extension := by
  unfold isSource
  cases path.extension? with
  | none => simp
  | some extension => simp [sourceExtensions]

/-- Whether no directory between a root and a place fails to be listed. -/
def MemoryTree.IsListed (tree : MemoryTree) (root : Path) (place : Location) : Prop :=
  ∀ directory, root.location <+: directory → directory ≠ root.location →
    directory <+: place → directory ≠ place → directory ∉ tree.failingListings

/-- Whether a path names an emitted source below a root. -/
structure MemoryTree.IsEmitted (tree : MemoryTree) (root file : Path) : Prop where
  below : root.location <+: file.location
  ne_root : file.location ≠ root.location
  source : ∃ extension ∈ ["js", "jsx", "ts", "tsx"], file.extension? = some extension
  /-- Neither the file nor what it lies below is a link. -/
  noLink : ∀ link ∈ tree.links, ¬ link.1 <+: file.location
  listed : tree.IsListed root file.location
  /-- Nothing lies below the file. -/
  leaf : ∀ place ∈ tree.places, file.location <+: place → place = file.location

namespace MemoryTree

/-- Whether a source is emitted is a question about its place. -/
theorem IsEmitted.congr {first second : Path} (hfirst : tree.IsEmitted root first)
    (hsame : first.location = second.location) : tree.IsEmitted root second where
  below := hsame ▸ hfirst.below
  ne_root := hsame ▸ hfirst.ne_root
  source := by
    rw [Path.extension?, ← hsame]
    exact hfirst.source
  noLink := hsame ▸ hfirst.noLink
  listed := hsame ▸ hfirst.listed
  leaf := hsame ▸ hfirst.leaf

theorem hasDirectory_eq_false_iff {place : Location} :
    tree.hasDirectory place = false ↔
      ∀ entry ∈ tree.places, place <+: entry → entry = place := by
  rw [← Bool.not_eq_true, hasDirectory_iff]
  constructor
  · intro hnone entry hentry hprefix
    obtain ⟨rest, rfl⟩ := hprefix
    cases rest with
    | nil => exact List.append_nil place
    | cons component rest => exact absurd ⟨component, rest, hentry⟩ hnone
  · rintro hleaf ⟨component, rest, hentry⟩
    have hsame := hleaf _ hentry (List.prefix_append ..)
    simp at hsame

/-- The step from a place to a file that lies below it. -/
theorem exists_of_hasFile {place : Location} {file : Path}
    (hstored : tree.hasFile file.location = true) (hbelow : place <+: file.location)
    (hne : place ≠ file.location) :
    ∃ component rest, file.location = place ++ component :: rest ∧
      place ++ component :: rest ∈ tree.places := by
  obtain ⟨rest, hfile⟩ := hbelow
  cases rest with
  | nil => exact absurd ((List.append_nil _).symm.trans hfile) hne
  | cons component rest =>
      exact ⟨component, rest, hfile.symm,
        hfile ▸ List.mem_append_left _ (hasFile_iff.mp hstored)⟩

/-- Behind a directory that can be listed nothing else is on the way to its entries. -/
theorem IsListed.append {place : Location} (hlisted : tree.IsListed root place)
    (hfailing : place ∉ tree.failingListings) (component : Component) :
    tree.IsListed root (place ++ [component]) := by
  intro directory hbelow hroot hprefix hne
  have hdirectory : directory <+: place := by
    rcases List.prefix_concat_iff.mp hprefix with hsame | hprefix
    · exact absurd hsame hne
    · exact hprefix
  by_cases hsame : directory = place
  · exact hsame ▸ hfailing
  · exact hlisted directory hbelow hroot hdirectory hsame

end MemoryTree

/-! ## What a walk has come to -/

/-- Whether a file is found, or lies below a directory that waits. -/
def Walk.Covers (walk : Walk) (file : Path) : Prop :=
  (∃ found ∈ walk.found, found.location = file.location) ∨
    ∃ directory ∈ walk.pending, directory.location <+: file.location ∧
      directory.location ≠ file.location

/-- Whether a walk has come to emitted sources and to no other files. -/
structure Walk.Exact (tree : MemoryTree) (root : Path) (walk : Walk) : Prop where
  sound : Sound tree root walk
  listed : ∀ directory ∈ walk.pending, tree.IsListed root directory.location
  emitted : ∀ file ∈ walk.found, tree.IsEmitted root file
  covered : ∀ file, tree.hasFile file.location = true → tree.IsEmitted root file →
    walk.Covers file

namespace Walk

theorem exact_start (hplain : tree.IsPlain root.location) : Exact tree root (start root) where
  sound := sound_start hplain
  listed := by
    intro directory hdirectory between hbelow hroot hprefix _
    obtain rfl := List.mem_singleton.mp hdirectory
    have hsame : between = directory.location :=
      hprefix.eq_of_length_le hbelow.length_le
    exact absurd hsame hroot
  emitted := nofun
  covered file _ hemitted :=
    .inr ⟨root, List.mem_singleton_self root, hemitted.below, hemitted.ne_root.symm⟩

variable {directory : Path} {names : List String} {walk : Walk}

theorem Covers.addEntriesIn {file : Path} (hcovers : walk.Covers file) :
    (addEntriesIn tree directory names walk).Covers file := by
  rw [addEntriesIn_eq]
  rcases hcovers with ⟨found, hfound, hsame⟩ | ⟨other, hother, hbelow⟩
  · exact .inl ⟨found, List.mem_append_right _ hfound, hsame⟩
  · exact .inr ⟨other, List.mem_append_right _ hother, hbelow⟩

/-- An emitted source below a directory is covered by one of the directory's entries. -/
theorem covers_addEntriesIn (hdirectory : directory.location ≠ []) {file : Path}
    (hstored : tree.hasFile file.location = true) (hemitted : tree.IsEmitted root file)
    (hbelow : directory.location <+: file.location) (hne : directory.location ≠ file.location) :
    (addEntriesIn tree directory (tree.names directory.location) walk).Covers file := by
  obtain ⟨component, rest, hfile, hentry⟩ := MemoryTree.exists_of_hasFile hstored hbelow hne
  have hname : component.text ∈ tree.names directory.location :=
    MemoryTree.mem_names.mpr ⟨component, rest, hentry, rfl⟩
  have hcomponent : component.IsStep := Path.Names.isStep ⟨file, hfile⟩ hdirectory
  have hpath := Path.location_join_step directory hcomponent
  -- the entry is the file or an ancestor of it, so it is no link
  have hprefix : (directory.join ⟨component.text⟩).location <+: file.location := by
    rw [hpath, hfile]
    exact ⟨rest, by simp⟩
  have hplain : tree.IsPlain (directory.join ⟨component.text⟩).location := fun link hlink h =>
    hemitted.noLink link hlink (h.trans hprefix)
  have hlink := hplain.hasLink_eq_false
  have hmem : directory.join ⟨component.text⟩ ∈
      (tree.names directory.location).map fun name => directory.join ⟨name⟩ :=
    List.mem_map.mpr ⟨_, hname, rfl⟩
  rw [addEntriesIn_eq]
  cases rest with
  | nil =>
      have hsame : (directory.join ⟨component.text⟩).location = file.location :=
        hpath.trans hfile.symm
      have hleaf := MemoryTree.hasDirectory_eq_false_iff.mpr hemitted.leaf
      have hsource : (directory.join ⟨component.text⟩).isSource = true := by
        rw [Path.isSource_iff, Path.extension?, hsame]
        exact hemitted.source
      refine .inl ⟨_, ?_, hsame⟩
      refine List.mem_append_left _ (List.mem_reverse.mpr (List.mem_filter.mpr ⟨hmem, ?_⟩))
      simp [MemoryTree.isSourceEntry, hplain.resolve?_eq, hsame ▸ hlink, hsame, hleaf, hstored,
        hsource]
  | cons next rest =>
      have hdirectory' : tree.hasDirectory (directory.join ⟨component.text⟩).location = true :=
        MemoryTree.hasDirectory_iff.mpr ⟨next, rest, by rw [hpath]; simpa using hentry⟩
      refine .inr ⟨_, ?_, hprefix, ?_⟩
      · refine List.mem_append_left _ (List.mem_reverse.mpr (List.mem_filter.mpr ⟨hmem, ?_⟩))
        simp [MemoryTree.isDirectoryEntry, hplain.resolve?_eq, hlink, hdirectory']
      · rw [hpath, hfile]
        simp

/-- A source that a walk finds in a directory is emitted. -/
theorem emitted_of_isSourceEntry {path : Path} {component : Component}
    (hpath : path.location = directory.location ++ [component])
    (hplain : tree.IsPlain directory.location) (hbelow : root.location <+: directory.location)
    (hlisted : tree.IsListed root path.location) (hentry : tree.isSourceEntry path = true) :
    tree.IsEmitted root path := by
  simp only [MemoryTree.isSourceEntry, Bool.and_eq_true, Bool.not_eq_true'] at hentry
  obtain ⟨⟨⟨hlink, hleaf⟩, -⟩, hsource⟩ := hentry
  have hplain' : tree.IsPlain path.location := by
    rw [hpath] at hlink ⊢
    exact hplain.append hlink
  rw [hplain'.resolve?_eq, Option.any_some] at hleaf
  refine ⟨?_, ?_, Path.isSource_iff.mp hsource, hplain', hlisted,
    MemoryTree.hasDirectory_eq_false_iff.mp hleaf⟩
  · rw [hpath]
    exact hbelow.trans (List.prefix_append ..)
  · intro hsame
    have hlength := hbelow.length_le
    rw [← hsame, hpath, List.length_append, List.length_singleton] at hlength
    omega

/-- Listing the next directory takes a walk to emitted sources and to no other files. -/
theorem Exact.addEntriesIn {pending found : List Path}
    (hexact : Exact tree root ⟨directory :: pending, found⟩) (hdirectory : directory.location ≠ [])
    (hfailing : directory.location ∉ tree.failingListings)
    (hsound : Sound tree root
      (addEntriesIn tree directory (tree.names directory.location) ⟨pending, found⟩)) :
    Exact tree root
      (addEntriesIn tree directory (tree.names directory.location) ⟨pending, found⟩) := by
  obtain ⟨hlisted, hothers⟩ := List.forall_mem_cons.mp hexact.listed
  have hplain := hexact.sound.plain directory (List.mem_cons_self ..)
  have hbelow := hexact.sound.below directory (List.mem_cons_self ..)
  have hentry : ∀ path ∈ (tree.names directory.location).map fun name => directory.join ⟨name⟩,
      ∃ component, path.location = directory.location ++ [component] ∧
        tree.IsListed root path.location := by
    rw [List.forall_mem_map]
    intro name hname
    obtain ⟨component, hcomponent, rfl⟩ := MemoryTree.isStep_of_mem_names hdirectory hname
    have hpath := Path.location_join_step directory hcomponent
    exact ⟨component, hpath, hpath ▸ hlisted.append hfailing component⟩
  refine ⟨hsound, ?_, ?_, ?_⟩
  · rw [addEntriesIn_eq]
    intro path hpath
    rcases List.mem_append.mp hpath with hpath | hpath
    · obtain ⟨-, -, hpathListed⟩ :=
        hentry path (List.mem_of_mem_filter (List.mem_reverse.mp hpath))
      exact hpathListed
    · exact hothers path hpath
  · rw [addEntriesIn_eq]
    intro file hfile
    rcases List.mem_append.mp hfile with hfile | hfile
    · obtain ⟨hfile, hsource⟩ := List.mem_filter.mp (List.mem_reverse.mp hfile)
      obtain ⟨component, hlocation, hfileListed⟩ := hentry file hfile
      exact emitted_of_isSourceEntry hlocation hplain hbelow hfileListed hsource
    · exact hexact.emitted file hfile
  · intro file hstored hemitted
    rcases hexact.covered file hstored hemitted with hfound | ⟨other, hmem, hprefix, hne⟩
    · exact Covers.addEntriesIn (.inl hfound)
    · rcases List.mem_cons.mp hmem with rfl | hmem
      · exact covers_addEntriesIn hdirectory hstored hemitted hprefix hne
      · exact Covers.addEntriesIn (.inr ⟨other, hmem, hprefix, hne⟩)

/-- A directory that cannot be listed has no emitted source below it. -/
theorem Exact.skip {pending found : List Path}
    (hexact : Exact tree root ⟨directory :: pending, found⟩)
    (hroot : directory.location ≠ root.location) {fault : StoreFault}
    (hlist : tree.list directory = .error fault) (hsound : Sound tree root ⟨pending, found⟩) :
    Exact tree root ⟨pending, found⟩ := by
  obtain ⟨-, hothers⟩ := List.forall_mem_cons.mp hexact.listed
  have hplain := hexact.sound.plain directory (List.mem_cons_self ..)
  have hbelow := hexact.sound.below directory (List.mem_cons_self ..)
  refine ⟨hsound, hothers, hexact.emitted, ?_⟩
  intro file hstored hemitted
  rcases hexact.covered file hstored hemitted with hfound | ⟨other, hmem, hprefix, hne⟩
  · exact .inl hfound
  rcases List.mem_cons.mp hmem with rfl | hmem
  · have hfailing : other.location ∉ tree.failingListings :=
      hemitted.listed _ hbelow hroot hprefix hne
    obtain ⟨component, rest, -, hentry⟩ := MemoryTree.exists_of_hasFile hstored hprefix hne
    have hdirectory : tree.hasDirectory other.location = true :=
      MemoryTree.hasDirectory_iff.mpr ⟨component, rest, hentry⟩
    rw [MemoryTree.list_of_isPlain hplain, if_neg (by simpa using hfailing),
      if_pos hdirectory] at hlist
    cases hlist
  · exact .inr ⟨other, hmem, hprefix, hne⟩

theorem Exact.visitIn (hroot : root.location ≠ []) {pending found : List Path}
    (hexact : Exact tree root ⟨directory :: pending, found⟩)
    (hvisit : visitIn tree root directory ⟨pending, found⟩ = .ok walk) : Exact tree root walk := by
  have hsound := hexact.sound.visitIn hroot hvisit
  have hplain := hexact.sound.plain directory (List.mem_cons_self ..)
  have hbelow := hexact.sound.below directory (List.mem_cons_self ..)
  have hplace : directory.location ≠ [] := fun hempty =>
    hroot (List.prefix_nil.mp (hempty ▸ hbelow))
  rcases visitIn_eq_ok hvisit with ⟨names, hlist, rfl⟩ | ⟨⟨fault, hlist⟩, hother, rfl⟩
  · obtain ⟨hfailing, -⟩ := MemoryTree.exists_of_list_ok hlist
    obtain rfl := MemoryTree.list_ok hplain hlist
    exact hexact.addEntriesIn hplace hfailing hsound
  · exact hexact.skip (by simpa [Path.sameAs] using hother) hlist hsound

end Walk

/-! ## Discovery -/

/-- **Discovery is exact.**  When no link is the root or an ancestor of it, a discovery that is not
refused lists stored files in strictly ascending order, and among them a stored file exactly when it
lies strictly below the root, has the extension of a source file, neither is a link nor lies below
one, no directory between the root and the file fails to be listed, and nothing lies below the
file. -/
theorem discover_exact (tree : MemoryTree) (root : Path) (budget : Nat) (files : List Path)
    (hroot : root.location ≠ []) (hplain : ∀ link ∈ tree.links, ¬ link.1 <+: root.location)
    (hbudget : tree.directoryBound root ≤ budget)
    (hdiscover : ((discover budget root).run (World.start tree)).1 = .ok files) :
    files.Pairwise (fun first second => first.compare second = .lt) ∧
      (∀ file ∈ files, tree.hasFile file.location = true) ∧
      ∀ file : Path, tree.hasFile file.location = true →
        ((∃ found ∈ files, found.location = file.location) ↔ tree.IsEmitted root file) := by
  have hstart : (World.start tree).Agrees tree :=
    World.agrees_start (.refl tree) (List.suffix_refl _)
  have hfiles : discoverIn tree budget root = .ok files :=
    ((finds_discover budget root).run hstart).2.1.symm.trans hdiscover
  obtain ⟨walk, hexplore, hended, rfl⟩ :=
    exists_ended_of_discoverIn MemoryTree.goesDown_isGrounded ⟨hroot, .inl hplain⟩ hbudget hfiles
  have hexact : walk.Exact tree root := Walk.exploreIn_induction
    (fun _ _ _ _ hexact hvisit => hexact.visitIn hroot hvisit) (Walk.exact_start hplain) hexplore
  have hdiscovered := hexact.sound.discovered
  have hfound : ∀ file, file ∈ walk.files ↔ file ∈ walk.found := fun file =>
    ((List.mergeSort_perm _ _).trans (List.reverse_perm _)).mem_iff
  refine ⟨?_, hdiscovered.stored, ?_⟩
  · have hdistinct := List.pairwise_map.mp hdiscovered.distinct
    refine (hdiscovered.sorted.and hdistinct).imp fun {first second} ⟨hle, hne⟩ => ?_
    exact Path.compare_eq_lt hle hne
  · intro file hstored
    constructor
    · rintro ⟨found, hmem, hsame⟩
      exact (hexact.emitted found ((hfound found).mp hmem)).congr hsame
    · intro hemitted
      rcases hexact.covered file hstored hemitted with ⟨found, hmem, hsame⟩ | ⟨directory, hmem, -⟩
      · exact ⟨found, (hfound found).mpr hmem, hsame⟩
      · rw [hended] at hmem
        cases hmem

/-- A tree with sources that are hidden from discovery: below a link, in a directory that fails to
be listed, and above another source. -/
def MemoryTree.hidingSample : MemoryTree :=
  let files := [
    [.name "a.js"], [.name "closed", .name "c.js"], [.name "sub", .name "b.ts"],
    [.name "sub", .name "d.js"], [.name "sub", .name "d.js", .name "e.js"],
    [.name "sub", .name "notes.json"], [.name "link", .name "f.js"]]
  let tree := files.foldl (fun tree steps =>
    tree.putFile (.root :: .name "p" :: .name "dist" :: steps) "".toUTF8) (MemoryTree.empty ⟨"/"⟩)
  { tree.putLink [.root, .name "p", .name "dist", .name "link"] [.root, .name "p", .name "lib"] with
    failingListings := [[.root, .name "p", .name "dist", .name "closed"]] }

/-- The sources that are not hidden are discovered. -/
theorem discover_exact_sample :
    ∃ files, ((discover (MemoryTree.hidingSample.directoryBound ⟨"/p/dist"⟩) ⟨"/p/dist"⟩).run
        (World.start MemoryTree.hidingSample)).1 = .ok files ∧
      files = [⟨"/p/dist/a.js"⟩, ⟨"/p/dist/sub/b.ts"⟩, ⟨"/p/dist/sub/d.js/e.js"⟩] ∧
      MemoryTree.hidingSample.IsEmitted ⟨"/p/dist"⟩ ⟨"/p/dist/sub/b.ts"⟩ ∧
      ∀ file ∈ ["/p/dist/closed/c.js", "/p/dist/sub/d.js", "/p/dist/link/f.js"],
        ¬ MemoryTree.hidingSample.IsEmitted ⟨"/p/dist"⟩ ⟨file⟩ := by
  have hexplore : ((Walk.explore ⟨"/p/dist"⟩
      (MemoryTree.hidingSample.directoryBound ⟨"/p/dist"⟩) (.start ⟨"/p/dist"⟩)).run
        (World.start MemoryTree.hidingSample)).1.toOption =
      some ⟨[], [⟨"/p/dist/sub/d.js/e.js"⟩, ⟨"/p/dist/sub/b.ts"⟩, ⟨"/p/dist/a.js"⟩]⟩ := by
    decide +kernel
  have hdiscover := discover_of_explore hexplore
  have hplain : ∀ link ∈ MemoryTree.hidingSample.links,
      ¬ link.1 <+: (⟨"/p/dist"⟩ : Path).location := by decide +kernel
  obtain ⟨-, -, hemitted⟩ := discover_exact MemoryTree.hidingSample ⟨"/p/dist"⟩ _ _
    (by decide +kernel) hplain (Nat.le_refl _) hdiscover
  have hfiles : Walk.files
      ⟨[], [⟨"/p/dist/sub/d.js/e.js"⟩, ⟨"/p/dist/sub/b.ts"⟩, ⟨"/p/dist/a.js"⟩]⟩ =
      [⟨"/p/dist/a.js"⟩, ⟨"/p/dist/sub/b.ts"⟩, ⟨"/p/dist/sub/d.js/e.js"⟩] :=
    List.mergeSort_of_pairwise (by decide +kernel)
  rw [hfiles] at hemitted hdiscover
  refine ⟨_, hdiscover, rfl, ?_, ?_⟩
  · exact (hemitted ⟨"/p/dist/sub/b.ts"⟩ (by decide +kernel)).mp ⟨_, by simp, rfl⟩
  · have hstored : ∀ file ∈ ["/p/dist/closed/c.js", "/p/dist/sub/d.js", "/p/dist/link/f.js"],
        MemoryTree.hidingSample.hasFile (⟨file⟩ : Path).location = true := by decide +kernel
    have hmissing : ∀ file ∈ ["/p/dist/closed/c.js", "/p/dist/sub/d.js", "/p/dist/link/f.js"],
        ¬ ∃ found ∈ [⟨"/p/dist/a.js"⟩, ⟨"/p/dist/sub/b.ts"⟩, ⟨"/p/dist/sub/d.js/e.js"⟩],
          Path.location found = (⟨file⟩ : Path).location := by decide +kernel
    intro file hfile
    rw [← hemitted ⟨file⟩ (hstored file hfile)]
    exact hmissing file hfile

end Dealias
