import Dealias.Discovery
import Dealias.Proofs.Path.Order
import Dealias.Proofs.Sharing

/-!
# What a walk finds

A walk is a function of the tree (`Walk.exploreIn`), whatever others do between its requests.  From
a plain directory it stays at plain places: it meets no link on the way down and follows none that
it meets.  The directories that wait and the files found stand apart, none of them below another, so
no file is found twice.

* `finds_discover`: a discovery ends as that function says (`discoverIn`).
* `discover_finds`: the discovered files stand at plain places below the root, are files of the
  tree, come in ascending order, and no two of them are at one place (`Discovered`).
* `within_discover`: whatever the answers are, they are source files at absolute paths.
* `onlyAsks_discover`: discovery asks only about places, so trees that resemble each other have the
  same discovered files.
-/

namespace Dealias

/-! ## Names of entries -/

/-- A component in front of a place that a path names is named by its own text. -/
theorem Path.location_mk_text_of_names {component : Component} {rest : Location}
    (hnames : Path.Names (component :: rest)) :
    (Path.mk component.text).location = [component] := by
  obtain ⟨path, hpath⟩ := hnames
  obtain ⟨front, steps, hlocation, hfront, hsteps⟩ := path.location_eq
  rw [hpath] at hlocation
  rcases hfront with rfl | rfl | rfl
  · exact location_mk_text (hsteps component (by rw [← List.nil_append steps, ← hlocation]; simp))
  · obtain rfl := (List.cons.inj hlocation).1
    rfl
  · obtain rfl := (List.cons.inj hlocation).1
    rfl

namespace MemoryTree

theorem mem_insertName {name other : String} {names : List String} :
    other ∈ insertName name names ↔ other = name ∨ other ∈ names := by
  induction names with
  | nil => simp [insertName]
  | cons first names ih =>
      unfold insertName
      split
      · rename_i hsame
        simp [hsame]
      split
      · simp
      · simp only [List.mem_cons, ih]
        constructor <;> rintro (h | h | h) <;> simp [h]

theorem pairwise_insertName {name : String} {names : List String}
    (hnames : names.Pairwise (· < ·)) : (insertName name names).Pairwise (· < ·) := by
  induction names with
  | nil => simp [insertName]
  | cons first names ih =>
      obtain ⟨hfirst, hothers⟩ := List.pairwise_cons.mp hnames
      unfold insertName
      split
      · exact hnames
      rename_i hdifferent
      split
      · rename_i hbefore
        refine List.pairwise_cons.mpr ⟨fun other hother => ?_, hnames⟩
        rcases List.mem_cons.mp hother with rfl | hother
        · exact hbefore
        · exact String.lt_trans hbefore (hfirst other hother)
      · rename_i hbefore
        refine List.pairwise_cons.mpr ⟨fun other hother => ?_, ih hothers⟩
        rcases mem_insertName.mp hother with rfl | hother
        · exact Std.lt_of_le_of_ne (String.not_lt.mp hbefore) (Ne.symm hdifferent)
        · exact hfirst other hother

theorem nodup_names (tree : MemoryTree) (place : Location) : (tree.names place).Nodup := by
  have hsorted : (tree.names place).Pairwise (· < ·) := by
    unfold names
    generalize List.filterMap _ tree.places = texts
    induction texts with
    | nil => exact .nil
    | cons text texts ih => exact pairwise_insertName ih
  refine List.Pairwise.imp (fun {first second} hbefore => ?_) hsorted
  rintro rfl
  exact String.lt_irrefl _ hbefore

/-- The names in a directory spell the steps to what is below the directory. -/
theorem mem_names {tree : MemoryTree} {place : Location} {name : String} :
    name ∈ tree.names place ↔
      ∃ component rest, place ++ component :: rest ∈ tree.places ∧ component.text = name := by
  have hmem : ∀ texts : List String, name ∈ texts.foldr insertName [] ↔ name ∈ texts := by
    intro texts
    induction texts with
    | nil => exact Iff.rfl
    | cons text texts ih => rw [List.foldr_cons, mem_insertName, ih, List.mem_cons]
  rw [names, hmem, List.mem_filterMap]
  constructor
  · rintro ⟨entry, hentry, hsome⟩
    split at hsome
    · rename_i component rest hbelow
      exact ⟨component, rest, Location.below?_eq_some_iff.mp hbelow ▸ hentry,
        Option.some.inj hsome⟩
    · cases hsome
  · rintro ⟨component, rest, hentry, rfl⟩
    exact ⟨_, hentry, by rw [Location.below?_eq_some_iff.mpr rfl]⟩

theorem isStep_of_mem_names {tree : MemoryTree} {place : Location} (hplace : place ≠ [])
    {name : String} (hname : name ∈ tree.names place) :
    ∃ component : Component, component.IsStep ∧ component.text = name := by
  obtain ⟨component, rest, hentry, htext⟩ := mem_names.mp hname
  have hnames : Path.Names (place ++ component :: rest) :=
    tree.named _ (List.mem_append_left _ hentry)
  exact ⟨component, hnames.isStep hplace, htext⟩

/-- The entries of a directory stand right below it by their paths too, unless a path that is not
empty leads to the empty place. -/
theorem exists_of_mem_names {tree : MemoryTree} {directory : Path} {place : Location}
    {name : String}
    (hempty : place = [] → directory.location = []) (hname : name ∈ tree.names place) :
    ∃ component : Component, component.text = name ∧
      (directory.join ⟨name⟩).location = directory.location ++ [component] := by
  by_cases hplace : place = []
  · subst hplace
    obtain ⟨component, rest, hentry, rfl⟩ := mem_names.mp hname
    have hnames : Path.Names (component :: rest) := tree.named _ (List.mem_append_left _ hentry)
    refine ⟨component, rfl, ?_⟩
    rw [Path.location_join, hempty rfl, Path.location_mk_text_of_names hnames]
    cases component <;> rfl
  · obtain ⟨component, hstep, rfl⟩ := isStep_of_mem_names hplace hname
    exact ⟨component, rfl, Path.location_join_step directory hstep⟩

theorem list_ok {tree : MemoryTree} {path : Path} (hplain : tree.IsPlain path.location)
    {names : List String} (hlist : tree.list path = .ok names) :
    names = tree.names path.location := by
  rw [list_of_isPlain hplain] at hlist
  split at hlist
  · cases hlist
  · split at hlist
    · exact (Except.ok.inj hlist).symm
    · cases hlist

end MemoryTree

/-! ## Standing apart -/

/-- Whether neither of two places is the other or lies below it. -/
def Location.Apart (first second : Location) : Prop :=
  ¬ first <+: second ∧ ¬ second <+: first

theorem Location.Apart.symm {first second : Location} (hapart : Apart first second) :
    Apart second first :=
  ⟨hapart.2, hapart.1⟩

/-- What stands apart from a directory stands apart from its entries. -/
theorem Location.Apart.append {other place : Location} (hapart : Apart other place)
    (component : Component) : Apart other (place ++ [component]) := by
  refine ⟨fun hprefix => ?_, fun hprefix => hapart.2 ((List.prefix_append ..).trans hprefix)⟩
  rcases List.prefix_concat_iff.mp hprefix with rfl | hprefix
  · exact hapart.2 (List.prefix_append ..)
  · exact hapart.1 hprefix

/-- Two entries of a directory stand apart. -/
theorem Location.apart_append (place : Location) {first second : Component}
    (hdifferent : first ≠ second) : Apart (place ++ [first]) (place ++ [second]) := by
  constructor <;> intro hprefix
  · exact hdifferent (by simpa using hprefix)
  · exact hdifferent.symm (by simpa using hprefix)

/-- The entries of a directory stand apart. -/
theorem pairwise_join {directory : Path} {names : List String} (hdistinct : names.Nodup)
    (hentries : ∀ name ∈ names, ∃ component : Component, component.text = name ∧
      (directory.join ⟨name⟩).location = directory.location ++ [component]) :
    (names.map fun name => directory.join ⟨name⟩).Pairwise fun first second =>
      Location.Apart first.location second.location := by
  rw [List.pairwise_map]
  refine hdistinct.imp_of_mem fun {first second} hfirst hsecond hdifferent => ?_
  obtain ⟨component, rfl, hcomponent⟩ := hentries first hfirst
  obtain ⟨component', rfl, hcomponent'⟩ := hentries second hsecond
  rw [hcomponent, hcomponent']
  exact Location.apart_append _ fun hsame => hdifferent (hsame ▸ rfl)

/-! ## The walk as a function of the tree -/

namespace MemoryTree

/-- Whether a path is a directory of its own, which a walk goes on to. -/
def isDirectoryEntry (tree : MemoryTree) (path : Path) : Bool :=
  !tree.hasLink path.location && (tree.resolve? path).any tree.hasDirectory

/-- Whether a path is a source file of its own, which a walk finds. -/
def isSourceEntry (tree : MemoryTree) (path : Path) : Bool :=
  !tree.hasLink path.location && !(tree.resolve? path).any tree.hasDirectory &&
    (tree.resolve? path).any tree.hasFile && path.isSource

/-- Whether a walk takes note of a path. -/
def isEntry (tree : MemoryTree) (path : Path) : Bool :=
  tree.isDirectoryEntry path || tree.isSourceEntry path

theorem isSourceEntry_of_isDirectoryEntry {tree : MemoryTree} {path : Path}
    (hdirectory : tree.isDirectoryEntry path = true) : tree.isSourceEntry path = false := by
  rw [isDirectoryEntry, Bool.and_eq_true] at hdirectory
  simp [isSourceEntry, hdirectory]

theorem hasLink_of_isEntry {tree : MemoryTree} {path : Path} (hentry : tree.isEntry path = true) :
    tree.hasLink path.location = false := by
  simp only [isEntry, isDirectoryEntry, isSourceEntry, Bool.or_eq_true, Bool.and_eq_true,
    Bool.not_eq_true'] at hentry
  tauto

end MemoryTree

namespace Walk

/-- The walk behind a look at an entry. -/
def addEntryIn (tree : MemoryTree) (walk : Walk) (path : Path) : Walk :=
  match (tree.describe path).1 with
  | .ok metadata => walk.addDescribed path metadata
  | .error _ => walk

/-- The walk behind a look at the named entries of a directory. -/
def addEntriesIn (tree : MemoryTree) (directory : Path) : List String → Walk → Walk
  | [], walk => walk
  | name :: names, walk =>
    addEntriesIn tree directory names (walk.addEntryIn tree (directory.join ⟨name⟩))

/-- The walk behind a visit of a directory, if it goes on. -/
def visitIn (tree : MemoryTree) (root directory : Path) (walk : Walk) : Except StoreFault Walk :=
  match tree.list directory with
  | .ok names => .ok (addEntriesIn tree directory names walk)
  | .error fault => if directory.sameAs root then .error fault else .ok walk

/-- The walk behind as many visits as the budget allows, if it goes on. -/
def exploreIn (tree : MemoryTree) (root : Path) : (budget : Nat) → Walk → Except StoreFault Walk
  | 0, walk => .ok walk
  | budget + 1, walk =>
    match walk.pending with
    | [] => .ok walk
    | directory :: pending =>
      match visitIn tree root directory { walk with pending } with
      | .ok walk => exploreIn tree root budget walk
      | .error fault => .error fault

variable {tree : MemoryTree} {root : Path}

theorem finds_addEntry (walk : Walk) (path : Path) :
    (walk.addEntry path).Finds tree (· = walk.addEntryIn tree path) := by
  refine (Program.finds_describe path).bind ?_
  rintro _ rfl
  unfold addEntryIn
  cases (tree.describe path).1 with
  | ok metadata => exact Program.finds_pure rfl
  | error fault => exact (Program.finds_emit _).bind fun _ _ => Program.finds_pure rfl

theorem finds_addEntries (directory : Path) (names : List String) (walk : Walk) :
    (addEntries directory names walk).Finds tree (· = addEntriesIn tree directory names walk) := by
  induction names generalizing walk with
  | nil => exact Program.finds_pure rfl
  | cons name names ih =>
      refine (finds_addEntry walk _).bind ?_
      rintro _ rfl
      exact ih _

theorem finds_visit (directory : Path) (walk : Walk) :
    (visit root directory walk).Finds tree (· = visitIn tree root directory walk) := by
  refine (Program.finds_list directory).bind ?_
  rintro _ rfl
  unfold visitIn
  cases tree.list directory with
  | ok names =>
      refine (finds_addEntries directory names walk).bind ?_
      rintro _ rfl
      exact Program.finds_pure rfl
  | error fault =>
      dsimp only
      split
      · exact Program.finds_pure rfl
      · exact (Program.finds_emit _).bind fun _ _ => Program.finds_pure rfl

/-- **Walks.**  A walk ends as the tree determines, whatever others do between its requests. -/
theorem finds_explore (budget : Nat) (walk : Walk) :
    (explore root budget walk).Finds tree (· = exploreIn tree root budget walk) := by
  induction budget generalizing walk with
  | zero => exact Program.finds_pure rfl
  | succ budget ih =>
      obtain ⟨pending, found⟩ := walk
      cases pending with
      | nil => exact Program.finds_pure rfl
      | cons directory pending =>
          refine (finds_visit directory _).bind ?_
          rintro _ rfl
          unfold exploreIn
          dsimp only
          cases visitIn tree root directory ⟨pending, found⟩ with
          | ok walk => exact ih walk
          | error fault => exact Program.finds_pure rfl

/-- What a look at an entry adds to a walk. -/
theorem addEntryIn_eq (walk : Walk) (path : Path) :
    walk.addEntryIn tree path =
      ⟨[path].filter tree.isDirectoryEntry ++ walk.pending,
        [path].filter tree.isSourceEntry ++ walk.found⟩ := by
  unfold addEntryIn MemoryTree.describe
  cases hresolve : tree.resolve? path with
  | none => simp [addDescribed, MemoryTree.isDirectoryEntry, MemoryTree.isSourceEntry, hresolve]
  | some place =>
      cases hlink : tree.hasLink path.location <;> cases hdirectory : tree.hasDirectory place <;>
        cases hfile : tree.hasFile place <;> cases hsource : path.isSource <;>
          simp [addDescribed, MemoryTree.isDirectoryEntry, MemoryTree.isSourceEntry, *]

/-- What a look at the named entries of a directory adds to a walk. -/
theorem addEntriesIn_eq (directory : Path) (names : List String) (walk : Walk) :
    addEntriesIn tree directory names walk =
      ⟨((names.map fun name => directory.join ⟨name⟩).filter tree.isDirectoryEntry).reverse ++
          walk.pending,
        ((names.map fun name => directory.join ⟨name⟩).filter tree.isSourceEntry).reverse ++
          walk.found⟩ := by
  induction names generalizing walk with
  | nil => rfl
  | cons name names ih =>
      rw [addEntriesIn, ih, addEntryIn_eq]
      simp only [List.map_cons, List.filter_cons, List.filter_nil]
      cases tree.isDirectoryEntry (directory.join ⟨name⟩) <;>
        cases tree.isSourceEntry (directory.join ⟨name⟩) <;> simp

/-- The directories that wait and the files found behind a look at the entries of a directory. -/
theorem perm_addEntriesIn (tree : MemoryTree) (directory : Path) (names : List String)
    (walk : Walk) :
    ((addEntriesIn tree directory names walk).pending ++
      (addEntriesIn tree directory names walk).found).Perm
      ((names.map fun name => directory.join ⟨name⟩).filter tree.isEntry ++
        (walk.pending ++ walk.found)) := by
  have hcount : ∀ (entries : List Path) (path : Path),
      (entries.filter tree.isEntry).count path =
        (entries.filter tree.isDirectoryEntry).count path +
          (entries.filter tree.isSourceEntry).count path := by
    intro entries path
    induction entries with
    | nil => rfl
    | cons entry entries ih =>
        have hentry : tree.isEntry entry =
            (tree.isDirectoryEntry entry || tree.isSourceEntry entry) := rfl
        cases hdirectory : tree.isDirectoryEntry entry with
        | true =>
            have hsource := MemoryTree.isSourceEntry_of_isDirectoryEntry hdirectory
            simp [hentry, hdirectory, hsource, List.count_cons, ih]
            omega
        | false =>
            cases hsource : tree.isSourceEntry entry <;>
              simp [hentry, hdirectory, hsource, List.count_cons, ih]
            omega
  rw [addEntriesIn_eq, List.perm_iff_count]
  intro path
  simp only [List.count_append, List.count_reverse, hcount]
  omega

/-- What holds of the paths of a walk, and of the entries that it takes note of, holds of its paths
behind a look at the entries. -/
theorem forall_mem_addEntriesIn {holds : Path → Prop} {directory : Path} {names : List String}
    {walk : Walk} (hwalk : ∀ path ∈ walk.pending ++ walk.found, holds path)
    (hentries : ∀ name ∈ names, tree.isEntry (directory.join ⟨name⟩) = true →
      holds (directory.join ⟨name⟩)) :
    ∀ path ∈ (addEntriesIn tree directory names walk).pending ++
      (addEntriesIn tree directory names walk).found, holds path := by
  intro path hpath
  rcases List.mem_append.mp ((perm_addEntriesIn tree directory names walk).mem_iff.mp hpath) with
    hnew | hold
  · obtain ⟨hmem, hentry⟩ := List.mem_filter.mp hnew
    obtain ⟨name, hname, rfl⟩ := List.mem_map.mp hmem
    exact hentries name hname hentry
  · exact hwalk path hold

/-- The entries of a directory that stands apart from all paths of a walk stand apart as well. -/
theorem pairwise_addEntriesIn {directory : Path} {names : List String} {walk : Walk}
    (hwalk : (walk.pending ++ walk.found).Pairwise fun first second =>
      Location.Apart first.location second.location)
    (hapart : ∀ other ∈ walk.pending ++ walk.found,
      Location.Apart directory.location other.location)
    (hdistinct : names.Nodup)
    (hentries : ∀ name ∈ names, ∃ component : Component, component.text = name ∧
      (directory.join ⟨name⟩).location = directory.location ++ [component]) :
    ((addEntriesIn tree directory names walk).pending ++
      (addEntriesIn tree directory names walk).found).Pairwise fun first second =>
        Location.Apart first.location second.location := by
  refine ((perm_addEntriesIn tree directory names walk).pairwise_iff fun h => h.symm).mpr ?_
  refine List.pairwise_append.mpr ⟨?_, hwalk, ?_⟩
  · exact (pairwise_join hdistinct hentries).sublist List.filter_sublist
  · intro path hpath other hother
    obtain ⟨name, hname, rfl⟩ := List.mem_map.mp (List.mem_of_mem_filter hpath)
    obtain ⟨component, -, hcomponent⟩ := hentries name hname
    rw [hcomponent]
    exact ((hapart other hother).symm.append component).symm

/-- A visit that the walk goes on from has listed the directory, or left it out, which happens to
the first directory of a walk never. -/
theorem visitIn_eq_ok {directory : Path} {walk walk' : Walk}
    (hvisit : visitIn tree root directory walk = .ok walk') :
    (∃ names, tree.list directory = .ok names ∧
        walk' = addEntriesIn tree directory names walk) ∨
      (∃ fault, tree.list directory = .error fault) ∧ directory.sameAs root = false ∧
        walk' = walk := by
  unfold visitIn at hvisit
  split at hvisit
  · rename_i names hlist
    exact .inl ⟨names, hlist, (Except.ok.inj hvisit).symm⟩
  · rename_i fault hlist
    split at hvisit
    · cases hvisit
    · rename_i hother
      exact .inr ⟨⟨fault, hlist⟩, by simpa using hother, (Except.ok.inj hvisit).symm⟩

/-- What holds of a walk at its start and is kept by every visit holds at its end. -/
theorem exploreIn_induction {holds : Walk → Prop}
    (hvisit : ∀ directory pending found walk, holds ⟨directory :: pending, found⟩ →
      visitIn tree root directory ⟨pending, found⟩ = .ok walk → holds walk)
    {budget : Nat} {walk walk' : Walk} (hwalk : holds walk)
    (hexplore : exploreIn tree root budget walk = .ok walk') : holds walk' := by
  induction budget generalizing walk with
  | zero => exact Except.ok.inj hexplore ▸ hwalk
  | succ budget ih =>
      obtain ⟨pending, found⟩ := walk
      cases pending with
      | nil => exact Except.ok.inj hexplore ▸ hwalk
      | cons directory pending =>
          unfold exploreIn at hexplore
          dsimp only at hexplore
          split at hexplore
          · rename_i next hnext
            exact ih (hvisit _ _ _ _ hwalk hnext) hexplore
          · cases hexplore

end Walk

/-! ## What a walk keeps -/

/-- What a walk keeps from one entry to the next. -/
structure Walk.Sound (tree : MemoryTree) (root : Path) (walk : Walk) : Prop where
  plain : ∀ path ∈ walk.pending ++ walk.found, tree.IsPlain path.location
  below : ∀ path ∈ walk.pending ++ walk.found, root.location <+: path.location
  apart : (walk.pending ++ walk.found).Pairwise fun first second =>
    Location.Apart first.location second.location
  stored : ∀ path ∈ walk.found, tree.hasFile path.location = true

namespace Walk

variable {tree : MemoryTree} {root : Path}

theorem sound_start (hplain : tree.IsPlain root.location) : Sound tree root (start root) where
  plain := by simpa [start] using hplain
  below := by simp [start]
  apart := by simp [start]
  stored := by simp [start]

/-- Looking at the entries of a plain directory keeps what a walk keeps. -/
theorem Sound.addEntriesIn {walk : Walk} (hsound : Sound tree root walk) {directory : Path}
    (hplain : tree.IsPlain directory.location) (hbelow : root.location <+: directory.location)
    (hapart : ∀ other ∈ walk.pending ++ walk.found,
      Location.Apart directory.location other.location)
    {names : List String} (hdistinct : names.Nodup)
    (hsteps : ∀ name ∈ names, ∃ component : Component,
      component.IsStep ∧ component.text = name) :
    Sound tree root (addEntriesIn tree directory names walk) := by
  have hentries : ∀ name ∈ names, ∃ component : Component, component.text = name ∧
      (directory.join ⟨name⟩).location = directory.location ++ [component] := by
    intro name hname
    obtain ⟨component, hcomponent, rfl⟩ := hsteps name hname
    exact ⟨component, rfl, Path.location_join_step directory hcomponent⟩
  -- what is no link lies at a plain place, as its directory does
  have hplain' : ∀ name ∈ names, tree.hasLink (directory.join ⟨name⟩).location = false →
      tree.IsPlain (directory.join ⟨name⟩).location := by
    intro name hname hlink
    obtain ⟨component, -, hcomponent⟩ := hentries name hname
    rw [hcomponent] at hlink ⊢
    exact hplain.append hlink
  refine ⟨forall_mem_addEntriesIn hsound.plain fun name hname hentry =>
      hplain' name hname (tree.hasLink_of_isEntry hentry),
    forall_mem_addEntriesIn hsound.below fun name hname _ => ?_,
    pairwise_addEntriesIn hsound.apart hapart hdistinct hentries, fun file hfile => ?_⟩
  · obtain ⟨component, -, hcomponent⟩ := hentries name hname
    rw [hcomponent]
    exact hbelow.trans (List.prefix_append ..)
  · rw [addEntriesIn_eq] at hfile
    rcases List.mem_append.mp hfile with hfile | hfile
    · obtain ⟨hfile, hsource⟩ := List.mem_filter.mp (List.mem_reverse.mp hfile)
      simp only [MemoryTree.isSourceEntry, Bool.and_eq_true, Bool.not_eq_true'] at hsource
      obtain ⟨⟨⟨hlink, -⟩, hstored⟩, -⟩ := hsource
      obtain ⟨name, hname, rfl⟩ := List.mem_map.mp hfile
      rwa [(hplain' name hname hlink).resolve?_eq] at hstored
    · exact hsound.stored file hfile

/-- Listing the next directory keeps what a walk keeps. -/
theorem Sound.visitIn (hroot : root.location ≠ []) {directory : Path} {pending found : List Path}
    (hsound : Sound tree root ⟨directory :: pending, found⟩) {walk : Walk}
    (hvisit : visitIn tree root directory ⟨pending, found⟩ = .ok walk) : Sound tree root walk := by
  have hmem : ∀ path ∈ pending ++ found, path ∈ directory :: pending ++ found :=
    fun path => List.mem_cons_of_mem directory
  obtain ⟨hapart, hothers⟩ := List.pairwise_cons.mp hsound.apart
  have hrest : Sound tree root ⟨pending, found⟩ :=
    ⟨fun path hpath => hsound.plain path (hmem path hpath),
      fun path hpath => hsound.below path (hmem path hpath), hothers, hsound.stored⟩
  have hplain := hsound.plain directory (List.mem_cons_self ..)
  have hbelow := hsound.below directory (List.mem_cons_self ..)
  have hplace : directory.location ≠ [] := fun hempty =>
    hroot (List.prefix_nil.mp (hempty ▸ hbelow))
  rcases visitIn_eq_ok hvisit with ⟨names, hlist, rfl⟩ | ⟨-, -, rfl⟩
  · obtain rfl := MemoryTree.list_ok hplain hlist
    have hsteps : ∀ name ∈ tree.names directory.location,
        ∃ component : Component, component.IsStep ∧ component.text = name :=
      fun name => MemoryTree.isStep_of_mem_names hplace
    exact hrest.addEntriesIn hplain hbelow hapart (tree.nodup_names _) hsteps
  · exact hrest

end Walk

/-! ## Discovery -/

/-- What is known about the files that a walk from a root discovers. -/
structure Discovered (tree : MemoryTree) (root : Path) (files : List Path) : Prop where
  plain : ∀ file ∈ files, tree.IsPlain file.location
  below : ∀ file ∈ files, root.location <+: file.location
  stored : ∀ file ∈ files, tree.hasFile file.location = true
  sorted : files.Pairwise fun first second => first.le second = true
  distinct : (files.map Path.location).Nodup

theorem Walk.Sound.discovered {tree : MemoryTree} {root : Path} {walk : Walk}
    (hsound : Sound tree root walk) : Discovered tree root walk.files := by
  have hperm : walk.files.Perm walk.found :=
    (List.mergeSort_perm _ _).trans (List.reverse_perm _)
  have hfound : ∀ file ∈ walk.files, file ∈ walk.found := fun file => hperm.mem_iff.mp
  have hmem : ∀ file ∈ walk.files, file ∈ walk.pending ++ walk.found :=
    fun file hfile => List.mem_append_right _ (hfound file hfile)
  refine ⟨fun file hfile => hsound.plain file (hmem file hfile),
    fun file hfile => hsound.below file (hmem file hfile),
    fun file hfile => hsound.stored file (hfound file hfile), Path.pairwise_mergeSort _, ?_⟩
  -- files apart from each other are at different places
  refine (hperm.map Path.location).nodup_iff.mpr (List.pairwise_map.mpr ?_)
  refine (List.pairwise_append.mp hsound.apart).2.1.imp fun hapart hsame => ?_
  exact hapart.1 (hsame ▸ List.prefix_refl _)

/-- What a discovery finds in a tree. -/
def discoverIn (tree : MemoryTree) (budget : Nat) (root : Path) :
    Except StoreFault (List Path) :=
  (Walk.exploreIn tree root budget (Walk.start root)).map Walk.files

theorem finds_discover {tree : MemoryTree} (budget : Nat) (root : Path) :
    (discover budget root).Finds tree (· = discoverIn tree budget root) := by
  refine (Walk.finds_explore budget (Walk.start root)).bind ?_
  rintro _ rfl
  exact Program.finds_pure rfl

theorem exists_of_discoverIn {tree : MemoryTree} {budget : Nat} {root : Path} {files : List Path}
    (hdiscover : discoverIn tree budget root = .ok files) :
    ∃ walk, Walk.exploreIn tree root budget (Walk.start root) = .ok walk ∧ walk.files = files := by
  unfold discoverIn at hdiscover
  cases hexplore : Walk.exploreIn tree root budget (Walk.start root) with
  | error fault =>
      rw [hexplore] at hdiscover
      cases hdiscover
  | ok walk =>
      rw [hexplore] at hdiscover
      exact ⟨walk, rfl, Except.ok.inj hdiscover⟩

/-- **Discovery.**  The files discovered below a plain directory are files of the tree at plain
places below it, in ascending order, no two of them at one place. -/
theorem discover_finds {tree : MemoryTree} {root : Path} (hroot : root.location ≠ [])
    (hplain : tree.IsPlain root.location) (budget : Nat) :
    (discover budget root).Finds tree fun result =>
      ∀ files, result = .ok files → Discovered tree root files := by
  refine (finds_discover budget root).mono ?_
  rintro _ rfl files hfiles
  obtain ⟨walk, hexplore, rfl⟩ := exists_of_discoverIn hfiles
  have hsound : walk.Sound tree root := Walk.exploreIn_induction
    (fun _ _ _ _ hsound hvisit => hsound.visitIn hroot hvisit) (Walk.sound_start hplain) hexplore
  exact hsound.discovered

/-- The discovered files are those of the walk at its end. -/
theorem discover_of_explore {Store : Type} [FileStore Store] {budget : Nat} {root : Path}
    {world : World Store} {walk : Walk}
    (hexplore : ((Walk.explore root budget (Walk.start root)).run world).1.toOption = some walk) :
    ((discover budget root).run world).1 = .ok walk.files := by
  rw [discover, Program.bind_eq, Program.run_bind]
  change ((Walk.explore root budget (Walk.start root)).run world).1.map Walk.files = _
  generalize ((Walk.explore root budget (Walk.start root)).run world).1 = explored at hexplore ⊢
  cases explored with
  | error fault => cases hexplore
  | ok walk' =>
      obtain rfl := Option.some.inj hexplore
      rfl

/-! ## Whatever the answers -/

/-- Whether an event is about no import and no fault of a file: it only informs, or it tells that
discovery leaves something out. -/
def Event.IsAside (event : Event) : Prop :=
  event.level = .info ∨
    ∃ path fault, event = skippedDirectory path fault ∨ event = skippedEntry path fault

/-- Whether a request only explores: it asks about places, or tells an event aside. -/
def Request.Explores (request : Request) : Prop :=
  request.isQuestion = true ∧ ∀ event ∈ request.told, event.IsAside

theorem explores_emit {event : Event} (haside : event.IsAside) : (Request.emit event).Explores :=
  ⟨rfl, fun _ hother => List.mem_singleton.mp hother ▸ haside⟩

theorem explores_skippedDirectory (path : Path) (fault : StoreFault) :
    (Request.emit (skippedDirectory path fault)).Explores :=
  explores_emit (.inr ⟨path, fault, .inl rfl⟩)

theorem explores_skippedEntry (path : Path) (fault : StoreFault) :
    (Request.emit (skippedEntry path fault)).Explores :=
  explores_emit (.inr ⟨path, fault, .inr rfl⟩)

/-- Whether all paths of a walk are absolute, and what it found are source files. -/
structure Walk.IsAbsolute (walk : Walk) : Prop where
  absolute : ∀ path ∈ walk.pending ++ walk.found, path.isAbsolute = true
  source : ∀ path ∈ walk.found, path.isSource = true

theorem Path.isAbsolute_join {base : Path} (hbase : base.isAbsolute = true) (tail : Path) :
    (base.join tail).isAbsolute = true := by
  obtain ⟨steps, hsteps⟩ := isAbsolute_iff.mp hbase
  rw [isAbsolute_iff, location_join, hsteps]
  unfold Location.join
  split
  · exact ⟨_, rfl⟩
  · exact ⟨_, if_neg nofun⟩
  · exact ⟨_, rfl⟩

namespace Walk

theorem IsAbsolute.addDescribed {walk : Walk} (hwalk : walk.IsAbsolute) {path : Path}
    (hpath : path.isAbsolute = true) (metadata : Metadata) :
    (walk.addDescribed path metadata).IsAbsolute := by
  unfold Walk.addDescribed
  split
  · exact hwalk
  split
  · exact ⟨List.forall_mem_cons.mpr ⟨hpath, hwalk.absolute⟩, hwalk.source⟩
  split
  · rename_i hsource
    rw [Bool.and_eq_true] at hsource
    refine ⟨fun other hother => ?_, List.forall_mem_cons.mpr ⟨hsource.2, hwalk.source⟩⟩
    rcases List.mem_cons.mp (List.perm_middle.mem_iff.mp hother) with rfl | hother
    · exact hpath
    · exact hwalk.absolute other hother
  · exact hwalk

/-- Looking at an entry only explores, and the entry of an absolute path keeps a walk absolute. -/
theorem within_addEntry (walk : Walk) (path : Path) :
    (walk.addEntry path).Within Request.Explores fun walk' =>
      walk.IsAbsolute → path.isAbsolute = true → walk'.IsAbsolute := by
  refine (Program.within_request ⟨rfl, nofun⟩).bind fun reply _ => ?_
  cases reply with
  | ok metadata => exact fun hwalk hpath => hwalk.addDescribed hpath metadata
  | error fault =>
      exact (Program.within_request (explores_skippedEntry path fault)).bind
        fun _ _ hwalk _ => hwalk

theorem within_addEntries (directory : Path) (names : List String) (walk : Walk) :
    (addEntries directory names walk).Within Request.Explores
      fun walk' => walk.IsAbsolute → directory.isAbsolute = true → walk'.IsAbsolute := by
  induction names generalizing walk with
  | nil => exact fun hwalk _ => hwalk
  | cons name names ih =>
      refine (within_addEntry walk _).bind fun walk' hwalk' => ?_
      exact (ih walk').mono (fun _ => id) fun _ h hwalk hdirectory =>
        h (hwalk' hwalk (Path.isAbsolute_join hdirectory _)) hdirectory

theorem within_visit (root directory : Path) (walk : Walk) :
    (visit root directory walk).Within Request.Explores fun visited =>
      walk.IsAbsolute → directory.isAbsolute = true →
        ∀ walk', visited = .ok walk' → walk'.IsAbsolute := by
  refine (Program.within_request ⟨rfl, nofun⟩).bind fun reply _ => ?_
  cases reply with
  | ok names =>
      refine (within_addEntries directory names walk).bind fun walk' h => ?_
      exact fun hwalk hdirectory _ hsome => Except.ok.inj hsome ▸ h hwalk hdirectory
  | error fault =>
      dsimp only
      split
      · exact fun _ _ _ => nofun
      · have hskipped := Program.within_request (explores_skippedDirectory directory fault)
        refine hskipped.bind fun _ _ => ?_
        exact fun hwalk _ _ hsome => Except.ok.inj hsome ▸ hwalk

theorem within_explore (root : Path) (budget : Nat) (walk : Walk) :
    (explore root budget walk).Within Request.Explores fun explored =>
      walk.IsAbsolute → ∀ walk', explored = .ok walk' → walk'.IsAbsolute := by
  induction budget generalizing walk with
  | zero => exact fun hwalk _ hsome => Except.ok.inj hsome ▸ hwalk
  | succ budget ih =>
      obtain ⟨pending, found⟩ := walk
      cases pending with
      | nil => exact fun hwalk _ hsome => Except.ok.inj hsome ▸ hwalk
      | cons directory pending =>
          refine (within_visit root directory _).bind fun visited hvisited => ?_
          cases visited with
          | error fault => exact fun _ _ => nofun
          | ok walk' =>
              refine (ih walk').mono (fun _ => id) fun _ h hwalk => h ?_
              obtain ⟨hdirectory, hrest⟩ := List.forall_mem_cons.mp hwalk.absolute
              exact hvisited ⟨hrest, hwalk.source⟩ hdirectory _ rfl

end Walk

/-- Discovery only explores, and from an absolute directory it finds source files by absolute paths,
whatever the answers are. -/
theorem within_discover (budget : Nat) (root : Path) :
    (discover budget root).Within Request.Explores fun result =>
      root.isAbsolute = true → ∀ files, result = .ok files →
        ∀ file ∈ files, file.isAbsolute = true ∧ file.isSource = true := by
  refine (Walk.within_explore root budget _).bind fun explored h hroot files hfiles => ?_
  cases explored with
  | error fault => cases hfiles
  | ok walk =>
      obtain rfl := Except.ok.inj hfiles
      have hwalk := h ⟨by simpa [Walk.start] using hroot, nofun⟩ walk rfl
      intro file hfile
      have hfound := List.mem_reverse.mp ((List.mergeSort_perm _ _).mem_iff.mp hfile)
      exact ⟨hwalk.absolute file (List.mem_append_right _ hfound), hwalk.source file hfound⟩

theorem onlyAsks_discover (budget : Nat) (root : Path) : (discover budget root).OnlyAsks :=
  (within_discover budget root).mono (fun _ => And.left) fun _ _ => trivial

end Dealias
