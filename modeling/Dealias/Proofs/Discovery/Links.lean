import Dealias.Proofs.Discovery.Termination
import Dealias.Proofs.Store.Links

/-!
# Links below a root that links lead to

A walk tells links by the paths it has come by, and lists and describes what stands behind all
links.  Below a plain root the two views agree.  When the root is reached through a link they need
not: a link stands below the place that the root leads to, and the path that the walk has come by is
another one, so the link is not seen and the walk goes through it.

* `discover_stays_iff`: a discovered file is where the links leading to the root alone take its path
  exactly when no link stands on the way there, and all of them are in the two cases in which no
  link can be overlooked.
* `discover_crosses_link_sample`: a tree in which the walk goes through links, finds one file twice
  and another one outside.
-/

namespace Dealias

variable {tree : MemoryTree} {root directory : Path} {walk : Walk} {names : List String}

/-! ## Where a walk comes to -/

/-- What a walk keeps whatever links it crosses: once it has left its start, the root leads to a
place; it stays below the root unless some link leads to the empty path; and what it finds are
files. -/
structure Walk.Rooted (tree : MemoryTree) (root : Path) (walk : Walk) : Prop where
  reached : walk = start root ∨ ∃ real, tree.resolve? root = some real
  below : (∀ link ∈ tree.links, link.2 ≠ []) →
    ∀ path ∈ walk.pending ++ walk.found, root.location <+: path.location
  stored : ∀ file ∈ walk.found, ∃ place, tree.resolve? file = some place ∧
    tree.hasFile place = true

namespace Walk

theorem rooted_start : Rooted tree root (start root) where
  reached := .inl rfl
  below := by simp [start]
  stored := by simp [start]

/-- The source files among the entries of a directory lead to files. -/
theorem stored_addEntriesIn
    (hwalk : ∀ file ∈ walk.found, ∃ place, tree.resolve? file = some place ∧
      tree.hasFile place = true) :
    ∀ file ∈ (addEntriesIn tree directory names walk).found,
      ∃ place, tree.resolve? file = some place ∧ tree.hasFile place = true := by
  rw [addEntriesIn_eq]
  intro file hfile
  rcases List.mem_append.mp hfile with hfile | hfile
  · obtain ⟨-, hsource⟩ := List.mem_filter.mp (List.mem_reverse.mp hfile)
    simp only [MemoryTree.isSourceEntry, Bool.and_eq_true] at hsource
    exact (Option.any_eq_true ..).mp hsource.1.2
  · exact hwalk file hfile

theorem Rooted.visitIn {pending found : List Path}
    (hrooted : Rooted tree root ⟨directory :: pending, found⟩)
    (hvisit : visitIn tree root directory ⟨pending, found⟩ = .ok walk) :
    Rooted tree root walk := by
  have hothers : (∀ link ∈ tree.links, link.2 ≠ []) →
      ∀ path ∈ pending ++ found, root.location <+: path.location :=
    fun htargets path hpath => hrooted.below htargets path (List.mem_cons_of_mem _ hpath)
  rcases visitIn_eq_ok hvisit with ⟨names, hlist, rfl⟩ | ⟨-, hother, rfl⟩
  · obtain ⟨-, place, hresolve, -, rfl⟩ := MemoryTree.exists_of_list_ok hlist
    refine ⟨.inr ?_, fun htargets => ?_, stored_addEntriesIn hrooted.stored⟩
    · rcases hrooted.reached with hstart | hreached
      · obtain rfl : directory = root := (List.cons.inj (Walk.mk.inj hstart).1).1
        exact ⟨place, hresolve⟩
      · exact hreached
    · have hbelow := hrooted.below htargets directory (List.mem_cons_self ..)
      refine forall_mem_addEntriesIn (hothers htargets) fun name hname _ => ?_
      by_cases hroot : root.location = []
      · exact hroot ▸ List.nil_prefix
      · have hdirectory : directory.location ≠ [] := fun hempty =>
          hroot (List.prefix_nil.mp (hempty ▸ hbelow))
        have hplace : place ≠ [] := MemoryTree.ne_nil_of_follow htargets hdirectory hresolve
        obtain ⟨component, -, hcomponent⟩ :=
          MemoryTree.exists_of_mem_names (fun hempty => absurd hempty hplace) hname
        rw [hcomponent]
        exact hbelow.trans (List.prefix_append ..)
  · refine ⟨.inr ?_, hothers, hrooted.stored⟩
    rcases hrooted.reached with hstart | hreached
    · -- the root itself is never left out
      obtain rfl : directory = root := (List.cons.inj (Walk.mk.inj hstart).1).1
      simp [Path.sameAs] at hother
    · exact hreached

end Walk

/-! ## Walks that see every link -/

/-- Whether every link right below a plain place that a root leads to is seen as one by its path
below the root. -/
structure MemoryTree.Shows (tree : MemoryTree) (root : Path) (real : Location) : Prop where
  leads : tree.resolve? root = some real
  nonempty : real = [] → root.location = []
  seen : ∀ rest component, tree.IsPlain (real ++ rest) →
    tree.hasLink (root.location ++ (rest ++ [component])) = false →
      tree.IsPlain (real ++ (rest ++ [component]))

namespace MemoryTree

/-- A plain root shows all links below it. -/
theorem shows_of_isPlain (hplain : tree.IsPlain root.location) :
    tree.Shows root root.location where
  leads := hplain.resolve?_eq
  nonempty := id
  seen rest component hrest hlink := by
    rw [← List.append_assoc] at hlink ⊢
    exact hrest.append hlink

/-- Where no link stands below the place that the root leads to, none is overlooked. -/
theorem shows_of_forall_not_prefix {real : Location} (hreal : tree.resolve? root = some real)
    (hlinks : ∀ link ∈ tree.links, ¬ real <+: link.1) : tree.Shows root real where
  leads := hreal
  nonempty hempty := by
    subst hempty
    have hplain : tree.IsPlain root.location := fun link hlink =>
      absurd List.nil_prefix (hlinks link hlink)
    exact Option.some.inj (hplain.resolve?_eq.symm.trans hreal)
  seen rest component hrest _ := by
    intro link hlink hprefix
    rw [← List.append_assoc] at hprefix
    rcases List.prefix_concat_iff.mp hprefix with hsame | habove
    · refine hlinks link hlink (hsame ▸ ?_)
      exact (List.prefix_append ..).trans (List.prefix_append ..)
    · exact hrest link hlink habove

end MemoryTree

/-- Whether all paths of a walk are taken to below the place that the root leads to, and stand
apart. -/
structure Walk.Stays (tree : MemoryTree) (root : Path) (real : Location) (walk : Walk) : Prop where
  carried : ∀ path ∈ walk.pending ++ walk.found,
    ∃ rest, path.location = root.location ++ rest ∧ tree.IsPlain (real ++ rest)
  apart : (walk.pending ++ walk.found).Pairwise fun first second =>
    Location.Apart first.location second.location

namespace Walk

variable {real : Location}

theorem stays_start (hreal : tree.resolve? root = some real) :
    Stays tree root real (start root) where
  carried := by
    have hplain : tree.IsPlain real := MemoryTree.isPlain_of_resolve? hreal
    intro path hpath
    obtain rfl := List.mem_singleton.mp hpath
    exact ⟨[], (List.append_nil _).symm, by rwa [List.append_nil]⟩
  apart := by simp [start]

theorem Stays.visitIn (hshows : tree.Shows root real) {pending found : List Path}
    (hstays : Stays tree root real ⟨directory :: pending, found⟩)
    (hvisit : visitIn tree root directory ⟨pending, found⟩ = .ok walk) :
    Stays tree root real walk := by
  obtain ⟨hapart, hothers⟩ := List.pairwise_cons.mp hstays.apart
  have hrest : ∀ path ∈ pending ++ found,
      ∃ rest, path.location = root.location ++ rest ∧ tree.IsPlain (real ++ rest) :=
    fun path hpath => hstays.carried path (List.mem_cons_of_mem _ hpath)
  rcases visitIn_eq_ok hvisit with ⟨names, hlist, rfl⟩ | ⟨-, -, rfl⟩
  · obtain ⟨rest, hdirectory, hplain⟩ := hstays.carried directory (List.mem_cons_self ..)
    -- the directory that is listed stands at the same steps below the place of the root
    have hplace : tree.resolve? directory = some (real ++ rest) :=
      (MemoryTree.resolve?_below_iff hshows.leads hdirectory).mpr hplain
    obtain ⟨-, place, hresolve, -, rfl⟩ := MemoryTree.exists_of_list_ok hlist
    obtain rfl := Option.some.inj (hplace.symm.trans hresolve)
    have hempty : real ++ rest = [] → directory.location = [] := by
      intro hnil
      obtain ⟨hreal, hnone⟩ := List.append_eq_nil_iff.mp hnil
      rw [hdirectory, hshows.nonempty hreal, hnone, List.append_nil]
    have hentries : ∀ name ∈ tree.names (real ++ rest), ∃ component : Component,
        component.text = name ∧
          (directory.join ⟨name⟩).location = directory.location ++ [component] :=
      fun name hname => MemoryTree.exists_of_mem_names hempty hname
    refine ⟨forall_mem_addEntriesIn hrest fun name hname hentry => ?_,
      pairwise_addEntriesIn hothers hapart (tree.nodup_names _) hentries⟩
    obtain ⟨component, -, hcomponent⟩ := hentries name hname
    have hpath : (directory.join ⟨name⟩).location =
        root.location ++ (rest ++ [component]) := by
      rw [hcomponent, hdirectory, List.append_assoc]
    have hlink := tree.hasLink_of_isEntry hentry
    rw [hpath] at hlink
    exact ⟨rest ++ [component], hpath, hshows.seen rest component hplain hlink⟩
  · exact ⟨hrest, hothers⟩

/-- The files that such a walk has found: each stands below the place of the root, at the steps of
its own path, and no two of them are one. -/
theorem Stays.found (hshows : tree.Shows root real) (hrooted : Rooted tree root walk)
    (hstays : Stays tree root real walk) :
    (∀ file ∈ walk.found, ∃ rest, file.location = root.location ++ rest ∧
      tree.resolve? file = some (real ++ rest) ∧ tree.hasFile (real ++ rest) = true) ∧
    (walk.found.map tree.resolve?).Nodup := by
  have hcarried : ∀ file ∈ walk.found, ∃ rest, file.location = root.location ++ rest ∧
      tree.resolve? file = some (real ++ rest) := by
    intro file hfile
    obtain ⟨rest, hrest, hplain⟩ := hstays.carried file (List.mem_append_right _ hfile)
    exact ⟨rest, hrest, (MemoryTree.resolve?_below_iff hshows.leads hrest).mpr hplain⟩
  constructor
  · intro file hfile
    obtain ⟨rest, hrest, hfollowed⟩ := hcarried file hfile
    obtain ⟨place, hplace, hstored⟩ := hrooted.stored file hfile
    obtain rfl := Option.some.inj (hfollowed.symm.trans hplace)
    exact ⟨rest, hrest, hfollowed, hstored⟩
  · rw [List.Nodup, List.pairwise_map]
    refine (List.pairwise_append.mp hstays.apart).2.1.imp_of_mem ?_
    intro first second hfirst hsecond hapart hsame
    obtain ⟨rest, hrest, hfollowed⟩ := hcarried first hfirst
    obtain ⟨rest', hrest', hfollowed'⟩ := hcarried second hsecond
    -- files that are taken to one place have one path
    have hsteps : rest = rest' := by
      rw [hfollowed, hfollowed'] at hsame
      exact List.append_cancel_left (Option.some.inj hsame)
    have hlocation : first.location = second.location := by rw [hrest, hrest', hsteps]
    exact hapart.1 (hlocation ▸ List.prefix_refl _)

end Walk

/-! ## Discovery -/

/-- **Links below a root.**  The root of a discovery that finds anything leads to a place, and as
long as no link leads to the empty path, every discovered file has a path below the root.  Such a
path is resolved to the same steps below that place exactly when no link stands on the way there.
When no link is the root or an ancestor of it, and also when no link stands below the place that the
root leads to, this is so for all discovered files: each of them names a file below that place, and
no two of them name the same one. -/
theorem discover_stays_iff (tree : MemoryTree) (root : Path) (budget : Nat) (files : List Path)
    (hdiscover : ((discover budget root).run (World.start tree)).1 = .ok files) :
    (∀ file ∈ files, ∃ real, tree.resolve? root = some real ∧
      ((∀ link ∈ tree.links, link.2 ≠ []) → root.location <+: file.location) ∧
      ∀ rest, file.location = root.location ++ rest →
        (tree.resolve? file = some (real ++ rest) ↔
          ∀ link ∈ tree.links, ¬ link.1 <+: real ++ rest)) ∧
    ((∀ link ∈ tree.links, ¬ link.1 <+: root.location) ∨
        (∀ real, tree.resolve? root = some real → ∀ link ∈ tree.links, ¬ real <+: link.1) →
      (∀ file ∈ files, ∃ real rest, tree.resolve? root = some real ∧
        file.location = root.location ++ rest ∧ tree.resolve? file = some (real ++ rest) ∧
          tree.hasFile (real ++ rest) = true) ∧
      (files.map tree.resolve?).Nodup) := by
  have hstart : (World.start tree).Agrees tree :=
    World.agrees_start (.refl tree) (List.suffix_refl _)
  have hfiles : discoverIn tree budget root = .ok files :=
    ((finds_discover budget root).run hstart).2.1.symm.trans hdiscover
  obtain ⟨walk, hexplore, rfl⟩ := exists_of_discoverIn hfiles
  have hperm : walk.files.Perm walk.found :=
    (List.mergeSort_perm _ _).trans (List.reverse_perm _)
  have hrooted : walk.Rooted tree root := Walk.exploreIn_induction
    (fun _ _ _ _ hrooted hvisit => hrooted.visitIn hvisit) Walk.rooted_start hexplore
  have hreached : ∀ file ∈ walk.files, ∃ real, tree.resolve? root = some real := by
    intro file hfile
    rcases hrooted.reached with rfl | hreached
    · simp [Walk.files, Walk.start] at hfile
    · exact hreached
  constructor
  · intro file hfile
    obtain ⟨real, hreal⟩ := hreached file hfile
    refine ⟨real, hreal, fun htargets => ?_, fun rest hrest => ?_⟩
    · exact hrooted.below htargets file (List.mem_append_right _ (hperm.mem_iff.mp hfile))
    · exact MemoryTree.resolve?_below_iff hreal hrest
  · intro hcases
    by_cases hnone : ∃ real, tree.resolve? root = some real
    · obtain ⟨real, hshows⟩ : ∃ real, tree.Shows root real := by
        rcases hcases with hplain | hlinks
        · exact ⟨_, MemoryTree.shows_of_isPlain hplain⟩
        · obtain ⟨real, hreal⟩ := hnone
          exact ⟨real, MemoryTree.shows_of_forall_not_prefix hreal (hlinks real hreal)⟩
      have hstays : walk.Stays tree root real := Walk.exploreIn_induction
        (fun _ _ _ _ hstays hvisit => hstays.visitIn hshows hvisit)
        (Walk.stays_start hshows.leads) hexplore
      obtain ⟨hfound, hdistinct⟩ := hstays.found hshows hrooted
      refine ⟨fun file hfile => ?_, (hperm.map tree.resolve?).nodup_iff.mpr hdistinct⟩
      obtain ⟨rest, hrest, hfollowed, hstored⟩ := hfound file (hperm.mem_iff.mp hfile)
      exact ⟨real, rest, hshows.leads, hrest, hfollowed, hstored⟩
    · have hempty : walk.files = [] :=
        List.eq_nil_iff_forall_not_mem.mpr fun file hfile => hnone (hreached file hfile)
      simp [hempty]

/-- A root that is a link.  Below the place that it leads to there are two links, one to a directory
beside them and one to a directory outside. -/
def MemoryTree.linkedSample : MemoryTree :=
  let files := (((MemoryTree.empty ⟨"/"⟩).putFile
    [.root, .name "real", .name "pages", .name "home.js"] "".toUTF8).putFile
      [.root, .name "lib", .name "util.js"] "".toUTF8)
  ((files.putLink [.root, .name "out"] [.root, .name "real"]).putLink
    [.root, .name "real", .name "current"] [.root, .name "real", .name "pages"]).putLink
      [.root, .name "real", .name "lib"] [.root, .name "lib"]

theorem MemoryTree.discover_linkedSample :
    ∃ files, ((discover (linkedSample.directoryBound ⟨"/out"⟩) ⟨"/out"⟩).run
        (World.start linkedSample)).1 = .ok files ∧
      ∀ file ∈ ["/out/current/home.js", "/out/lib/util.js", "/out/pages/home.js"],
        Path.mk file ∈ files := by
  have hexplore : ((Walk.explore ⟨"/out"⟩ (linkedSample.directoryBound ⟨"/out"⟩)
      (.start ⟨"/out"⟩)).run (World.start linkedSample)).1.toOption =
        some ⟨[], [⟨"/out/current/home.js"⟩, ⟨"/out/lib/util.js"⟩, ⟨"/out/pages/home.js"⟩]⟩ := by
    decide +kernel
  refine ⟨_, discover_of_explore hexplore, fun file hfile => ?_⟩
  refine (List.mergeSort_perm _ _).mem_iff.mpr (List.mem_reverse.mpr ?_)
  simpa using hfile

/-- One of the discovered files is where the link of the root takes its path, another is not. -/
theorem discover_stays_sample :
    ∃ files, ((discover (MemoryTree.linkedSample.directoryBound ⟨"/out"⟩) ⟨"/out"⟩).run
        (World.start MemoryTree.linkedSample)).1 = .ok files ∧
      ⟨"/out/pages/home.js"⟩ ∈ files ∧ ⟨"/out/current/home.js"⟩ ∈ files ∧
      MemoryTree.linkedSample.resolve? ⟨"/out/pages/home.js"⟩ =
        some [.root, .name "real", .name "pages", .name "home.js"] ∧
      MemoryTree.linkedSample.resolve? ⟨"/out/current/home.js"⟩ ≠
        some [.root, .name "real", .name "current", .name "home.js"] := by
  obtain ⟨files, hdiscover, hmem⟩ := MemoryTree.discover_linkedSample
  obtain ⟨hstays, -⟩ := discover_stays_iff MemoryTree.linkedSample ⟨"/out"⟩ _ files hdiscover
  have hroot : MemoryTree.linkedSample.resolve? ⟨"/out"⟩ = some [.root, .name "real"] := by
    decide +kernel
  have hpagesMem : ⟨"/out/pages/home.js"⟩ ∈ files := hmem "/out/pages/home.js" (by simp)
  have hcurrentMem : ⟨"/out/current/home.js"⟩ ∈ files := hmem "/out/current/home.js" (by simp)
  obtain ⟨real, hreal, -, hpages⟩ := hstays _ hpagesMem
  obtain ⟨real', hreal', -, hcurrent⟩ := hstays _ hcurrentMem
  obtain rfl := Option.some.inj (hroot.symm.trans hreal)
  obtain rfl := Option.some.inj (hroot.symm.trans hreal')
  refine ⟨files, hdiscover, hpagesMem, hcurrentMem,
    (hpages [.name "pages", .name "home.js"] (by decide +kernel)).mpr (by decide +kernel), ?_⟩
  intro hfollowed
  have hnone := (hcurrent [.name "current", .name "home.js"] (by decide +kernel)).mp hfollowed
  revert hnone
  decide +kernel

/-- The walk goes through the links below the place that its root leads to: a file is not where the
link of the root takes its path, two paths name the same file, and one names a file outside. -/
theorem discover_crosses_link_sample :
    ∃ files, ((discover (MemoryTree.linkedSample.directoryBound ⟨"/out"⟩) ⟨"/out"⟩).run
        (World.start MemoryTree.linkedSample)).1 = .ok files ∧
      (∀ file ∈ ["/out/current/home.js", "/out/lib/util.js", "/out/pages/home.js"],
        Path.mk file ∈ files) ∧
      MemoryTree.linkedSample.resolve? ⟨"/out"⟩ = some [.root, .name "real"] ∧
      MemoryTree.linkedSample.resolve? ⟨"/out/current/home.js"⟩ ≠
        some [.root, .name "real", .name "current", .name "home.js"] ∧
      MemoryTree.linkedSample.resolve? ⟨"/out/current/home.js"⟩ =
        MemoryTree.linkedSample.resolve? ⟨"/out/pages/home.js"⟩ ∧
      MemoryTree.linkedSample.resolve? ⟨"/out/lib/util.js"⟩ =
        some [.root, .name "lib", .name "util.js"] := by
  obtain ⟨files, hdiscover, hmem⟩ := MemoryTree.discover_linkedSample
  exact ⟨files, hdiscover, hmem, by decide +kernel, by decide +kernel, by decide +kernel,
    by decide +kernel⟩

end Dealias
