import Mathlib.Data.List.Chain
import Dealias.Proofs.Discovery.Links

/-!
# Walks among links end

A walk that has come to a root by a link does not see the links below it, so it can go through one
and list the same stored directories again and again, by longer and longer paths.  What stops it is
the limit on hops: a path that is longer than the deepest stored place, by more than links can take
away in all the hops that are allowed, leads nowhere.

* `discover_ends`: as long as no link leads to the empty path, and wherever else they lead, the
  chains of directories that a walk descends are bounded in this way, and the walk comes to an end
  by itself.
* `discover_endless`: below a root that links take to the empty path, where `.` is an entry, a walk
  never ends; `discover_endless_sample` is such a tree.

## Strategy

Every directory that waits is at the end of a chain that starts at the root
(`MemoryTree.Reaches`), each directory of it an entry of the one before and therefore one component
longer.  So the number of visits still to make (`Walk.visits`) gets smaller with every visit.

The one thing that a link must not do is to lead to the empty path, which is no absolute path: `.`
can be an entry there, and then a directory is an entry of itself.  Every visit of such a directory
leaves another path to it on the stack (`MemoryTree.GoesOn`), so no number of visits empties it.
-/

namespace Dealias

variable {tree : MemoryTree} {root : Path}

/-- A walk comes to the directories that the root reaches and to no others. -/
theorem Walk.reaches_of_exploreIn (htargets : ∀ link ∈ tree.links, link.2 ≠ []) {budget : Nat}
    {walk : Walk} (hexplore : exploreIn tree root budget (start root) = .ok walk) :
    ∀ directory ∈ walk.pending, tree.Reaches root directory := by
  have hdown := MemoryTree.goesDown_reaches htargets root
  exact @exploreIn_induction tree root (fun walk => ∀ path ∈ walk.pending, tree.Reaches root path)
    (fun _ _ _ _ hreaches hvisit => (visits_visitIn_lt hdown hreaches hvisit).2) _ _ _
    (List.forall_mem_singleton.mpr .refl) hexplore

/-- **Walks among links end.**  As long as links lead to absolute paths, so that none leads to the
empty one, and wherever else they lead: a chain of directories that starts at the root, each of them
an entry of the one before, has at most as many directories below the root as the deepest stored
place has components and links can take away in all hops.  A walk only comes to directories at the
end of such chains.  After the visits that the bound allows no directory is left to list, and a
larger bound changes nothing. -/
theorem discover_ends (tree : MemoryTree) (root : Path)
    (htargets : ∀ link ∈ tree.links, link.2 ≠ []) :
    (∀ below : List Path, (root :: below).IsChain tree.Descends →
      below.length ≤ MemoryTree.greatestLength tree.places +
        MemoryTree.linkSteps * MemoryTree.greatestLength (tree.links.map Prod.fst)) ∧
    (∀ budget walk,
      ((Walk.explore root budget (.start root)).run (World.start tree)).1 = .ok walk →
        (∀ directory ∈ walk.pending, ∃ below, (root :: below).IsChain tree.Descends ∧
          (root :: below).getLast (List.cons_ne_nil root below) = directory) ∧
        (tree.directoryBound root ≤ budget → walk.pending = [])) ∧
    ∀ budget, tree.directoryBound root ≤ budget →
      (discover budget root).run (World.start tree) =
        (discover (tree.directoryBound root) root).run (World.start tree) := by
  have hstart : (World.start tree).Agrees tree :=
    World.agrees_start (.refl tree) (List.suffix_refl _)
  have hdown := MemoryTree.goesDown_reaches htargets root
  refine ⟨fun below => MemoryTree.length_le_of_isChain hdown .refl, fun budget walk hexplore => ?_,
    fun budget hbudget => run_discover_of_le hdown .refl hbudget hstart⟩
  rw [((Walk.finds_explore _ _).run hstart).2.1] at hexplore
  refine ⟨fun directory hdirectory => ?_, fun hbudget =>
    Walk.pending_of_exploreIn_start hdown .refl hbudget hexplore⟩
  exact List.exists_isChain_cons_of_relationReflTransGen
    (Walk.reaches_of_exploreIn htargets hexplore directory hdirectory)

/-- A root that is a link, and in the directory that it leads to a link to that directory. -/
def MemoryTree.looped : MemoryTree :=
  (((MemoryTree.empty ⟨"/"⟩).putFile [.root, .name "real", .name "a.js"] "".toUTF8).putLink
    [.root, .name "out"] [.root, .name "real"]).putLink
      [.root, .name "real", .name "again"] [.root, .name "real"]

theorem MemoryTree.descends_looped {directory : Path}
    (hlist : (looped.list directory).toOption = some ["a.js", "again"])
    (hentry : looped.isDirectoryEntry (directory.join ⟨"again"⟩) = true) :
    looped.Descends directory (directory.join ⟨"again"⟩) := by
  cases hnames : looped.list directory with
  | error fault =>
      rw [hnames] at hlist
      cases hlist
  | ok names =>
      rw [hnames] at hlist
      obtain rfl := Option.some.inj hlist
      exact ⟨hentry, _, hnames, "again", by simp, rfl⟩

/-- The walk goes through the inner link again and again, but not for ever. -/
theorem discover_ends_looped :
    (⟨"/out"⟩ :: [⟨"/out/again"⟩, ⟨"/out/again/again"⟩] : List Path).IsChain
      MemoryTree.looped.Descends ∧
    (∀ below : List Path, (⟨"/out"⟩ :: below).IsChain MemoryTree.looped.Descends →
      below.length ≤ 123) ∧
    ∀ walk, ((Walk.explore ⟨"/out"⟩ (MemoryTree.looped.directoryBound ⟨"/out"⟩)
      (.start ⟨"/out"⟩)).run (World.start MemoryTree.looped)).1 = .ok walk → walk.pending = [] := by
  have htargets : ∀ link ∈ MemoryTree.looped.links, link.2 ≠ [] := by decide +kernel
  obtain ⟨hchains, hends, -⟩ := discover_ends MemoryTree.looped ⟨"/out"⟩ htargets
  refine ⟨?_, fun below hchain => (hchains below hchain).trans (by decide +kernel),
    fun walk hexplore => (hends _ walk hexplore).2 le_rfl⟩
  refine .cons_cons ?_ (.cons_cons ?_ (.singleton _))
  · exact MemoryTree.descends_looped (by decide +kernel) (by decide +kernel)
  · exact MemoryTree.descends_looped (by decide +kernel) (by decide +kernel)

/-! ## Walks that never end -/

/-- Whether walks go on from every directory of a kind to another one of that kind. -/
def MemoryTree.GoesOn (tree : MemoryTree) (kind : Path → Prop) : Prop :=
  ∀ directory, kind directory → ∃ entry, kind entry ∧ tree.Descends directory entry

section GoesOn

variable {kind : Path → Prop} (hgoes : tree.GoesOn kind)
include hgoes

/-- Chains of directories that are gone on from have every length. -/
theorem MemoryTree.GoesOn.exists_isChain (hroot : kind root) (length : Nat) :
    ∃ below : List Path, below.length = length ∧ (root :: below).IsChain tree.Descends := by
  induction length generalizing root with
  | zero => exact ⟨[], rfl, .singleton root⟩
  | succ length ih =>
      obtain ⟨entry, hentry, hdescends⟩ := hgoes root hroot
      obtain ⟨below, hlength, hchain⟩ := ih hentry
      exact ⟨entry :: below, congrArg (· + 1) hlength, .cons_cons hdescends hchain⟩

/-- As long as a directory waits that is gone on from, so it does behind the next visit. -/
theorem Walk.exists_pending_visitIn {directory : Path} {pending found : List Path} {walk : Walk}
    (hwaits : ∃ waiting ∈ directory :: pending, kind waiting)
    (hvisit : visitIn tree root directory ⟨pending, found⟩ = .ok walk) :
    ∃ waiting ∈ walk.pending, kind waiting := by
  obtain ⟨waiting, hmem, hkind⟩ := hwaits
  rcases List.mem_cons.mp hmem with rfl | hold
  · -- the visited directory leaves an entry of its kind behind
    obtain ⟨entry, hentry, hdirectory, names, hlist, name, hname, rfl⟩ := hgoes waiting hkind
    rw [visitIn, hlist] at hvisit
    obtain rfl := Except.ok.inj hvisit
    refine ⟨waiting.join ⟨name⟩, ?_, hentry⟩
    rw [addEntriesIn_eq]
    refine List.mem_append_left _ (List.mem_reverse.mpr (List.mem_filter.mpr ⟨?_, hdirectory⟩))
    exact List.mem_map_of_mem hname
  · refine ⟨waiting, ?_, hkind⟩
    rcases visitIn_eq_ok hvisit with ⟨names, -, rfl⟩ | ⟨-, -, rfl⟩
    · rw [addEntriesIn_eq]
      exact List.mem_append_right _ hold
    · exact hold

/-- No visit ends a walk with a fault when the root is gone on from by all of its paths. -/
theorem Walk.exists_visitIn_eq_ok (hroot : ∀ path, path.sameAs root = true → kind path)
    (directory : Path) (walk : Walk) :
    ∃ walk', visitIn tree root directory walk = .ok walk' := by
  unfold visitIn
  split
  · exact ⟨_, rfl⟩
  · rename_i fault hlist
    split
    · rename_i hsame
      obtain ⟨-, -, -, names, hlisted, -⟩ := hgoes directory (hroot directory hsame)
      rw [hlist] at hlisted
      cases hlisted
    · exact ⟨_, rfl⟩

/-- As long as a directory waits that is gone on from, and the root is one such by all of its paths,
a walk makes every visit that it may and still has a directory left. -/
theorem Walk.exists_pending_of_exploreIn (hroot : ∀ path, path.sameAs root = true → kind path)
    (budget : Nat) {walk : Walk} (hwaits : ∃ waiting ∈ walk.pending, kind waiting) :
    ∃ walk', exploreIn tree root budget walk = .ok walk' ∧ walk'.pending ≠ [] := by
  induction budget generalizing walk with
  | zero =>
      obtain ⟨waiting, hmem, -⟩ := hwaits
      exact ⟨walk, rfl, List.ne_nil_of_mem hmem⟩
  | succ budget ih =>
      obtain ⟨pending, found⟩ := walk
      cases pending with
      | nil => simp at hwaits
      | cons directory pending =>
          obtain ⟨next, hvisit⟩ := Walk.exists_visitIn_eq_ok hgoes hroot directory ⟨pending, found⟩
          simp only [exploreIn, hvisit]
          exact ih (Walk.exists_pending_visitIn hgoes hwaits hvisit)

end GoesOn

/-- A directory that leads to the empty path lists itself when `.` is an entry there. -/
theorem MemoryTree.goesOn_of_leads_to_empty (hroot : root.location ≠ [])
    (hleads : tree.resolve? root = some []) (hlink : tree.hasLink root.location = false)
    (hreadable : root.location ∉ tree.failingListings) {rest : Location}
    (hentry : .current :: rest ∈ tree.places) :
    tree.GoesOn fun directory => directory.location = root.location := by
  intro directory hdirectory
  have hsame : (directory.join ⟨"."⟩).location = root.location := by
    have hcurrent : (⟨"."⟩ : Path).location = [.current] := by decide +kernel
    rw [Path.location_join, hcurrent, Location.join_current, hdirectory, if_neg hroot,
      List.append_nil]
  have hempty : ∀ path : Path, path.location = root.location → tree.resolve? path = some [] :=
    fun path hpath => (congrArg (follow tree.links linkSteps) hpath).trans hleads
  have hstored : tree.hasDirectory [] = true := hasDirectory_iff.mpr ⟨.current, rest, hentry⟩
  refine ⟨directory.join ⟨"."⟩, hsame, ?_, tree.names [], ?_, ".", ?_, rfl⟩
  · simp [isDirectoryEntry, hsame, hlink, hempty _ hsame, hstored]
  · simp [list, hdirectory, hreadable, hempty _ hdirectory, hstored]
  · exact mem_names.mpr ⟨.current, rest, hentry, rfl⟩

/-- **Walks that never end.**  Below a root that links take to the empty path, where `.` is an
entry, the root is an entry of itself under longer and longer paths: chains of directories have
every length, and however many visits a walk may make, a directory is left to list. -/
theorem discover_endless (hroot : root.location ≠ []) (hleads : tree.resolve? root = some [])
    (hlink : tree.hasLink root.location = false) (hreadable : root.location ∉ tree.failingListings)
    {rest : Location} (hentry : .current :: rest ∈ tree.places) :
    (∀ length, ∃ below : List Path, below.length = length ∧
      (root :: below).IsChain tree.Descends) ∧
    ∀ budget, ∃ walk,
      ((Walk.explore root budget (.start root)).run (World.start tree)).1 = .ok walk ∧
        walk.pending ≠ [] := by
  have hgoes := MemoryTree.goesOn_of_leads_to_empty hroot hleads hlink hreadable hentry
  have hstart : (World.start tree).Agrees tree :=
    World.agrees_start (.refl tree) (List.suffix_refl _)
  refine ⟨hgoes.exists_isChain rfl, fun budget => ?_⟩
  rw [((Walk.finds_explore _ _).run hstart).2.1]
  have hsame : ∀ path : Path, path.sameAs root = true → path.location = root.location :=
    fun path hpath => eq_of_beq hpath
  exact Walk.exists_pending_of_exploreIn hgoes hsame budget
    ⟨root, List.mem_singleton_self root, rfl⟩

/-- A link to the empty path, behind another link, and a file whose path starts with `.`. -/
def MemoryTree.emptied : MemoryTree :=
  (((MemoryTree.empty ⟨"/"⟩).putFile [.current, .name "a.js"] "".toUTF8).putLink
    [.root, .name "l"] [.root, .name "x"]).putLink [.root, .name "x", .name "o"] []

/-- The walk from the inner link, by way of the outer one, lists the same directory for ever. -/
theorem discover_endless_sample :
    (∀ length, ∃ below : List Path, below.length = length ∧
      (⟨"/l/o"⟩ :: below).IsChain MemoryTree.emptied.Descends) ∧
    ∀ budget, ∃ walk, ((Walk.explore ⟨"/l/o"⟩ budget (.start ⟨"/l/o"⟩)).run
      (World.start MemoryTree.emptied)).1 = .ok walk ∧ walk.pending ≠ [] :=
  discover_endless (by decide +kernel) (by decide +kernel) (by decide +kernel) (by decide +kernel)
    (show Component.current :: [.name "a.js"] ∈ MemoryTree.emptied.places by decide +kernel)

end Dealias
