import Dealias.Proofs.Discovery
import Dealias.Proofs.Store.Links
import Mathlib.Tactic.Ring

/-!
# Walks end

The bound on the number of listed directories never cuts a walk short: `run_discover_of_le` says
that any larger bound gives the same discovery, result and world.

## Strategy

Following links replaces the front of a place at most `linkSteps` times, so a path that ends at a
directory cannot be much longer than the places that are stored (`length_le_of_isDirectory`).  A
directory that far down has no directories below it, and one further up has at most one for each
stored place.  `visitBound` adds this up, and every visit takes at least one from the sum over the
directories that wait (`Walk.visits_visitIn_lt`).

Listing the empty path is the one exception: an entry of it can be `.`, and the walk would stay
where it is.  What the visits need is that a listed entry lies below the directory it is listed in
(`MemoryTree.GoesDown`).  So it is when the walk starts at a plain directory, and when no link leads
to the empty path (`MemoryTree.IsGrounded`).
-/

namespace Dealias

/-! ## Following links -/

namespace MemoryTree

theorem length_le_greatestLength {place : Location} {places : List Location}
    (hplace : place ∈ places) : place.length ≤ greatestLength places := by
  induction places with
  | nil => cases hplace
  | cons first others ih =>
      rcases List.mem_cons.mp hplace with rfl | hplace
      · exact Nat.le_max_left _ _
      · exact (ih hplace).trans (Nat.le_max_right _ _)

theorem greatestLength_le {bound : Nat} {places : List Location}
    (hplaces : ∀ place ∈ places, place.length ≤ bound) : greatestLength places ≤ bound := by
  induction places with
  | nil => exact Nat.zero_le _
  | cons first others ih =>
      obtain ⟨hfirst, hothers⟩ := List.forall_mem_cons.mp hplaces
      exact Nat.max_le.mpr ⟨hfirst, ih hothers⟩

theorem length_le_join (base rest : Location) : rest.length ≤ (Location.join base rest).length := by
  unfold Location.join
  split
  · exact Nat.le_refl _
  · split
    · exact Nat.le_refl _
    · rename_i hbase
      have hpositive := List.length_pos_of_ne_nil hbase
      simp only [List.length_cons, List.length_append]
      omega
  · simp

variable {links : List (Location × Location)}

theorem length_le_of_follow {bound : Nat} (hbound : ∀ link ∈ links, link.1.length ≤ bound)
    {steps : Nat} {place last : Location} (hfollow : follow links steps place = some last) :
    place.length ≤ steps * bound + last.length := by
  induction steps generalizing place with
  | zero => cases hfollow
  | succ steps ih =>
      rw [follow] at hfollow
      split at hfollow
      · obtain rfl := Option.some.inj hfollow
        exact Nat.le_add_left _ _
      · rename_i next hhop
        obtain ⟨link, hlink, rest, rfl, rfl⟩ := exists_of_hop? hhop
        have hlength := hbound link hlink
        have hrest := length_le_join link.2 rest
        have hnext := ih hfollow
        rw [List.length_append, Nat.succ_mul]
        omega

theorem ne_nil_of_follow (htargets : ∀ link ∈ links, link.2 ≠ []) {steps : Nat}
    {place last : Location} (hplace : place ≠ []) (hfollow : follow links steps place = some last) :
    last ≠ [] := by
  induction steps generalizing place with
  | zero => cases hfollow
  | succ steps ih =>
      rw [follow] at hfollow
      split at hfollow
      · exact Option.some.inj hfollow ▸ hplace
      · rename_i next hhop
        obtain ⟨link, hlink, rest, -, rfl⟩ := exists_of_hop? hhop
        refine ih (fun hnext => ?_) hfollow
        have hrest := length_le_join link.2 rest
        rw [hnext, List.length_nil, Nat.le_zero, List.length_eq_zero_iff] at hrest
        rw [hrest, Location.join_nil] at hnext
        exact htargets link hlink hnext

/-! ## Directories -/

variable {tree : MemoryTree} {root path : Path} {place : Location}

theorem isBelow_iff {ancestor : Location} :
    isBelow ancestor place = true ↔ ∃ component rest, place = ancestor ++ component :: rest := by
  unfold isBelow
  constructor
  · intro hbelow
    split at hbelow
    · rename_i component rest hrest
      exact ⟨component, rest, Location.below?_eq_some_iff.mp hrest⟩
    · cases hbelow
  · rintro ⟨component, rest, hplace⟩
    rw [Location.below?_eq_some_iff.mpr hplace]

theorem hasDirectory_iff :
    tree.hasDirectory place = true ↔
      ∃ component rest, place ++ component :: rest ∈ tree.places := by
  rw [hasDirectory, List.any_eq_true]
  constructor
  · rintro ⟨entry, hentry, hbelow⟩
    obtain ⟨component, rest, rfl⟩ := isBelow_iff.mp hbelow
    exact ⟨component, rest, hentry⟩
  · rintro ⟨component, rest, hentry⟩
    exact ⟨_, hentry, isBelow_iff.mpr ⟨component, rest, rfl⟩⟩

/-- How far down a walk from a path can find directories. -/
def walkDepth (tree : MemoryTree) (root : Path) : Nat :=
  greatestLength (root.location :: tree.places) +
    linkSteps * greatestLength (tree.places ++ tree.links.map Prod.snd)

theorem directoryBound_eq (tree : MemoryTree) (root : Path) :
    tree.directoryBound root = (tree.places.length + 2) ^ (2 * (tree.walkDepth root + 2)) :=
  rfl

/-- How far down directories can be: as deep as the deepest stored place, and deeper by as many
components as links can take away in all hops. -/
def descentBound (tree : MemoryTree) : Nat :=
  greatestLength tree.places + linkSteps * greatestLength (tree.links.map Prod.fst)

theorem length_lt_of_isDirectory (hdirectory : (tree.resolve? path).any tree.hasDirectory = true) :
    path.location.length < tree.descentBound := by
  obtain ⟨place, hresolve, hplace⟩ := (Option.any_eq_true _ _).mp hdirectory
  obtain ⟨component, rest, hentry⟩ := hasDirectory_iff.mp hplace
  have hlinks : ∀ link ∈ tree.links,
      link.1.length ≤ greatestLength (tree.links.map Prod.fst) :=
    fun link hlink => length_le_greatestLength (List.mem_map_of_mem hlink)
  have hfollow := length_le_of_follow hlinks hresolve
  have hlength := length_le_greatestLength hentry
  rw [List.length_append, List.length_cons] at hlength
  unfold descentBound
  omega

theorem descentBound_le (tree : MemoryTree) (root : Path) :
    tree.descentBound ≤ tree.walkDepth root := by
  have hplaces : greatestLength tree.places ≤ greatestLength (root.location :: tree.places) :=
    Nat.le_max_right _ _
  have hlinks : greatestLength (tree.links.map Prod.fst) ≤
      greatestLength (tree.places ++ tree.links.map Prod.snd) :=
    greatestLength_le fun place hplace => length_le_greatestLength
      (List.mem_append_left _ (List.mem_append_right _ hplace))
  exact Nat.add_le_add hplaces (Nat.mul_le_mul_left _ hlinks)

theorem length_le_of_isDirectory (root : Path)
    (hdirectory : (tree.resolve? path).any tree.hasDirectory = true) :
    path.location.length ≤ tree.walkDepth root :=
  (length_lt_of_isDirectory hdirectory).le.trans (tree.descentBound_le root)

theorem length_names_le (tree : MemoryTree) (place : Location) :
    (tree.names place).length ≤ tree.places.length := by
  have hinsert : ∀ name names, (insertName name names).length ≤ names.length + 1 := by
    intro name names
    induction names with
    | nil => simp [insertName]
    | cons other others ih =>
        unfold insertName
        split
        · simp
        split
        · simp
        · simpa using ih
  have hfold : ∀ texts : List String, (texts.foldr insertName []).length ≤ texts.length := by
    intro texts
    induction texts with
    | nil => exact Nat.le_refl _
    | cons text texts ih =>
        have hlength := hinsert text (texts.foldr insertName [])
        rw [List.foldr_cons, List.length_cons]
        omega
  exact (hfold _).trans (List.length_filterMap_le ..)

theorem exists_of_list_ok {names : List String} (hlist : tree.list path = .ok names) :
    path.location ∉ tree.failingListings ∧ ∃ place, tree.resolve? path = some place ∧
      tree.hasDirectory place = true ∧ names = tree.names place := by
  unfold list at hlist
  split at hlist
  · cases hlist
  · rename_i hfailing
    refine ⟨by simpa using hfailing, ?_⟩
    split at hlist
    · cases hlist
    · rename_i place hresolve
      split at hlist
      · rename_i hdirectory
        exact ⟨place, hresolve, hdirectory, (Except.ok.inj hlist).symm⟩
      · cases hlist

/-- Whether following links from a place does not end at the empty path: the place is plain, or no
link leads to the empty path. -/
def IsGrounded (tree : MemoryTree) (place : Location) : Prop :=
  place ≠ [] ∧ (tree.IsPlain place ∨ ∀ link ∈ tree.links, link.2 ≠ [])

theorem IsGrounded.append (hgrounded : tree.IsGrounded place) {component : Component}
    (hlink : tree.hasLink (place ++ [component]) = false) :
    tree.IsGrounded (place ++ [component]) :=
  ⟨by simp, hgrounded.2.imp_left fun hplain => hplain.append hlink⟩

/-- The names in a grounded directory spell steps. -/
theorem IsGrounded.isStep (hgrounded : tree.IsGrounded path.location) {names : List String}
    (hlist : tree.list path = .ok names) {name : String} (hname : name ∈ names) :
    ∃ component : Component, component.IsStep ∧ component.text = name := by
  obtain ⟨-, place, hresolve, -, rfl⟩ := exists_of_list_ok hlist
  refine isStep_of_mem_names ?_ hname
  rcases hgrounded.2 with hplain | htargets
  · rw [hplain.resolve?_eq] at hresolve
    exact Option.some.inj hresolve ▸ hgrounded.1
  · exact ne_nil_of_follow htargets hgrounded.1 hresolve

/-! ## Going down -/

/-- Whether a walk that lists a directory goes on to an entry of it. -/
def Descends (tree : MemoryTree) (directory entry : Path) : Prop :=
  tree.isDirectoryEntry entry = true ∧
    ∃ names, tree.list directory = .ok names ∧ ∃ name ∈ names, entry = directory.join ⟨name⟩

theorem Descends.isDirectory {directory entry : Path} (hdescends : tree.Descends directory entry) :
    (tree.resolve? entry).any tree.hasDirectory = true := by
  have hentry := hdescends.1
  rw [isDirectoryEntry, Bool.and_eq_true] at hentry
  exact hentry.2

/-- As long as no link leads to the empty path, a walk goes one step down each time. -/
theorem Descends.exists_location (htargets : ∀ link ∈ tree.links, link.2 ≠ [])
    {directory entry : Path} (hdescends : tree.Descends directory entry) :
    ∃ component, entry.location = directory.location ++ [component] := by
  obtain ⟨-, names, hlist, name, hname, rfl⟩ := hdescends
  obtain ⟨-, place, hresolve, -, rfl⟩ := exists_of_list_ok hlist
  have hempty : place = [] → directory.location = [] := fun hplace => by
    by_contra hdirectory
    exact ne_nil_of_follow htargets hdirectory hresolve hplace
  obtain ⟨component, -, hcomponent⟩ := exists_of_mem_names hempty hname
  exact ⟨component, hcomponent⟩

/-- Whether walks go on from directories of a kind to directories of that kind, one step further
down each time. -/
def GoesDown (tree : MemoryTree) (kind : Path → Prop) : Prop :=
  ∀ directory entry, kind directory → tree.Descends directory entry →
    kind entry ∧ entry.location.length = directory.location.length + 1

/-- The directories that a walk can come to. -/
abbrev Reaches (tree : MemoryTree) (root : Path) : Path → Prop :=
  Relation.ReflTransGen tree.Descends root

theorem goesDown_reaches (htargets : ∀ link ∈ tree.links, link.2 ≠ []) (root : Path) :
    tree.GoesDown (tree.Reaches root) := by
  intro directory entry hreaches hdescends
  obtain ⟨component, hlocation⟩ := hdescends.exists_location htargets
  exact ⟨hreaches.tail hdescends, by rw [hlocation, List.length_append, List.length_singleton]⟩

theorem goesDown_isGrounded : tree.GoesDown fun path => tree.IsGrounded path.location := by
  rintro directory _ hgrounded ⟨hentry, names, hlist, name, hname, rfl⟩
  obtain ⟨component, hcomponent, rfl⟩ := hgrounded.isStep hlist hname
  have hlocation := Path.location_join_step directory hcomponent
  rw [isDirectoryEntry, Bool.and_eq_true, Bool.not_eq_true', hlocation] at hentry
  dsimp only
  rw [hlocation]
  exact ⟨hgrounded.append hentry.1, by simp⟩

/-- How long a chain of directories can be, each of them an entry of the one before. -/
theorem length_le_of_isChain {kind : Path → Prop} (hdown : tree.GoesDown kind) {below : List Path}
    (hroot : kind root) (hchain : (root :: below).IsChain tree.Descends) :
    below.length ≤ tree.descentBound := by
  have hlength : below = [] ∨ root.location.length + below.length < tree.descentBound := by
    induction below generalizing root with
    | nil => exact .inl rfl
    | cons first below ih =>
        obtain ⟨hfirst, hbelow⟩ := List.isChain_cons_cons.mp hchain
        obtain ⟨hkind, hstep⟩ := hdown root first hroot hfirst
        have hdepth := length_lt_of_isDirectory hfirst.isDirectory
        rw [List.length_cons]
        rcases ih hkind hbelow with rfl | hlength
        · rw [List.length_nil]
          omega
        · omega
  rcases hlength with rfl | hlength
  · exact Nat.zero_le _
  · omega

end MemoryTree

/-! ## Counting visits -/

/-- The number of visits that a directory causes when a walk goes at most `depth` steps further down
and no directory has more than `breadth` entries. -/
def visitBound (breadth : Nat) : (depth : Nat) → Nat
  | 0 => 1
  | depth + 1 => 1 + breadth * visitBound breadth depth

theorem visitBound_le (breadth depth : Nat) : visitBound breadth depth ≤ (breadth + 1) ^ depth := by
  induction depth with
  | zero => exact Nat.le_refl _
  | succ depth ih =>
      have hpositive : 1 ≤ (breadth + 1) ^ depth := Nat.one_le_pow _ _ (Nat.succ_pos _)
      calc visitBound breadth (depth + 1) = 1 + breadth * visitBound breadth depth := rfl
        _ ≤ (breadth + 1) ^ depth + breadth * (breadth + 1) ^ depth :=
          Nat.add_le_add hpositive (Nat.mul_le_mul_left _ ih)
        _ = (breadth + 1) ^ (depth + 1) := by ring

theorem visitBound_pos (breadth depth : Nat) : 0 < visitBound breadth depth := by
  cases depth with
  | zero => exact Nat.one_pos
  | succ depth =>
      rw [visitBound]
      omega

/-- The directories in a directory cause fewer visits than the directory itself. -/
theorem sum_visitBound_lt {breadth depth length : Nat} {added : List Path}
    (hbreadth : added.length ≤ breadth)
    (hadded : ∀ path ∈ added, path.location.length = length + 1 ∧ path.location.length ≤ depth) :
    (added.map fun path => visitBound breadth (depth - path.location.length)).sum <
      visitBound breadth (depth - length) := by
  cases added with
  | nil => exact visitBound_pos _ _
  | cons first others =>
      obtain ⟨hlength, hdepth⟩ := hadded first (List.mem_cons_self ..)
      have hstep : depth - length = depth - (length + 1) + 1 := by omega
      -- all of them are one step below the directory
      have hsame : (first :: others).map (fun path =>
          visitBound breadth (depth - path.location.length)) =
          List.replicate (first :: others).length (visitBound breadth (depth - (length + 1))) := by
        refine List.map_eq_replicate_iff.mpr fun path hpath => ?_
        rw [(hadded path hpath).1]
      rw [hsame, List.sum_replicate_nat, hstep, visitBound]
      have hmul := Nat.mul_le_mul_right (visitBound breadth (depth - (length + 1))) hbreadth
      omega

namespace Walk

variable {tree : MemoryTree} {root : Path}

/-- The number of visits that a walk can still make. -/
def visits (tree : MemoryTree) (root : Path) (walk : Walk) : Nat :=
  (walk.pending.map fun path =>
    visitBound tree.places.length (tree.walkDepth root - path.location.length)).sum

section Down

variable {kind : Path → Prop} (hdown : tree.GoesDown kind)
include hdown

/-- The directories that the entries of a directory add to a walk. -/
theorem exists_pending_addEntriesIn (root : Path) {directory : Path} (hdirectory : kind directory)
    {names : List String} (hlist : tree.list directory = .ok names) (walk : Walk) :
    ∃ added, (addEntriesIn tree directory names walk).pending = added ++ walk.pending ∧
      added.length ≤ names.length ∧ ∀ path ∈ added, kind path ∧
        path.location.length = directory.location.length + 1 ∧
        path.location.length ≤ tree.walkDepth root := by
  rw [addEntriesIn_eq]
  refine ⟨_, rfl, ?_, ?_⟩
  · have hlength := List.length_filter_le tree.isDirectoryEntry
      (names.map fun name => directory.join ⟨name⟩)
    simpa using hlength
  · intro path hpath
    obtain ⟨hpath, hentry⟩ := List.mem_filter.mp (List.mem_reverse.mp hpath)
    obtain ⟨name, hname, rfl⟩ := List.mem_map.mp hpath
    have hdescends : tree.Descends directory (directory.join ⟨name⟩) :=
      ⟨hentry, names, hlist, name, hname, rfl⟩
    obtain ⟨hkind, hlength⟩ := hdown _ _ hdirectory hdescends
    exact ⟨hkind, hlength, MemoryTree.length_le_of_isDirectory root hdescends.isDirectory⟩

/-- A visit leaves fewer visits to make, to directories of the same kind. -/
theorem visits_visitIn_lt {directory : Path} {pending found : List Path} {walk : Walk}
    (hkind : ∀ path ∈ directory :: pending, kind path)
    (hvisit : visitIn tree root directory ⟨pending, found⟩ = .ok walk) :
    visits tree root walk < visits tree root ⟨directory :: pending, found⟩ ∧
      ∀ path ∈ walk.pending, kind path := by
  obtain ⟨hdirectory, hpending⟩ := List.forall_mem_cons.mp hkind
  rcases visitIn_eq_ok hvisit with ⟨names, hlist, rfl⟩ | ⟨-, -, rfl⟩
  · obtain ⟨added, hwalk, hlength, hadded⟩ :=
      exists_pending_addEntriesIn hdown root hdirectory hlist ⟨pending, found⟩
    obtain ⟨-, place, -, -, rfl⟩ := MemoryTree.exists_of_list_ok hlist
    refine ⟨?_, ?_⟩
    · have hnames := MemoryTree.length_names_le tree place
      simp only [visits, hwalk, List.map_append, List.sum_append, List.map_cons, List.sum_cons]
      have hadd := sum_visitBound_lt (hlength.trans hnames) fun path hpath => (hadded path hpath).2
      omega
    · rw [hwalk]
      exact List.forall_mem_append.mpr ⟨fun path hpath => (hadded path hpath).1, hpending⟩
  · refine ⟨?_, hpending⟩
    have hpositive := visitBound_pos tree.places.length
      (tree.walkDepth root - directory.location.length)
    simp only [visits, List.map_cons, List.sum_cons]
    omega

/-- A walk with as many visits to make as it may has none left at its end. -/
theorem pending_of_exploreIn {budget : Nat} {walk walk' : Walk}
    (hkind : ∀ path ∈ walk.pending, kind path) (hbudget : visits tree root walk ≤ budget)
    (hexplore : exploreIn tree root budget walk = .ok walk') : walk'.pending = [] := by
  induction budget generalizing walk with
  | zero =>
      obtain rfl := Except.ok.inj hexplore
      cases hpending : walk.pending with
      | nil => rfl
      | cons directory pending =>
          have hpositive := visitBound_pos tree.places.length
            (tree.walkDepth root - directory.location.length)
          simp only [visits, hpending, List.map_cons, List.sum_cons] at hbudget
          omega
  | succ budget ih =>
      obtain ⟨pending, found⟩ := walk
      cases pending with
      | nil => exact Except.ok.inj hexplore ▸ rfl
      | cons directory pending =>
          unfold exploreIn at hexplore
          dsimp only at hexplore
          split at hexplore
          · rename_i next hnext
            obtain ⟨hfewer, hnextKind⟩ := visits_visitIn_lt hdown hkind hnext
            exact ih hnextKind (by omega) hexplore
          · cases hexplore

end Down

theorem visits_start_le (tree : MemoryTree) (root : Path) :
    visits tree root (start root) ≤ tree.directoryBound root := by
  have hpositive : 0 < tree.places.length + 2 := Nat.succ_pos _
  calc visits tree root (start root)
      = visitBound tree.places.length (tree.walkDepth root - root.location.length) := by
        simp [visits, start]
    _ ≤ (tree.places.length + 1) ^ (tree.walkDepth root - root.location.length) :=
        visitBound_le _ _
    _ ≤ (tree.places.length + 2) ^ (tree.walkDepth root - root.location.length) :=
        Nat.pow_le_pow_left (Nat.le_succ _) _
    _ ≤ (tree.places.length + 2) ^ (2 * (tree.walkDepth root + 2)) :=
        Nat.pow_le_pow_right hpositive (by omega)
    _ = tree.directoryBound root := (MemoryTree.directoryBound_eq tree root).symm

/-! ## Budgets -/

/-- A walk that leaves nothing to list is the same with a larger budget. -/
theorem run_explore_of_le {Store : Type} [FileStore Store] {world : World Store}
    {budget larger : Nat} (hle : budget ≤ larger) {walk : Walk}
    (hended : ∀ walk', ((explore root budget walk).run world).1 = .ok walk' → walk'.pending = []) :
    (explore root larger walk).run world = (explore root budget walk).run world := by
  induction budget generalizing larger walk world with
  | zero =>
      have hpending : walk.pending = [] := hended walk rfl
      cases larger with
      | zero => rfl
      | succ larger =>
          unfold explore
          rw [hpending]
  | succ budget ih =>
      obtain ⟨larger, rfl⟩ := Nat.exists_eq_add_of_le' (Nat.one_le_of_lt hle)
      obtain ⟨pending, found⟩ := walk
      cases pending with
      | nil => rfl
      | cons directory pending =>
          unfold explore at hended ⊢
          simp only [Program.bind_eq, Program.run_bind] at hended ⊢
          generalize (visit root directory ⟨pending, found⟩).run world = visited at hended ⊢
          obtain ⟨result, world⟩ := visited
          cases result with
          | ok walk => exact ih (Nat.le_of_succ_le_succ hle) hended
          | error fault => rfl

end Walk

/-! ## Discovery -/

section Discovery

variable {tree : MemoryTree} {root : Path} {budget : Nat} {kind : Path → Prop}

/-- A walk that goes down lists every directory that it comes to. -/
theorem Walk.pending_of_exploreIn_start (hdown : tree.GoesDown kind) (hroot : kind root)
    (hbudget : tree.directoryBound root ≤ budget) {walk : Walk}
    (hexplore : exploreIn tree root budget (start root) = .ok walk) : walk.pending = [] :=
  pending_of_exploreIn hdown (List.forall_mem_singleton.mpr hroot)
    ((visits_start_le tree root).trans hbudget) hexplore

/-- The walk of a discovery lists every directory that it comes to. -/
theorem exists_ended_of_discoverIn (hdown : tree.GoesDown kind) (hroot : kind root)
    (hbudget : tree.directoryBound root ≤ budget) {files : List Path}
    (hdiscover : discoverIn tree budget root = .ok files) :
    ∃ walk, Walk.exploreIn tree root budget (Walk.start root) = .ok walk ∧
      walk.pending = [] ∧ walk.files = files := by
  obtain ⟨walk, hexplore, hfiles⟩ := exists_of_discoverIn hdiscover
  exact ⟨walk, hexplore, Walk.pending_of_exploreIn_start hdown hroot hbudget hexplore, hfiles⟩

/-- **Walks end.**  From a directory from which walks go down, a larger bound on the number of
listed directories changes nothing about a discovery. -/
theorem run_discover_of_le (hdown : tree.GoesDown kind) (hroot : kind root)
    (hbudget : tree.directoryBound root ≤ budget) {world : World MemoryTree}
    (hagrees : world.Agrees tree) :
    (discover budget root).run world = (discover (tree.directoryBound root) root).run world := by
  have hended : ∀ walk,
      ((Walk.explore root (tree.directoryBound root) (Walk.start root)).run world).1 = .ok walk →
        walk.pending = [] := by
    intro walk hexplore
    rw [((Walk.finds_explore _ _).run hagrees).2.1] at hexplore
    exact Walk.pending_of_exploreIn_start hdown hroot le_rfl hexplore
  unfold discover
  rw [Program.bind_eq, Program.bind_eq, Program.run_bind, Program.run_bind,
    Walk.run_explore_of_le hbudget hended]

end Discovery
end Dealias
