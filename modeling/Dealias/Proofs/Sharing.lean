import Dealias.Proofs.Path.Normalize
import Dealias.Proofs.Program
import Dealias.Proofs.Store.Memory

/-!
# Programs in a shared world

Workers share one tree and one cache, so between two requests of a program anything can happen that
the other workers do.  What they do is bounded by one tree, the tree at the start:

* the shared tree resembles it, and everything in the cache is what a computation on it would give
  (`World.Agrees`);
* nobody else writes the file that a program is working on, so its content and the record of its
  writes stay as the program left them (`MemoryTree.View`).

`Program.Ensures tree place goal now program` says that under these two conditions alone every
request of the program keeps the first, and that it ends with `goal`.  A program that only looks
leaves every view alone; that it finds something is written `Program.Finds`.

## Strategy

Whether a candidate is located and how a target is addressed are functions of the starting tree
(`MemoryTree.located?`, `relativeSpecifier?`).  Cached answers are keyed by components, and
normalized paths with the same components are the same (`Path.normalize_ext`), so a true answer
stays true for every path that finds it.
-/

namespace Dealias

/-! ## Normal paths -/

/-- Whether a path is the normal form of some path. -/
def Path.IsNormal (path : Path) : Prop :=
  ∃ source : Path, source.normalize = path

theorem Path.IsNormal.ext {first second : Path} (hfirst : first.IsNormal)
    (hsecond : second.IsNormal) (hsame : first.location = second.location) : first = second := by
  obtain ⟨source, rfl⟩ := hfirst
  obtain ⟨source', rfl⟩ := hsecond
  exact Path.normalize_ext hsame

theorem Path.IsNormal.normalize_eq {path : Path} (hnormal : path.IsNormal) :
    path.normalize = path := by
  obtain ⟨source, rfl⟩ := hnormal
  exact source.normalize_normalize

theorem Path.IsNormal.location_ne_nil {path : Path} (hnormal : path.IsNormal) :
    path.location ≠ [] := by
  obtain ⟨source, rfl⟩ := hnormal
  exact source.location_normalize_ne_nil

theorem Path.isNormal_anchor (path base : Path) : (path.anchor base).IsNormal := by
  unfold Path.anchor
  split
  · exact ⟨_, rfl⟩
  · exact ⟨_, rfl⟩

/-- How a target is addressed depends on the components of the directory alone. -/
theorem relativeSpecifier?_congr {directory directory' : Path}
    (hsame : directory.location = directory'.location) (target : Path) :
    relativeSpecifier? directory target = relativeSpecifier? directory' target := by
  simp only [relativeSpecifier?, Path.relativeTo?, Path.isAbsolute_congr hsame, hsame]

/-! ## What a tree answers -/

namespace MemoryTree

/-- Whether a regular file stands at a path. -/
def isFile (tree : MemoryTree) (path : Path) : Bool :=
  match (tree.describe path).1 with
  | .ok metadata => metadata.isFile
  | .error _ => false

/-- The file behind a candidate. -/
def located? (tree : MemoryTree) (candidate : Path) : Option Path :=
  (probeNames candidate).find? tree.isFile

theorem Resembles.isFile_eq {tree other : MemoryTree} (hresembles : tree.Resembles other) :
    other.isFile = tree.isFile := by
  funext path
  rw [isFile, isFile, hresembles.describe_eq]

theorem Resembles.located?_eq {tree other : MemoryTree} (hresembles : tree.Resembles other)
    (candidate : Path) : other.located? candidate = tree.located? candidate := by
  rw [located?, located?, hresembles.isFile_eq]

/-- What the worker on a file sees of it: its content, and the record of its writes. -/
structure View where
  content : Option ByteArray
  writes : List Path

/-- The view of a place. -/
def view (tree : MemoryTree) (place : Location) : View where
  content := tree.content? place
  writes := tree.writes.filter fun path => path.location = place

end MemoryTree

/-! ## Agreement -/

/-- Whether a world is bounded by a tree: its tree resembles it, and its cache is true of it. -/
structure World.Agrees (tree : MemoryTree) (world : World MemoryTree) : Prop where
  store : tree.Resembles world.store
  probes : ∀ candidate found, candidate.IsNormal →
    world.cache.probes.lookup candidate.location = some found → found = tree.located? candidate
  specifiers : ∀ target directory specifier, target.IsNormal →
    world.cache.specifiers.lookup (target.location, directory.location) = some specifier →
      relativeSpecifier? directory target = some specifier
  /-- Writes are recorded and never taken back. -/
  writes : tree.writes <:+ world.store.writes

theorem World.agrees_start {tree other : MemoryTree} (hresembles : tree.Resembles other)
    (hwrites : tree.writes <:+ other.writes) : (World.start other).Agrees tree where
  store := hresembles
  probes _ _ _ hfound := by cases hfound
  specifiers _ _ _ _ hfound := by cases hfound
  writes := hwrites

/-- An action that leaves the cache and all places alone keeps the agreement. -/
theorem World.Agrees.of_store {tree : MemoryTree} {world next : World MemoryTree}
    (hagrees : world.Agrees tree) (hstore : world.store.Resembles next.store)
    (hprobes : next.cache.probes = world.cache.probes)
    (hspecifiers : next.cache.specifiers = world.cache.specifiers)
    (hwrites : world.store.writes <:+ next.store.writes) : next.Agrees tree where
  store := hagrees.store.trans hstore
  probes := hprobes ▸ hagrees.probes
  specifiers := hspecifiers ▸ hagrees.specifiers
  writes := hagrees.writes.trans hwrites

/-! ## Programs among others -/

namespace Program

variable {First Second : Type} {tree : MemoryTree} {place : Location}

/-- Whether a program keeps the agreement with a tree and ends with `goal`, as long as others keep
the agreement too and leave the view of one place alone, which is `now` at the start. -/
def Ensures (tree : MemoryTree) (place : Location) (goal : MemoryTree.View → First → Prop) :
    MemoryTree.View → Program First → Prop
  | now, done result => goal now result
  | now, ask request next => ∀ world : World MemoryTree, world.Agrees tree →
      world.store.view place = now →
        (world.answer request).2.Agrees tree ∧
          (next (world.answer request).1).Ensures tree place goal
            ((world.answer request).2.store.view place)

theorem Ensures.mono {goal goal' : MemoryTree.View → First → Prop} {now : MemoryTree.View}
    {program : Program First} (hprogram : program.Ensures tree place goal now)
    (hgoal : ∀ now result, goal now result → goal' now result) :
    program.Ensures tree place goal' now := by
  induction program generalizing now with
  | done result => exact hgoal now result hprogram
  | ask request next ih =>
      intro world hagrees hview
      obtain ⟨hanswer, hnext⟩ := hprogram world hagrees hview
      exact ⟨hanswer, ih _ hnext⟩

theorem Ensures.bind {goal : MemoryTree.View → First → Prop}
    {goal' : MemoryTree.View → Second → Prop} {now : MemoryTree.View} {program : Program First}
    (hprogram : program.Ensures tree place goal now) {next : First → Program Second}
    (hnext : ∀ now result, goal now result → (next result).Ensures tree place goal' now) :
    (program >>= next).Ensures tree place goal' now := by
  induction program generalizing now with
  | done result => exact hnext now result hprogram
  | ask request rest ih =>
      intro world hagrees hview
      obtain ⟨hanswer, hrest⟩ := hprogram world hagrees hview
      exact ⟨hanswer, ih _ hrest⟩

/-- A program that runs in one go has no others around it. -/
theorem Ensures.run {goal : MemoryTree.View → First → Prop} {program : Program First}
    {world : World MemoryTree} (hagrees : world.Agrees tree)
    (hprogram : program.Ensures tree place goal (world.store.view place)) :
    (program.run world).2.Agrees tree ∧
      goal ((program.run world).2.store.view place) (program.run world).1 := by
  induction program generalizing world with
  | done result => exact ⟨hagrees, hprogram⟩
  | ask request next ih =>
      obtain ⟨hanswer, hnext⟩ := hprogram world hagrees rfl
      exact ih _ hanswer hnext

/-! ## Programs that look -/

/-- Whether a program ends with `goal` and leaves every view alone, whatever others do. -/
def Finds (tree : MemoryTree) (goal : First → Prop) (program : Program First) : Prop :=
  ∀ place now, program.Ensures tree place (fun now' result => now' = now ∧ goal result) now

theorem finds_pure {goal : First → Prop} {result : First} (hresult : goal result) :
    Finds tree goal (pure result : Program First) :=
  fun _ _ => ⟨rfl, hresult⟩

theorem Finds.mono {goal goal' : First → Prop} {program : Program First}
    (hprogram : program.Finds tree goal) (hgoal : ∀ result, goal result → goal' result) :
    program.Finds tree goal' :=
  fun place now => (hprogram place now).mono fun _ result h => ⟨h.1, hgoal result h.2⟩

theorem Finds.bind {goal : First → Prop} {goal' : Second → Prop} {program : Program First}
    (hprogram : program.Finds tree goal) {next : First → Program Second}
    (hnext : ∀ result, goal result → (next result).Finds tree goal') :
    (program >>= next).Finds tree goal' := by
  intro place now
  refine (hprogram place now).bind fun now' result ⟨hview, hgoal⟩ => ?_
  subst hview
  exact hnext result hgoal place now'

/-- What a program finds is what it ends with, and it changes no content and records no write. -/
theorem Finds.run {goal : First → Prop} {program : Program First} {world : World MemoryTree}
    (hprogram : program.Finds tree goal) (hagrees : world.Agrees tree) :
    (program.run world).2.Agrees tree ∧ goal (program.run world).1 ∧
      ∀ place, (program.run world).2.store.view place = world.store.view place := by
  have hrun := fun place => (hprogram place _).run hagrees
  exact ⟨(hrun []).1, (hrun []).2.2, fun place => (hrun place).2.1⟩

/-! ## Requests that look -/

/-- A request that keeps the agreement and all contents. -/
theorem finds_request {request : Request} {goal : request.Reply → Prop}
    (hrequest : ∀ world : World MemoryTree, world.Agrees tree →
      (world.answer request).2.Agrees tree ∧ goal (world.answer request).1 ∧
        (world.answer request).2.store.files = world.store.files ∧
        (world.answer request).2.store.writes = world.store.writes) :
    (Program.request request).Finds tree goal := by
  rintro place _ world hagrees rfl
  obtain ⟨hanswer, hgoal, hfiles, hwrites⟩ := hrequest world hagrees
  refine ⟨hanswer, ?_, hgoal⟩
  rw [MemoryTree.view, MemoryTree.view, MemoryTree.content?, hfiles, hwrites]
  rfl

theorem finds_emit (event : Event) :
    (Program.request (.emit event)).Finds tree fun _ => True :=
  finds_request fun _ hagrees =>
    ⟨hagrees.of_store (.refl _) rfl rfl (List.suffix_refl _), trivial, rfl, rfl⟩

theorem finds_describe (path : Path) :
    (Program.request (.describe path)).Finds tree (· = (tree.describe path).1) :=
  finds_request fun _ hagrees =>
    ⟨hagrees.of_store ⟨rfl, rfl, rfl, rfl, rfl, rfl⟩ rfl rfl (List.suffix_refl _),
      hagrees.store.describe_eq path, rfl, rfl⟩

theorem finds_list (path : Path) :
    (Program.request (.list path)).Finds tree (· = tree.list path) :=
  finds_request fun _ hagrees =>
    ⟨hagrees.of_store (.refl _) rfl rfl (List.suffix_refl _), hagrees.store.list_eq path, rfl, rfl⟩

theorem finds_isPresent (path : Path) :
    (Program.request (.isPresent path)).Finds tree (· = tree.isPresent path) :=
  finds_request fun _ hagrees => ⟨hagrees, hagrees.store.isPresent_eq path, rfl, rfl⟩

/-- What the cache knows about a candidate is true. -/
theorem finds_lookupProbe {candidate : Path} (hcandidate : candidate.IsNormal) :
    (Program.request (.lookupProbe candidate)).Finds tree fun known =>
      ∀ found, known = some found → found = tree.located? candidate :=
  finds_request fun _ hagrees =>
    ⟨hagrees.of_store (.refl _) rfl rfl (List.suffix_refl _),
      fun _ hfound => hagrees.probes _ _ hcandidate hfound, rfl, rfl⟩

/-- What is true of a candidate may be remembered. -/
theorem finds_storeProbe {candidate : Path} (hcandidate : candidate.IsNormal) :
    (Program.request (.storeProbe candidate (tree.located? candidate))).Finds tree
      fun _ => True := by
  refine finds_request fun world hagrees => ⟨⟨hagrees.store, ?_, hagrees.specifiers,
    hagrees.writes⟩, trivial, rfl, rfl⟩
  intro other found hother hfound
  change List.lookup _ ((candidate.location, _) :: world.cache.probes) = _ at hfound
  rw [List.lookup_cons] at hfound
  split at hfound
  · rename_i hsame
    -- the key stands for this candidate alone, since both are normal
    rw [hother.ext hcandidate (beq_iff_eq.mp hsame)]
    exact (Option.some.inj hfound).symm
  · exact hagrees.probes other found hother hfound

/-- What the cache knows about the way to a target is true. -/
theorem finds_lookupSpecifier {target : Path} (htarget : target.IsNormal) (directory : Path) :
    (Program.request (.lookupSpecifier target directory)).Finds tree fun known =>
      ∀ specifier, known = some specifier → relativeSpecifier? directory target = some specifier :=
  finds_request fun _ hagrees =>
    ⟨hagrees.of_store (.refl _) rfl rfl (List.suffix_refl _),
      fun _ hfound => hagrees.specifiers _ _ _ htarget hfound, rfl, rfl⟩

/-- What is true of the way to a target may be remembered. -/
theorem finds_storeSpecifier {target directory : Path} (htarget : target.IsNormal)
    {specifier : String} (hspecifier : relativeSpecifier? directory target = some specifier) :
    (Program.request (.storeSpecifier target directory specifier)).Finds tree
      fun _ => True := by
  refine finds_request fun world hagrees => ⟨⟨hagrees.store, hagrees.probes, ?_,
    hagrees.writes⟩, trivial, rfl, rfl⟩
  intro other directory' specifier' hother hfound
  change List.lookup _ (((target.location, directory.location), specifier) ::
    world.cache.specifiers) = _ at hfound
  rw [List.lookup_cons] at hfound
  split at hfound
  · rename_i hsame
    obtain ⟨htargets, hdirectories⟩ := Prod.ext_iff.mp (beq_iff_eq.mp hsame)
    rw [hother.ext htarget htargets, relativeSpecifier?_congr hdirectories, hspecifier]
    exact hfound
  · exact hagrees.specifiers other directory' specifier' hother hfound

end Program

/-! ## Questions about places -/

/-- Whether a request asks about places, or tells an event. -/
def Request.isQuestion : Request → Bool
  | describe _ => true
  | list _ => true
  | isPresent _ => true
  | emit _ => true
  | _ => false

namespace Program

variable {Result : Type} {tree : MemoryTree}

/-- Whether a program asks only about places. -/
abbrev OnlyAsks (program : Program Result) : Prop :=
  program.Within (fun request => request.isQuestion = true) fun _ => True

/-- A question has one answer in all worlds that a tree bounds. -/
theorem answer_question {request : Request} (hquestion : request.isQuestion = true)
    {first second : World MemoryTree} (hfirst : first.Agrees tree) (hsecond : second.Agrees tree) :
    (first.answer request).1 = (second.answer request).1 := by
  cases request with
  | describe path =>
      exact (hfirst.store.describe_eq path).trans (hsecond.store.describe_eq path).symm
  | list path => exact (hfirst.store.list_eq path).trans (hsecond.store.list_eq path).symm
  | isPresent path =>
      exact (hfirst.store.isPresent_eq path).trans (hsecond.store.isPresent_eq path).symm
  | emit event => rfl
  | _ => cases hquestion

theorem finds_question {request : Request} (hquestion : request.isQuestion = true) :
    (Program.request request).Finds tree fun _ => True := by
  cases request with
  | describe path => exact (finds_describe path).mono fun _ _ => trivial
  | list path => exact (finds_list path).mono fun _ _ => trivial
  | isPresent path => exact (finds_isPresent path).mono fun _ _ => trivial
  | emit event => exact finds_emit event
  | _ => cases hquestion

/-- **Questions.**  A program that asks only about places ends in the same way in all worlds that a
tree bounds, whatever others do between its requests. -/
theorem OnlyAsks.finds {program : Program Result} (hprogram : program.OnlyAsks)
    {start : World MemoryTree} (hstart : start.Agrees tree) :
    program.Finds tree (· = (program.run start).1) := by
  induction program generalizing start with
  | done result => exact finds_pure rfl
  | ask request next ih =>
      rintro place _ world hagrees rfl
      obtain ⟨hquestion, hnext⟩ := hprogram
      obtain ⟨hanswer, -, hview⟩ := (finds_question hquestion).run hagrees
      obtain ⟨hanswer', -, -⟩ := (finds_question hquestion).run hstart
      refine ⟨hanswer, ?_⟩
      -- the program goes on in both worlds with the same answer
      have hreply := answer_question hquestion hagrees hstart
      have hends := ih _ (hnext (world.answer request).1) hanswer' place
        ((world.answer request).2.store.view place)
      refine hends.mono fun now result ⟨hnow, hresult⟩ => ⟨hnow.trans (hview place), ?_⟩
      rw [hresult, hreply]
      rfl

end Program
end Dealias
