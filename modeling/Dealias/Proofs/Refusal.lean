import Dealias.Proofs.Batch.Termination
import Dealias.Proofs.Discovery.Termination
import Dealias.Proofs.Run

/-!
# Refusals

A run is refused for faults of its configuration and for nothing else: `RunOptions.refusal?` names
them in their order, and `RunOptions.refused_iff` says that every run that comes to an end is
refused just for these, and then leaves the tree as it was, and that every run comes to an end.

A directory that fails to be listed refuses a run only when it is the output directory.  The walk
finds that out at its first visit, and any directory that it comes to later and that is at the same
place can be listed when the first one could.
-/

namespace Dealias

variable {tree : MemoryTree} {root : Path} {budget : Nat}

/-! ## Discovery -/

/-- Whether a directory can be listed is a question about its place. -/
theorem MemoryTree.exists_list_ok {first second : Path} (hsame : first.location = second.location)
    {names : List String} (hlist : tree.list first = .ok names) :
    ∃ names', tree.list second = .ok names' := by
  obtain ⟨hfailing, place, hresolve, hdirectory, -⟩ := exists_of_list_ok hlist
  rw [hsame] at hfailing
  rw [resolve?, hsame] at hresolve
  refine ⟨tree.names place, ?_⟩
  rw [list, if_neg (by simpa using hfailing), resolve?, hresolve]
  exact if_pos hdirectory

/-- A walk goes on when the directory that it starts from can be listed. -/
theorem Walk.exists_exploreIn_ok {names : List String} (hlist : tree.list root = .ok names)
    (budget : Nat) (walk : Walk) : ∃ walk', exploreIn tree root budget walk = .ok walk' := by
  induction budget generalizing walk with
  | zero => exact ⟨walk, rfl⟩
  | succ budget ih =>
      obtain ⟨pending, found⟩ := walk
      cases pending with
      | nil => exact ⟨_, rfl⟩
      | cons directory pending =>
          have hvisit : ∃ walk, visitIn tree root directory ⟨pending, found⟩ = .ok walk := by
            unfold visitIn
            split
            · exact ⟨_, rfl⟩
            · rename_i fault hfault
              have hother : ¬ directory.sameAs root = true := by
                intro hsame
                obtain ⟨names', hok⟩ := MemoryTree.exists_list_ok (beq_iff_eq.mp hsame).symm hlist
                rw [hfault] at hok
                cases hok
              exact ⟨_, if_neg hother⟩
          obtain ⟨walk, hwalk⟩ := hvisit
          unfold exploreIn
          dsimp only
          rw [hwalk]
          exact ih walk

theorem exists_run_discover_ok {names : List String} (hlist : tree.list root = .ok names)
    (budget : Nat) {world : World MemoryTree} (hagrees : world.Agrees tree) :
    ∃ files, ((discover budget root).run world).1 = .ok files := by
  obtain ⟨walk, hwalk⟩ := Walk.exists_exploreIn_ok hlist budget (Walk.start root)
  have hfinds := ((finds_discover budget root).run hagrees).2.1
  rw [discoverIn, hwalk] at hfinds
  exact ⟨_, hfinds⟩

/-- A discovery that cannot list its root stops there. -/
theorem run_discover_of_list_error {world : World MemoryTree} {fault : StoreFault}
    (hlist : world.store.list root = .error fault) (hbudget : budget ≠ 0) :
    (discover budget root).run world = (.error fault, world) := by
  obtain ⟨budget, rfl⟩ := Nat.exists_eq_succ_of_ne_zero hbudget
  have hvisit : (Walk.visit root root ⟨[], []⟩).run world = (.error fault, world) := by
    have hanswer : world.answer (.list root) = (.error fault, world) := by
      change (world.store.list root, world) = _
      rw [hlist]
    have hsame : root.sameAs root = true := beq_self_eq_true _
    unfold Walk.visit
    simp only [Program.bind_eq, Program.request, Program.bind, Program.run, hanswer, hsame]
    rfl
  unfold discover Walk.explore
  simp only [Walk.start, Program.bind_eq, Program.run_bind, hvisit]
  rfl

/-! ## Before the batch -/

theorem RunConfig.run_prepare (config : RunConfig) (budget : Nat) (tree : MemoryTree) :
    (config.prepare budget).run (World.start tree) =
      if tree.isPresent config.outDir = false then
        (.error (.outDirNotFound config.outDir), World.start tree)
      else if config.aliases.entries = [] then
        (.ok none, ⟨tree, .empty, [nothingToDoEvent, config.startEvent]⟩)
      else
        let discovered := (discover budget config.outDir).run ⟨tree, .empty, [config.startEvent]⟩
        (match discovered.1 with
          | .error fault => .error (.store fault)
          | .ok files => .ok (some files), discovered.2) := by
  have hpresent : (World.start tree).answer (.isPresent config.outDir) =
      (tree.isPresent config.outDir, World.start tree) := rfl
  unfold RunConfig.prepare
  rw [Program.bind_eq, Program.run_bind, Program.run_request, hpresent]
  cases tree.isPresent config.outDir with
  | false => rfl
  | true =>
      cases config.aliases.entries with
      | nil => rfl
      | cons entry others =>
          -- behind the event the discovery and what is made of it are left
          rw [if_neg nofun, if_neg (List.cons_ne_nil _ _)]
          change ((discover budget config.outDir).bind _).run
            (⟨tree, .empty, [config.startEvent]⟩ : World MemoryTree) = _
          rw [Program.run_bind]
          generalize (discover budget config.outDir).run
            (⟨tree, .empty, [config.startEvent]⟩ : World MemoryTree) = discovered
          obtain ⟨result, world⟩ := discovered
          cases result <;> rfl

/-- The world in which a run discovers its files is bounded by the tree. -/
theorem RunConfig.agrees_startEvent (config : RunConfig) (tree : MemoryTree) :
    (⟨tree, .empty, [config.startEvent]⟩ : World MemoryTree).Agrees tree :=
  (World.agrees_start (.refl tree) (List.suffix_refl _)).of_store (.refl tree) rfl rfl
    (List.suffix_refl _)

/-- Whether the workers of a run can act in the order of a schedule, if there is a batch. -/
def RunConfig.CanFollow (config : RunConfig) (budget : Nat) (tree : MemoryTree)
    (schedule : List Nat) : Prop :=
  ∀ files, ((config.prepare budget).run (World.start tree)).1 = .ok (some files) →
    ((Pool.start config.concurrency files
        ((config.prepare budget).run (World.start tree)).2).follow?
      config.isolateFile schedule).isSome = true

/-- Whether the workers of a run with options can act in the order of a schedule. -/
def RunOptions.CanFollow (options : RunOptions) (tree : MemoryTree) (schedule : List Nat) : Prop :=
  ∀ config, options.configure = .ok config →
    config.CanFollow (options.directoryBound tree) tree schedule

/-- A run ends unless there is a batch that its schedule does not bring to the end. -/
theorem RunConfig.isSome_runScheduled {config : RunConfig} {schedule : List Nat}
    (hends : ∀ files, ((config.prepare budget).run (World.start tree)).1 = .ok (some files) →
      ∃ pool, (Pool.start config.concurrency files
          ((config.prepare budget).run (World.start tree)).2).follow? config.isolateFile
            schedule = some pool ∧ pool.hasReturned = true) :
    (config.runScheduled budget schedule tree).isSome = true := by
  unfold RunConfig.runScheduled
  generalize (config.prepare budget).run (World.start tree) = prepared at hends
  obtain ⟨result, world⟩ := prepared
  match result with
  | .error fault => rfl
  | .ok none => rfl
  | .ok (some files) =>
      obtain ⟨pool, hpool, hreturned⟩ := hends files rfl
      dsimp only at hpool ⊢
      rw [hpool]
      dsimp only
      rw [if_pos hreturned]
      rfl

theorem RunConfig.exists_bound (config : RunConfig) (budget : Nat) (tree : MemoryTree) :
    ∃ bound, ∀ schedule, config.CanFollow budget tree schedule → bound ≤ schedule.length →
      (config.runScheduled budget schedule tree).isSome = true := by
  obtain ⟨bound, hbound⟩ : ∃ bound, ∀ files,
      ((config.prepare budget).run (World.start tree)).1 = .ok (some files) →
      ∀ schedule pool, (Pool.start config.concurrency files
          ((config.prepare budget).run (World.start tree)).2).follow? config.isolateFile
            schedule = some pool → bound ≤ schedule.length → pool.hasReturned = true := by
    by_cases hbatch : ∃ files,
        ((config.prepare budget).run (World.start tree)).1 = .ok (some files)
    · obtain ⟨files, hfiles⟩ := hbatch
      obtain ⟨bound, hbound⟩ := Pool.exists_bound config.isolateFile
        (Pool.start config.concurrency files ((config.prepare budget).run (World.start tree)).2)
      refine ⟨bound, fun files' hfiles' => ?_⟩
      obtain rfl := Option.some.inj (Except.ok.inj (hfiles.symm.trans hfiles'))
      exact hbound
    · exact ⟨0, fun files hfiles => absurd ⟨files, hfiles⟩ hbatch⟩
  refine ⟨bound, fun schedule hfollow hlength => RunConfig.isSome_runScheduled ?_⟩
  intro files hfiles
  obtain ⟨pool, hpool⟩ := Option.isSome_iff_exists.mp (hfollow files hfiles)
  exact ⟨pool, hpool, hbound files hfiles schedule pool hpool hlength⟩

/-- However the workers take turns, after a number of acts the run has ended. -/
theorem RunOptions.exists_bound (options : RunOptions) (tree : MemoryTree) :
    ∃ bound, ∀ schedule, options.CanFollow tree schedule → bound ≤ schedule.length →
      (options.runScheduled schedule tree).isSome = true := by
  unfold RunOptions.runScheduled CanFollow
  cases options.configure with
  | error fault => exact ⟨0, fun _ _ _ => rfl⟩
  | ok config =>
      obtain ⟨bound, hbound⟩ := config.exists_bound (options.directoryBound tree) tree
      exact ⟨bound, fun schedule hfollow => hbound schedule (hfollow config rfl)⟩

/-- Why a run with a configuration is refused, if it is. -/
def RunConfig.refusal? (config : RunConfig) (tree : MemoryTree) : Option RunFault :=
  if tree.isPresent config.outDir = false then some (.outDirNotFound config.outDir)
  else if config.aliases.entries = [] then none
  else
    match tree.list config.outDir with
    | .error fault => some (.store fault)
    | .ok _ => none

/-- Why a run with options is refused, if it is. -/
def RunOptions.refusal? (options : RunOptions) (tree : MemoryTree) : Option RunFault :=
  let outDir := options.outDir.anchor options.projectDir
  match AliasTable.build options.paths outDir (options.baseUrl.getD ⟨"."⟩) with
  | .error fault => some (.invalidAlias fault)
  | .ok table =>
    if tree.isPresent outDir = false then some (.outDirNotFound outDir)
    else if table.entries = [] then none
    else
      match tree.list outDir with
      | .error fault => some (.store fault)
      | .ok _ => none

theorem RunOptions.refusal?_eq (options : RunOptions) (tree : MemoryTree) :
    options.refusal? tree =
      match options.configure with
      | .error fault => some (.invalidAlias fault)
      | .ok config => config.refusal? tree := by
  unfold refusal? configure
  dsimp only
  cases AliasTable.build options.paths (options.outDir.anchor options.projectDir)
    (options.baseUrl.getD ⟨"."⟩) <;> rfl

/-- What a run does before its batch when it is refused, and when it is not. -/
theorem RunConfig.run_prepare_refusal (config : RunConfig) (tree : MemoryTree)
    (hbudget : budget ≠ 0) :
    (∃ fault world, config.refusal? tree = some fault ∧ world.store = tree ∧
        (config.prepare budget).run (World.start tree) = (.error fault, world)) ∨
      config.refusal? tree = none ∧
        ∃ batch, ((config.prepare budget).run (World.start tree)).1 = .ok batch := by
  rw [run_prepare, refusal?]
  split
  · exact .inl ⟨_, _, rfl, rfl, rfl⟩
  split
  · exact .inr ⟨rfl, _, rfl⟩
  cases hlist : tree.list config.outDir with
  | error fault =>
      refine .inl ⟨_, ⟨tree, .empty, [config.startEvent]⟩, rfl, rfl, ?_⟩
      rw [run_discover_of_list_error hlist hbudget]
  | ok names =>
      obtain ⟨files, hfiles⟩ :=
        exists_run_discover_ok hlist budget (config.agrees_startEvent tree)
      refine .inr ⟨rfl, some files, ?_⟩
      dsimp only
      rw [hfiles]

theorem MemoryTree.directoryBound_ne_zero (tree : MemoryTree) (root : Path) :
    tree.directoryBound root ≠ 0 := by
  rw [directoryBound_eq]
  exact (Nat.pow_pos (Nat.succ_pos _)).ne'

theorem RunConfig.error_iff {config : RunConfig} (hbudget : budget ≠ 0) {schedule : List Nat}
    {result : Except RunFault RunReport} {world : World MemoryTree}
    (hrun : config.runScheduled budget schedule tree = some (result, world)) :
    (∀ fault, result = .error fault ↔ config.refusal? tree = some fault) ∧
      ((∃ fault, result = .error fault) → world.store = tree) := by
  rcases config.run_prepare_refusal tree hbudget with
    ⟨fault, world', hrefusal, hstore, hprepare⟩ | ⟨hrefusal, batch, hbatch⟩
  · rw [RunConfig.runScheduled, hprepare] at hrun
    obtain ⟨rfl, rfl⟩ := Prod.mk.inj (Option.some.inj hrun)
    refine ⟨fun fault' => ?_, fun _ => hstore⟩
    rw [hrefusal, Except.error.injEq, Option.some.injEq]
  · have hok : ∃ report, result = .ok report := by
      rcases RunConfig.runScheduled_cases hrun with ⟨fault, hfault, -⟩ | ⟨-, hresult, -⟩ |
        ⟨files, pool, -, -, -, hresult, -⟩
      · rw [hbatch] at hfault
        cases hfault
      · exact ⟨_, hresult⟩
      · exact ⟨_, hresult⟩
    obtain ⟨report, rfl⟩ := hok
    rw [hrefusal]
    refine ⟨fun fault => ⟨nofun, nofun⟩, ?_⟩
    rintro ⟨fault, hfault⟩
    cases hfault

theorem RunOptions.error_iff {options : RunOptions} {schedule : List Nat}
    {result : Except RunFault RunReport} {world : World MemoryTree}
    (hrun : options.runScheduled schedule tree = some (result, world)) :
    (∀ fault, result = .error fault ↔ options.refusal? tree = some fault) ∧
      ((∃ fault, result = .error fault) → world.store = tree) := by
  rw [options.refusal?_eq]
  cases hconfigure : options.configure with
  | error fault =>
      rw [runScheduled, hconfigure] at hrun
      obtain ⟨rfl, rfl⟩ := Prod.mk.inj (Option.some.inj hrun)
      refine ⟨fun fault' => ?_, fun _ => rfl⟩
      rw [Except.error.injEq, Option.some.injEq]
  | ok config =>
      rw [runScheduled_of_configure hconfigure] at hrun
      exact RunConfig.error_iff (tree.directoryBound_ne_zero _) hrun

end Dealias
